import Mathlib.Data.List.Forall2
import Mathlib.Tactic.Common
import ClassWeave.ClassFile.InsnDecode
import ClassWeave.Layout.Emit
import ClassWeave.Proofs.Layout
import ClassWeave.Proofs.Words

/-!
# Emitted instructions read back

Every instruction in its own shape is written in as many bytes as the layout says and read back
from them, whichever form the writer chose: wide jumps show as the plain ones, switch keys in
ascending order, and each target as the label of its offset.
-/

set_option autoImplicit false

namespace ClassWeave

namespace Opcode

def run (first last : Opcode) : List Opcode :=
  (List.range' first.toNat (last.toNat + 1 - first.toNat)).map UInt8.ofNat

theorem mem_run {first last op : Opcode} (h : between first last op = true) :
    op ∈ run first last := by
  simp only [between, Bool.and_eq_true, decide_eq_true_eq, UInt8.le_iff_toNat_le] at h
  refine List.mem_map.2 ⟨op.toNat, List.mem_range'_1.2 ?_, UInt8.ofNat_toNat⟩
  omega

def isShortJump (op : Opcode) : Bool := between ifeq jsr op || op == ifnull || op == ifnonnull

end Opcode

namespace Insn

/-- Each opcode stands in the form that a reader gives it, with operands in range. -/
def Shaped : Insn → Prop
  | .label _ | .line _ | .iinc _ _ | .callSite _ _ _ | .ldc _ | .newArrays _ _
  | .lookupSwitch _ _ => True
  | .simple op => op.isSimple = true
  | .intOp op v =>
    op = Opcode.bipush ∧ -128 ≤ v.toInt ∧ v.toInt ≤ 127 ∨
    op = Opcode.sipush ∧ -32768 ≤ v.toInt ∧ v.toInt ≤ 32767 ∨
    op = Opcode.newarray ∧ 0 ≤ v.toInt ∧ v.toInt ≤ 255
  | .var op _ => op.isVariable = true
  | .typeOp op _ =>
    op = Opcode.new ∨ op = Opcode.anewarray ∨ op = Opcode.checkcast ∨ op = Opcode.instanceof
  | .field op _ => Opcode.between Opcode.getstatic Opcode.putfield op = true
  | .method op _ _ => Opcode.between Opcode.invokevirtual Opcode.invokeinterface op = true
  | .jump op _ => op.isShortJump = true ∨ op.isWideJump = true
  | .tableSwitch _ low high targets =>
    low.toInt ≤ high.toInt ∧ (targets.length : Int) = high.toInt - low.toInt + 1

/-- The instruction as a reader shows it: wide jumps are plain, switch keys ascend. -/
def normal : Insn → Insn
  | .jump op target =>
    .jump (if op = Opcode.gotoW then Opcode.goto else if op = Opcode.jsrW then Opcode.jsr else op)
      target
  | .lookupSwitch fallback pairs => .lookupSwitch fallback (sortOn (fun p => p.1.toInt) pairs)
  | insn => insn

end Insn

namespace InsnDecode

def readInsn (s : Source) (pc : Nat) : Reader Insn := do
  let op ← Reader.u8
  readOperands s pc op

variable (s : Source) (pc : Nat)

theorem readOperands_field {op : Opcode}
    (h : Opcode.between Opcode.getstatic Opcode.putfield op = true) :
    readOperands s pc op = readField s op := by
  have all : ∀ op ∈ Opcode.run Opcode.getstatic Opcode.putfield,
      readOperands s pc op = readField s op := by
    iterate 4 refine List.forall_mem_cons.2 ⟨rfl, ?_⟩
    exact List.forall_mem_nil _
  exact all op (Opcode.mem_run h)

theorem readOperands_method {op : Opcode}
    (h : Opcode.between Opcode.invokevirtual Opcode.invokeinterface op = true) :
    readOperands s pc op = readMethod s op := by
  have all : ∀ op ∈ Opcode.run Opcode.invokevirtual Opcode.invokeinterface,
      readOperands s pc op = readMethod s op := by
    iterate 4 refine List.forall_mem_cons.2 ⟨rfl, ?_⟩
    exact List.forall_mem_nil _
  exact all op (Opcode.mem_run h)

theorem readOperands_jump {op : Opcode} (h : op.isShortJump = true) :
    readOperands s pc op = (do return .jump op (← readBranch16 s pc)) := by
  have all : ∀ op ∈ Opcode.run Opcode.ifeq Opcode.jsr,
      readOperands s pc op = (do return .jump op (← readBranch16 s pc)) := by
    iterate 16 refine List.forall_mem_cons.2 ⟨rfl, ?_⟩
    exact List.forall_mem_nil _
  simp only [Opcode.isShortJump, Bool.or_eq_true, beq_iff_eq] at h
  rcases h with (h | rfl) | rfl
  · exact all op (Opcode.mem_run h)
  · rfl
  · rfl

theorem readOperands_variable {op : Opcode} (h : op.isVariable = true) :
    readOperands s pc op = (do return .var op (← Reader.u8).toUInt16) := by
  have loads : ∀ op ∈ Opcode.run Opcode.iload Opcode.aload,
      readOperands s pc op = (do return .var op (← Reader.u8).toUInt16) := by
    iterate 5 refine List.forall_mem_cons.2 ⟨rfl, ?_⟩
    exact List.forall_mem_nil _
  have stores : ∀ op ∈ Opcode.run Opcode.istore Opcode.astore,
      readOperands s pc op = (do return .var op (← Reader.u8).toUInt16) := by
    iterate 5 refine List.forall_mem_cons.2 ⟨rfl, ?_⟩
    exact List.forall_mem_nil _
  simp only [Opcode.isVariable, Bool.or_eq_true, beq_iff_eq] at h
  rcases h with (h | h) | rfl
  · exact loads op (Opcode.mem_run h)
  · exact stores op (Opcode.mem_run h)
  · rfl

theorem readOperands_type {op : Opcode}
    (h : op = Opcode.new ∨ op = Opcode.anewarray ∨ op = Opcode.checkcast ∨
      op = Opcode.instanceof) :
    readOperands s pc op = (do
      let index ← Reader.u16
      return .typeOp op (← s.pool.className index)) := by
  rcases h with rfl | rfl | rfl | rfl <;> rfl

variable {s : Source} {pc o : Nat}

theorem readsAt_insn {op : Opcode} {k : Reader Insn} {bytes : Bytes} {insn : Insn}
    (hop : readOperands s pc op = k) (h : ReadsAt (o + 1) k bytes insn) :
    ReadsAt o (readInsn s pc) (op :: bytes) insn := by
  refine .bind (.u8 op) ?_
  rw [hop]
  exact h

theorem readsAt_index {op : Opcode} {k : UInt16 → Reader Insn} {i : UInt16} {insn : Insn}
    (hop : readOperands s pc op = (Reader.u16 >>= k)) (h : ∀ o, ReadsAt o (k i) [] insn) :
    ReadsAt o (readInsn s pc) (op :: Bytes.be 2 i.toNat) insn :=
  readsAt_insn hop (.bind_last (.u16_toNat i) (h _))

theorem toUInt16_toUInt8 {slot : UInt16} (h : slot ≤ 255) : slot.toUInt8.toUInt16 = slot := by
  rw [← UInt16.toNat_inj]
  rw [UInt16.le_iff_toNat_le] at h
  simp only [UInt8.toNat_toUInt16, UInt16.toNat_toUInt8]
  exact Nat.mod_eq_of_lt (Nat.lt_succ_of_le h)

theorem readsAt_emitVar {op : Opcode} (hop : op.isVariable = true) (slot : UInt16) :
    ReadsAt o (readInsn s pc) (Layout.emitVar op slot) (.var op slot) := by
  unfold Layout.emitVar
  split
  · rename_i short
    obtain ⟨small, notRet⟩ := short
    have slots : slot = 0 ∨ slot = 1 ∨ slot = 2 ∨ slot = 3 := by
      rw [UInt16.le_iff_toNat_le] at small
      simp only [← UInt16.toNat_inj]
      change _ ≤ 3 at small
      change _ = 0 ∨ _ = 1 ∨ _ = 2 ∨ _ = 3
      omega
    have ops :
        op ∈ Opcode.run Opcode.iload Opcode.aload ++ Opcode.run Opcode.istore Opcode.astore := by
      simp only [Opcode.isVariable, Bool.or_eq_true, beq_iff_eq] at hop
      rcases hop with (hop | hop) | rfl
      · exact List.mem_append_left _ (Opcode.mem_run hop)
      · exact List.mem_append_right _ (Opcode.mem_run hop)
      · exact absurd rfl notRet
    have all : ∀ op ∈ Opcode.run Opcode.iload Opcode.aload ++
        Opcode.run Opcode.istore Opcode.astore, ReadsAt o (readInsn s pc)
          [(if op ≤ Opcode.aload then Opcode.iload0 + (op - Opcode.iload) * 4
            else Opcode.istore0 + (op - Opcode.istore) * 4) + slot.toUInt8] (.var op slot) := by
      rcases slots with rfl | rfl | rfl | rfl
      all_goals
        iterate 10 refine List.forall_mem_cons.2 ⟨readsAt_insn rfl (.pure _), ?_⟩
        exact List.forall_mem_nil _
    exact all op ops
  · split
    · rename_i small
      refine readsAt_insn (readOperands_variable s pc hop) (.bind_last (.u8 slot.toUInt8) ?_)
      rw [toUInt16_toUInt8 small]
      exact .pure _
    · have notIinc : op ≠ Opcode.iinc := by
        rintro rfl
        cases hop
      refine readsAt_insn (k := readWide pc) rfl (.bind (.u8 op) ?_)
      rw [if_neg notIinc, if_pos hop]
      exact .bind_last (.u16_toNat slot) (.pure _)

theorem readsAt_emitIinc (slot : UInt16) (delta : Int16) :
    ReadsAt o (readInsn s pc) (Layout.emitIinc slot delta) (.iinc slot delta) := by
  unfold Layout.emitIinc
  split
  · rename_i short
    obtain ⟨small, near⟩ := short
    simp only [fitsInt8, Bool.and_eq_true, decide_eq_true_eq] at near
    refine readsAt_insn rfl (.bind (.u8 slot.toUInt8) (.bind_last (.i8_lowByte16 delta) ?_))
    rw [toUInt16_toUInt8 small, Int16.toInt16_toInt8 near.1 near.2]
    exact .pure _
  · rw [List.append_assoc]
    refine readsAt_insn (k := readWide pc) rfl (.bind (.u8 Opcode.iinc) ?_)
    exact .bind (.u16_toNat slot) (.bind_last (.i16 delta) (.pure _))

section Branches

variable {l : Layout} {target : Label} {bytes : Bytes}

theorem readsAt_branch {n : Nat} {v : Int} (hn : l.positions.find? target = some n)
    (inside : n < s.length) (hv : v = (n : Int) - pc) :
    branch s pc v = .ok (l.positions.moved target) := by
  have there : (pc : Int) + v = n := by omega
  unfold branch
  rw [there, if_neg (by omega), Positions.moved_of_find? hn]
  rfl

theorem readsAt_offset16 (h : l.offset16 pc target = .ok bytes)
    (inside : ∀ n, l.positions.find? target = some n → n < s.length) :
    bytes.length = 2 ∧ ∀ o, ReadsAt o (readBranch16 s pc) bytes (l.positions.moved target) := by
  obtain ⟨d, hd, h⟩ := bind_ok_iff.1 h
  obtain ⟨n, hn, hd⟩ := bind_ok_iff.1 hd
  cases hd
  split at h
  · rename_i fits
    cases h
    simp only [fitsInt16, Bool.and_eq_true, decide_eq_true_eq] at fits
    obtain ⟨v, hv, read⟩ := ReadsAt.i16_ofInt fits.1 fits.2
    have found := Positions.place_eq_ok.1 hn
    refine ⟨Bytes.length_be .., fun o => .bind_last (read o) (.lift ?_)⟩
    exact readsAt_branch found (inside n found) hv
  · cases h

theorem readsAt_offset32 (h : l.offset32 pc target = .ok bytes) (near : pc < 65536)
    (short : s.length < 65536)
    (inside : ∀ n, l.positions.find? target = some n → n < s.length) :
    bytes.length = 4 ∧ ∀ o, ReadsAt o (readBranch32 s pc) bytes (l.positions.moved target) := by
  obtain ⟨d, hd, h⟩ := bind_ok_iff.1 h
  obtain ⟨n, hn, hd⟩ := bind_ok_iff.1 hd
  cases hd
  cases h
  have found := Positions.place_eq_ok.1 hn
  have := inside n found
  obtain ⟨v, hv, read⟩ := ReadsAt.i32_ofInt (d := (n : Int) - pc) (by omega) (by omega)
  refine ⟨Bytes.length_be .., fun o => .bind_last (read o) (.lift ?_)⟩
  exact readsAt_branch found (inside n found) hv

end Branches

theorem length_padding (pc : Nat) :
    (List.replicate (operandPadding pc) (0 : UInt8)).length = aligned pc - (pc + 1) := by
  rw [List.length_replicate, operandPadding, aligned]
  omega

section Switches

variable {l : Layout} (near : pc < 65536) (short : s.length < 65536)

include near short

theorem readsAt_tableSwitch {fallback : Label} {low high : Int32} {targets : List Label}
    (shape : (Insn.tableSwitch fallback low high targets).Shaped)
    (inside : ∀ t ∈ fallback :: targets, ∀ n, l.positions.find? t = some n → n < s.length)
    {first : Bytes} (hfirst : l.offset32 pc fallback = .ok first) {rest : List Bytes}
    (hrest : targets.mapM (l.offset32 pc) = .ok rest) :
    rest.flatten.length = 4 * targets.length ∧ first.length = 4 ∧
    ReadsAt pc (readInsn s pc)
      (Opcode.tableswitch :: List.replicate (operandPadding pc) 0 ++ first ++
        Bytes.be 4 (Bytes.ofInt32 low) ++ Bytes.be 4 (Bytes.ofInt32 high) ++ rest.flatten)
      (.tableSwitch (l.positions.moved fallback) low high (targets.map l.positions.moved)) := by
  obtain ⟨ordered, count⟩ := shape
  obtain ⟨firstLength, readFirst⟩ :=
    readsAt_offset32 hfirst near short (inside fallback (List.mem_cons_self ..))
  have each := forall₂_imp_mem (mapM_ok_iff.1 hrest) fun t ht bs _ hbs =>
    readsAt_offset32 hbs near short (inside t (List.mem_cons_of_mem _ ht))
  have width : rest.flatten.length = 4 * targets.length := by
    rw [each.length_eq]
    refine length_flatten_of_forall fun chunk hc => ?_
    obtain ⟨t, _, length, _⟩ := exists_left_of_forall₂ each hc
    exact length
  refine ⟨width, firstLength, ?_⟩
  have readRest : ReadsAt (pc + 1 + (aligned pc - (pc + 1)) + 4 + 4 + 4)
      (Reader.times (targets.map l.positions.moved).length (readBranch32 s pc)) rest.flatten
      (targets.map l.positions.moved) :=
    .times (List.forall₂_map_right_iff.2 (each.imp fun _ _ h => h.2).flip)
  have span : (high.toInt - low.toInt + 1).toNat = (targets.map l.positions.moved).length := by
    rw [List.length_map]
    omega
  have padding := length_padding pc
  simp only [List.append_assoc, List.cons_append]
  refine readsAt_insn (k := readTableSwitch s pc) rfl ?_
  refine .bind (.skipTo _ _ padding) ?_
  refine .bind (readFirst _) (.bind (.i32 low) (.bind (.i32 high) ?_))
  rw [if_neg (by rw [Int32.lt_iff_toInt_lt]; omega), span]
  refine .bind_last ?_ (.pure _)
  rw [padding, firstLength, Bytes.length_be, Bytes.length_be]
  exact readRest

theorem readsAt_lookupSwitch {fallback : Label} {pairs : List (Int32 × Label)}
    (shape : pairs.length < 2147483648)
    (inside : ∀ t ∈ fallback :: pairs.map Prod.snd, ∀ n,
      l.positions.find? t = some n → n < s.length)
    {first : Bytes} (hfirst : l.offset32 pc fallback = .ok first) {rest : List Bytes}
    (hrest : pairs.mapM (l.emitPair pc) = .ok rest) :
    rest.flatten.length = 8 * pairs.length ∧ first.length = 4 ∧
    ReadsAt pc (readInsn s pc)
      (Opcode.lookupswitch :: List.replicate (operandPadding pc) 0 ++ first ++
        Bytes.be 4 pairs.length ++ rest.flatten)
      (.lookupSwitch (l.positions.moved fallback)
        (pairs.map fun p => (p.1, l.positions.moved p.2))) := by
  obtain ⟨firstLength, readFirst⟩ :=
    readsAt_offset32 hfirst near short (inside fallback (List.mem_cons_self ..))
  have each := forall₂_imp_mem (mapM_ok_iff.1 hrest)
    (S := fun p bs => bs.length = 8 ∧
      ∀ o, ReadsAt o (readPair s pc) bs (p.1, l.positions.moved p.2)) fun p hp bs _ hbs => by
    obtain ⟨there, hthere, hbs⟩ := bind_ok_iff.1 hbs
    cases hbs
    have mem := List.mem_cons_of_mem fallback (List.mem_map_of_mem (f := Prod.snd) hp)
    obtain ⟨length, read⟩ := readsAt_offset32 hthere near short (inside p.2 mem)
    refine ⟨?_, fun o => .bind (.i32 p.1) (.bind_last (read _) (.pure _))⟩
    rw [List.length_append, Bytes.length_be, length]
  have width : rest.flatten.length = 8 * pairs.length := by
    rw [each.length_eq]
    refine length_flatten_of_forall fun chunk hc => ?_
    obtain ⟨t, _, length, _⟩ := exists_left_of_forall₂ each hc
    exact length
  refine ⟨width, firstLength, ?_⟩
  have readRest : ReadsAt (pc + 1 + (aligned pc - (pc + 1)) + 4 + 4)
      (Reader.times (pairs.map fun p => (p.1, l.positions.moved p.2)).length (readPair s pc))
      rest.flatten (pairs.map fun p => (p.1, l.positions.moved p.2)) :=
    .times (List.forall₂_map_right_iff.2 (each.imp fun _ _ h => h.2).flip)
  rw [List.length_map] at readRest
  obtain ⟨count, hcount, readCount⟩ :=
    ReadsAt.i32_ofInt (d := pairs.length) (by omega) (by omega)
  have bits : ((pairs.length : Int) % 4294967296).toNat = pairs.length := by omega
  rw [bits] at readCount
  have nonneg : ¬ count < 0 := by
    rw [Int32.lt_iff_toInt_lt, hcount]
    change ¬ (pairs.length : Int) < 0
    omega
  have times : count.toInt.toNat = pairs.length := by omega
  have padding := length_padding pc
  simp only [List.append_assoc, List.cons_append]
  refine readsAt_insn (k := readLookupSwitch s pc) rfl ?_
  refine .bind (.skipTo _ _ padding) ?_
  refine .bind (readFirst _) (.bind (readCount _) ?_)
  rw [if_neg nonneg, times]
  refine .bind_last ?_ (.pure _)
  rw [padding, firstLength, Bytes.length_be]
  exact readRest

end Switches

theorem readsAt_emitLdc {value : Loadable} {index : UInt16}
    (h : s.bootstraps.loadable s.pool index = .ok value) :
    ReadsAt o (readInsn s pc) (Layout.emitLdc value index) (.ldc value) := by
  unfold Layout.emitLdc
  split
  · exact readsAt_index rfl fun o => .bind_nil (.lift h) (.pure _)
  · split
    · rename_i small
      refine readsAt_insn rfl (.bind_last (.u8 index.toUInt8) ?_)
      rw [toUInt16_toUInt8 small]
      exact .bind_nil (.lift h) (.pure _)
    · exact readsAt_index rfl fun o => .bind_nil (.lift h) (.pure _)

theorem length_emitLdc (value : Loadable) (index : UInt16) (pc : Nat) :
    (Layout.emitLdc value index).length = (Insn.ldc value).size pc (some index) := by
  unfold Layout.emitLdc Insn.size
  by_cases wide : value.isWide = true
  · simp [wide]
  · by_cases small : index ≤ 255 <;> simp [wide, small]

theorem length_emitVar (op : Opcode) (slot : UInt16) (pc : Nat) (index : Option UInt16) :
    (Layout.emitVar op slot).length = (Insn.var op slot).size pc index := by
  unfold Layout.emitVar Insn.size
  dsimp only
  split
  · rfl
  · split
    · rfl
    · simp

theorem length_emitIinc (slot : UInt16) (delta : Int16) (pc : Nat) (index : Option UInt16) :
    (Layout.emitIinc slot delta).length = (Insn.iinc slot delta).size pc index := by
  unfold Layout.emitIinc Insn.size
  dsimp only
  split
  · rfl
  · simp

theorem readsAt_method {op : Opcode} (hop : readOperands s pc op = readMethod s op)
    {m : MemberRef} {ofInterface : Bool} {index : UInt16}
    (hm : s.pool.member index =
      .ok (if ofInterface then .interfaceMethod else .method, m)) {args : Bytes}
    (hargs : args.length = if op = Opcode.invokeinterface then 2 else 0) :
    ReadsAt o (readInsn s pc) (op :: (Bytes.be 2 index.toNat ++ args))
      (.method op m ofInterface) := by
  have last : ∀ o, ReadsAt o (do
      let found ← (s.pool.member index : Except FormatError _)
      if found.1 = .field then throw (.wrongConstant index .method)
      return .method op found.2 (found.1 == .interfaceMethod) : Reader Insn) []
        (.method op m ofInterface) := by
    intro o
    refine .bind_nil (.lift hm) ?_
    cases ofInterface <;> exact .pure _
  refine readsAt_insn hop (.bind (.u16_toNat index) ?_)
  split at hargs
  · rename_i isInterface
    rw [if_pos isInterface]
    obtain ⟨b, c, rfl⟩ := List.length_eq_two.1 hargs
    exact .bind_last (.map _ (.u16_any b c)) (last _)
  · rename_i notInterface
    rw [if_neg notInterface, List.length_eq_zero_iff.1 hargs]
    exact last _

end InsnDecode

namespace Layout

open InsnDecode (readInsn)

variable {limits : Limits} {l : Layout} {length : Nat}

def ReadsBack (l : Layout) (length : Nat) (p : Placed) (f : Tables) (bytes : Bytes) : Prop :=
  bytes.length = p.size ∧
    (p.insn.isExecuted = true → ReadsAt p.offset
      (readInsn ⟨f.pool, f.bootstraps, length⟩ p.offset) bytes
      (p.insn.normal.relabel l.positions.moved))

section Operands

variable {pc : Nat} {index : Option UInt16}

theorem readsBack_intOp {op : Opcode} {v : Int32} (shaped : (Insn.intOp op v).Shaped) (f : Tables) :
    ReadsBack l length ⟨pc, .intOp op v, index⟩ f
      (if op = Opcode.sipush then op :: Bytes.be 2 (Bytes.ofInt32 v)
        else [op, UInt8.ofNat (Bytes.ofInt32 v)]) := by
  rcases shaped with ⟨rfl, low, high⟩ | ⟨rfl, low, high⟩ | ⟨rfl, low, high⟩
  · refine ⟨rfl, fun _ => InsnDecode.readsAt_insn rfl (.bind_last (.i8_lowByte v) ?_)⟩
    rw [Int32.toInt32_toInt8 low high]
    exact .pure _
  · refine ⟨rfl, fun _ => InsnDecode.readsAt_insn rfl ?_⟩
    rw [Int32.lowWord]
    refine .bind_last (.i16 v.toInt16) ?_
    rw [Int32.toInt32_toInt16 low high]
    exact .pure _
  · refine ⟨rfl, fun _ => InsnDecode.readsAt_insn rfl (.bind_last (.u8 _) ?_)⟩
    rw [Int32.ofNat_lowByte low high]
    exact .pure _

theorem grows_emitMethod {op : Opcode} {m : MemberRef} {ofInterface : Bool}
    (shaped : (Insn.method op m ofInterface).Shaped)
    (within : (Insn.method op m ofInterface).Within limits) :
    Grows limits (emitMethod op m ofInterface)
      (ReadsBack l length ⟨pc, .method op m ofInterface, index⟩) := by
  refine .bind (Tables.grows_onPool (Pool.grows_internMethod within ofInterface)) fun i _ => ?_
  have hop := fun s => InsnDecode.readOperands_method s pc shaped
  split
  · rename_i isInterface
    refine .bind (P := fun _ _ => True) (.lift fun _ _ _ => True.intro) fun d _ => ?_
    refine .pure fun f _ hi => ⟨?_, fun _ => ?_⟩
    · simp [Placed.size, Insn.size, isInterface]
    · exact InsnDecode.readsAt_method (hop _) hi (by rw [if_pos isInterface]; rfl)
  · rename_i notInterface
    refine .pure fun f hi => ⟨?_, fun _ => ?_⟩
    · simp [Placed.size, Insn.size, notInterface]
    · have read : ReadsAt pc (InsnDecode.readInsn ⟨f.pool, f.bootstraps, length⟩ pc)
          (op :: (Bytes.be 2 i.toNat ++ [])) (.method op m ofInterface) :=
        InsnDecode.readsAt_method (hop _) hi (by rw [if_neg notInterface]; rfl)
      rwa [List.append_nil] at read

theorem grows_emitJump {op : Opcode} {target : Label} (shaped : (Insn.jump op target).Shaped)
    (near : pc < 65536) (short : length < 65536)
    (inside : ∀ n, l.positions.find? target = some n → n < length) :
    Grows limits (l.emitInsn ⟨pc, .jump op target, index⟩)
      (ReadsBack l length ⟨pc, .jump op target, index⟩) := by
  dsimp only [emitInsn]
  split
  · rename_i wide
    refine .bind (P := fun _ bytes => l.offset32 pc target = .ok bytes) (.lift fun _ _ h => h)
      fun bytes _ => ?_
    refine .pure fun f h => ?_
    obtain ⟨size, read⟩ :=
      InsnDecode.readsAt_offset32 (s := ⟨f.pool, f.bootstraps, length⟩) h near short inside
    refine ⟨by simp [Placed.size, Insn.size, wide, size], fun _ => ?_⟩
    simp only [Opcode.isWideJump, Bool.or_eq_true, beq_iff_eq] at wide
    rcases wide with rfl | rfl
    · exact InsnDecode.readsAt_insn rfl (.bind_last (read _) (.pure _))
    · exact InsnDecode.readsAt_insn rfl (.bind_last (read _) (.pure _))
  · rename_i wide
    refine .bind (P := fun _ bytes => l.offset16 pc target = .ok bytes) (.lift fun _ _ h => h)
      fun bytes _ => ?_
    refine .pure fun f h => ?_
    obtain ⟨size, read⟩ :=
      InsnDecode.readsAt_offset16 (s := ⟨f.pool, f.bootstraps, length⟩) h inside
    refine ⟨by simp [Placed.size, Insn.size, wide, size], fun _ => ?_⟩
    have hop := InsnDecode.readOperands_jump ⟨f.pool, f.bootstraps, length⟩ pc
      (shaped.resolve_right wide)
    simp only [Opcode.isWideJump, Bool.or_eq_true, beq_iff_eq, not_or] at wide
    have same : Insn.normal (.jump op target) = .jump op target := by
      rw [Insn.normal, if_neg wide.1, if_neg wide.2]
    dsimp only
    rw [same]
    exact InsnDecode.readsAt_insn hop (.bind_last (read _) (.pure _))

theorem grows_emitTableSwitch {fallback : Label} {low high : Int32} {targets : List Label}
    (shaped : (Insn.tableSwitch fallback low high targets).Shaped)
    (near : pc < 65536) (short : length < 65536)
    (inside : ∀ t ∈ fallback :: targets, ∀ n, l.positions.find? t = some n → n < length) :
    Grows limits (l.emitInsn ⟨pc, .tableSwitch fallback low high targets, index⟩)
      (ReadsBack l length ⟨pc, .tableSwitch fallback low high targets, index⟩) := by
  refine .bind (P := fun _ bytes => l.offset32 pc fallback = .ok bytes) (.lift fun _ _ h => h)
    fun first _ => ?_
  refine .bind (P := fun _ written => targets.mapM (l.offset32 pc) = .ok written)
    (.lift fun _ _ h => h) fun rest _ => ?_
  refine .pure fun f hrest hfirst => ?_
  obtain ⟨width, four, read⟩ := InsnDecode.readsAt_tableSwitch
    (s := ⟨f.pool, f.bootstraps, length⟩) near short shaped inside hfirst hrest
  refine ⟨?_, fun _ => read⟩
  simp [Placed.size, Insn.size, four, width]
  omega

theorem grows_emitLookupSwitch {fallback : Label} {pairs : List (Int32 × Label)}
    (room : pc + (Insn.lookupSwitch fallback pairs).size pc index < 65536) (short : length < 65536)
    (inside : ∀ t ∈ fallback :: pairs.map Prod.snd, ∀ n,
      l.positions.find? t = some n → n < length) :
    Grows limits (l.emitInsn ⟨pc, .lookupSwitch fallback pairs, index⟩)
      (ReadsBack l length ⟨pc, .lookupSwitch fallback pairs, index⟩) := by
  have near : pc < 65536 := by omega
  have perm := sortOn_perm (fun p : Int32 × Label => p.1.toInt) pairs
  have inside : ∀ t ∈ fallback :: (sortOn (fun p => p.1.toInt) pairs).map Prod.snd, ∀ n,
      l.positions.find? t = some n → n < length := by
    intro t ht
    refine inside t ?_
    rcases List.mem_cons.1 ht with rfl | ht
    · exact List.mem_cons_self ..
    · exact List.mem_cons_of_mem _ ((perm.map Prod.snd).mem_iff.1 ht)
  refine .bind (P := fun _ bytes => l.offset32 pc fallback = .ok bytes) (.lift fun _ _ h => h)
    fun first _ => ?_
  refine .bind (P := fun _ written =>
    (sortOn (fun p => p.1.toInt) pairs).mapM (l.emitPair pc) = .ok written)
    (.lift fun _ _ h => h) fun rest _ => ?_
  refine .pure fun f hrest hfirst => ?_
  have shape : (sortOn (fun p : Int32 × Label => p.1.toInt) pairs).length < 2147483648 := by
    rw [perm.length_eq]
    simp only [Insn.size] at room
    omega
  obtain ⟨width, four, read⟩ := InsnDecode.readsAt_lookupSwitch
    (s := ⟨f.pool, f.bootstraps, length⟩) near short shape inside hfirst hrest
  rw [perm.length_eq] at width read
  refine ⟨?_, fun _ => read⟩
  simp [Placed.size, Insn.size, four, width]
  omega

end Operands

theorem grows_emitInsn {p : Placed} (shaped : p.insn.Shaped) (within : p.insn.Within limits)
    (resolvable : p.insn.Resolvable)
    (room : p.offset + p.size < 65536) (short : length < 65536)
    (inside : ∀ t ∈ p.insn.targets, ∀ n, l.positions.find? t = some n → n < length) :
    Grows limits (l.emitInsn p) fun f bytes => p.Sound f → ReadsBack l length p f bytes := by
  have near : p.offset < 65536 := by omega
  obtain ⟨pc, insn, index⟩ := p
  cases insn with
  | label x => exact .pure fun f _ => ⟨rfl, nofun⟩
  | line n => exact .pure fun f _ => ⟨rfl, nofun⟩
  | simple op =>
    refine .pure fun f _ => ⟨rfl, fun _ => ?_⟩
    exact InsnDecode.readsAt_insn (if_pos shaped) (.pure _)
  | intOp op v => exact .pure fun f _ => readsBack_intOp shaped f
  | var op slot =>
    refine .pure fun f _ => ⟨InsnDecode.length_emitVar op slot pc index, fun _ => ?_⟩
    exact InsnDecode.readsAt_emitVar shaped slot
  | iinc slot delta =>
    refine .pure fun f _ => ⟨InsnDecode.length_emitIinc slot delta pc index, fun _ => ?_⟩
    exact InsnDecode.readsAt_emitIinc slot delta
  | typeOp op name =>
    refine .bind (Tables.grows_className within) fun i _ => ?_
    refine .pure fun f hi _ => ⟨rfl, fun _ => ?_⟩
    exact InsnDecode.readsAt_index (InsnDecode.readOperands_type _ _ shaped) fun o =>
      .bind_nil (.lift hi.2) (.pure _)
  | field op m =>
    refine .bind (Tables.grows_onPool (Pool.grows_internField within)) fun i _ => ?_
    refine .pure fun f hi _ => ⟨rfl, fun _ => ?_⟩
    exact InsnDecode.readsAt_index (InsnDecode.readOperands_field _ _ shaped) fun o =>
      .bind_nil (.lift hi) (.pure _)
  | method op m ofInterface => exact (grows_emitMethod shaped within).mono fun _ _ h _ => h
  | callSite name desc b =>
    obtain ⟨hn, hd, hb⟩ := within
    refine .bind (Tables.grows_internCallSite hn hd hb) fun i _ => ?_
    refine .pure fun f hi _ => ⟨rfl, fun _ => ?_⟩
    refine InsnDecode.readsAt_insn (k := InsnDecode.readCallSite _) rfl ?_
    exact .bind (.u16_toNat i) (.bind_last (.map _ (.u16_any 0 0)) (.lift (hi resolvable)))
  | ldc v =>
    cases index with
    | none => exact .throw _ _
    | some i =>
      refine .pure fun f sound => ⟨InsnDecode.length_emitLdc v i pc, fun _ => ?_⟩
      obtain ⟨j, hj, found⟩ := sound v rfl
      cases hj
      exact InsnDecode.readsAt_emitLdc (found _ resolvable)
  | jump op target =>
    have inside := inside target (List.mem_singleton.2 rfl)
    exact (grows_emitJump shaped near short inside).mono fun _ _ h _ => h
  | tableSwitch fallback low high targets =>
    exact (grows_emitTableSwitch shaped near short inside).mono fun _ _ h _ => h
  | lookupSwitch fallback pairs =>
    exact (grows_emitLookupSwitch room short inside).mono fun _ _ h _ => h
  | newArrays name dims =>
    refine .bind (Tables.grows_className within) fun i _ => ?_
    refine .pure fun f hi _ => ⟨rfl, fun _ => ?_⟩
    refine InsnDecode.readsAt_insn rfl (.bind (.u16_toNat i) ?_)
    exact .bind_nil (.lift hi.2) (.bind_last (.u8 dims) (.pure _))

/-- What a reader makes of placed instructions: the marks are gone, the offsets stay. -/
def decodedOf (moved : Label → Label) (ps : List Placed) : List (Nat × Insn) :=
  (ps.filter (·.insn.isExecuted)).map fun p => (p.offset, p.insn.normal.relabel moved)

theorem decodedOf_cons {moved : Label → Label} {p : Placed} {ps : List Placed}
    (h : p.insn.isExecuted = true) :
    decodedOf moved (p :: ps) = (p.offset, p.insn.normal.relabel moved) :: decodedOf moved ps := by
  simp [decodedOf, h]

theorem decodedOf_mark {moved : Label → Label} {p : Placed} {ps : List Placed}
    (h : ¬ p.insn.isExecuted = true) : decodedOf moved (p :: ps) = decodedOf moved ps := by
  simp [decodedOf, h]

theorem readAll_of_ne_nil (s : InsnDecode.Source) (fuel : Nat) (done : List (Nat × Insn)) (o : Nat)
    {bytes : Bytes} (h : bytes ≠ []) :
    InsnDecode.readAll s (fuel + 1) done ⟨o, bytes⟩ =
      (readInsn s o >>= fun insn => InsnDecode.readAll s fuel ((o, insn) :: done)) ⟨o, bytes⟩ := by
  cases bytes with
  | nil => exact absurd rfl h
  | cons b bytes => rfl

theorem readsAll_readAll {f : Tables} {ps : List Placed} {written : List Bytes}
    (h : List.Forall₂ (fun p bs => ReadsBack l length p f bs) ps written) {start finish : Nat}
    (chain : Chain start ps finish) {fuel : Nat} (enough : written.flatten.length ≤ fuel)
    (done : List (Nat × Insn)) :
    ReadsAll start (InsnDecode.readAll ⟨f.pool, f.bootstraps, length⟩ fuel done) written.flatten
      (done.reverse ++ decodedOf l.positions.moved ps) := by
  induction h generalizing start fuel done with
  | nil =>
    have stop : ReadsAll start (pure done.reverse : Reader (List (Nat × Insn))) [] done.reverse :=
      (ReadsAt.pure _).all
    rw [decodedOf, List.filter_nil, List.map_nil, List.append_nil]
    cases fuel <;> exact stop
  | @cons p bs ps written hp _ ih =>
    obtain ⟨here, rest⟩ := chain
    obtain ⟨length_bs, read⟩ := hp
    rw [List.flatten_cons, List.length_append] at enough
    rw [List.flatten_cons]
    by_cases executed : p.insn.isExecuted = true
    · have pos := Placed.size_pos executed
      obtain ⟨fuel, rfl⟩ : ∃ n, fuel = n + 1 := ⟨fuel - 1, by omega⟩
      have some_bytes : bs ++ written.flatten ≠ [] := by
        intro none
        rw [List.append_eq_nil_iff] at none
        rw [none.1] at length_bs
        simp at length_bs
        omega
      rw [ReadsAll, readAll_of_ne_nil _ _ _ _ some_bytes, ← here]
      refine ReadsAll.bind (read executed) ?_
      rw [length_bs, here]
      have last := ih rest (by omega : written.flatten.length ≤ fuel)
        ((start, p.insn.normal.relabel l.positions.moved) :: done)
      rw [List.reverse_cons, List.append_assoc] at last
      rw [decodedOf_cons executed, here]
      exact last
    · rw [Placed.size_mark executed] at length_bs rest
      rw [List.length_eq_zero_iff.1 length_bs, List.nil_append, decodedOf_mark executed]
      exact ih rest (by omega) done

theorem Chain.length_flatten {ps : List Placed} {start finish : Nat}
    (chain : Chain start ps finish) {chunks : List Bytes}
    (sized : List.Forall₂ (fun p chunk => chunk.length = p.size) ps chunks) :
    start + chunks.flatten.length = finish := by
  induction sized generalizing start with
  | nil => exact chain.symm
  | cons first _ ih =>
    rw [List.flatten_cons, List.length_append, first, ← Nat.add_assoc]
    exact ih chain.2

def TargetsInside (l : Layout) (insn : Insn) : Prop :=
  ∀ t ∈ insn.targets, ∀ n, l.positions.find? t = some n → n < l.length

theorem grows_emit (shaped : ∀ p ∈ l.placed, p.insn.Shaped)
    (within : ∀ p ∈ l.placed, p.insn.Within limits)
    (resolvable : ∀ p ∈ l.placed, p.insn.Resolvable)
    (inside : ∀ p ∈ l.placed, l.TargetsInside p.insn) (chain : Chain 0 l.placed l.length)
    (fits : l.length ≤ 65535) :
    Grows limits l.emit fun f bytes => (∀ p ∈ l.placed, p.Sound f) → bytes.length = l.length ∧
      InsnDecode.decode f.pool f.bootstraps bytes =
        .ok (decodedOf l.positions.moved l.placed) := by
  have steps : Grows limits (l.placed.mapM l.emitInsn) fun f written =>
      List.Forall₂ (fun p bs => p.Sound f → ReadsBack l l.length p f bs) l.placed written := by
    refine .mapM fun p hp => ?_
    have near := (chain.bounds hp).2
    exact grows_emitInsn (shaped p hp) (within p hp) (resolvable p hp) (by omega) (by omega)
      (inside p hp)
  refine .bind steps fun written _ => .pure fun f hw sound => ?_
  have each := forall₂_imp_mem hw fun p hp bs _ hbs => hbs (sound p hp)
  have whole := chain.length_flatten (each.imp fun p bs back => back.1)
  rw [Nat.zero_add] at whole
  refine ⟨whole, ?_⟩
  have read := readsAll_readAll each chain (Nat.le_refl _) []
  apply ReadsAll.runOn
  rw [← whole] at read
  exact read

end Layout

end ClassWeave
