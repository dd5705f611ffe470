import Mathlib.Data.List.Forall2
import Mathlib.Tactic.Common
import ClassWeave.Proofs.Unflagged

/-!
# Decoded instructions

Every instruction that was decoded stands in its own shape, goes to places inside the code array,
and names constants that a reader resolves. Decoded instructions stand one behind the other.
-/

set_option autoImplicit false

namespace ClassWeave

namespace InsnDecode

structure Sane (s : Source) (limits : Limits) (insn : Insn) : Prop where
  executed : insn.isExecuted = true
  shaped : insn.Shaped
  plain : ∀ op target, insn = .jump op target → op.isShortJump = true
  inside : ∀ t ∈ insn.targets, ∃ n < s.length, t = Label.ofNat n
  within : insn.Within limits
  resolvable : s.pool.PlainHandles → insn.Resolvable
  unflagged : insn.unflagged.Resolvable

structure Source.WellFormed (s : Source) (limits : Limits) : Prop where
  pool : s.pool.WellFormed limits
  bootstraps : s.bootstraps.WellFormed limits

variable {s : Source} {limits : Limits} {pc : Nat}

theorem advances_branch16 : Advances (readBranch16 s pc) := .bind .i16 fun _ => .lift _

theorem advances_branch32 : Advances (readBranch32 s pc) := .bind .i32 fun _ => .lift _

theorem advances_readTableSwitch : Advances (readTableSwitch s pc) := by
  refine .bind (.skipTo _) fun _ => .bind advances_branch32 fun _ => .bind .i32 fun _ =>
    .bind .i32 fun _ => .ite (.bind (.throw _) fun _ => ?_) ?_
  · exact .bind (.times advances_branch32 _) fun _ => .pure _
  · exact .bind (.times advances_branch32 _) fun _ => .pure _

theorem advances_readLookupSwitch : Advances (readLookupSwitch s pc) := by
  have pair : Advances (readPair s pc) :=
    .bind .i32 fun _ => .bind advances_branch32 fun _ => .pure _
  refine .bind (.skipTo _) fun _ => .bind advances_branch32 fun _ => .bind .i32 fun _ =>
    .ite (.bind (.throw _) fun _ => ?_) ?_
  · exact .bind (.times pair _) fun _ => .pure _
  · exact .bind (.times pair _) fun _ => .pure _

theorem advances_readField (op : Opcode) : Advances (readField s op) :=
  .bind .u16 fun _ => .bind (.lift _) fun _ => .ite (.bind (.throw _) fun _ => .pure _) (.pure _)

theorem advances_readMethod (op : Opcode) : Advances (readMethod s op) := by
  have discarded : Advances (discard Reader.u16) := .bind .u16 fun _ => .pure _
  refine .bind .u16 fun _ => .ite (.bind discarded fun _ => ?_) ?_
  · exact .bind (.lift _) fun _ => .ite (.bind (.throw _) fun _ => .pure _) (.pure _)
  · exact .bind (.lift _) fun _ => .ite (.bind (.throw _) fun _ => .pure _) (.pure _)

theorem advances_readCallSite : Advances (readCallSite s) := by
  have discarded : Advances (discard Reader.u16) := .bind .u16 fun _ => .pure _
  exact .bind .u16 fun _ => .bind discarded fun _ => .lift _

theorem advances_readWide : Advances (readWide pc) := by
  refine .bind .u8 fun op => .ite (.bind .u16 fun _ => .bind .i16 fun _ => .pure _) (.ite ?_ ?_)
  · exact .bind .u16 fun _ => .pure _
  · exact .throw _

theorem advances_readOperands (op : Opcode) : Advances (readOperands s pc op) := by
  unfold readOperands
  refine .ite (.pure _) (.ite (.bind .i8 fun _ => .pure _) (.ite (.bind .i16 fun _ => .pure _) ?_))
  refine .ite (.bind .u8 fun _ => .pure _) ?_
  refine .ite (.bind .u8 fun _ => .bind (.lift _) fun _ => .pure _) ?_
  refine .ite (.bind .u16 fun _ => .bind (.lift _) fun _ => .pure _) ?_
  refine .ite (.bind .u8 fun _ => .pure _) (.ite (.pure _) (.ite (.pure _) ?_))
  refine .ite (.bind .u8 fun _ => .bind .i8 fun _ => .pure _) (.ite advances_readWide ?_)
  refine .ite (.bind advances_branch16 fun _ => .pure _) ?_
  refine .ite (.bind advances_branch32 fun _ => .pure _) ?_
  refine .ite (.bind advances_branch32 fun _ => .pure _) ?_
  refine .ite advances_readTableSwitch (.ite advances_readLookupSwitch ?_)
  refine .ite (advances_readField op)
    (.ite (advances_readMethod op) (.ite advances_readCallSite ?_))
  refine .ite (.bind .u16 fun _ => .bind (.lift _) fun _ => .pure _) (.ite ?_ (.throw _))
  exact .bind .u16 fun _ => .bind (.lift _) fun _ => .bind .u8 fun _ => .pure _

theorem branch_inside {offset : Int} {t : Label} (h : branch s pc offset = .ok t) :
    ∃ n < s.length, t = Label.ofNat n := by
  unfold branch at h
  dsimp only at h
  split at h
  · cases h
  · rename_i inside
    cases h
    exact ⟨_, by omega, rfl⟩

theorem yields_branch16 : Yields (readBranch16 s pc) fun t => ∃ n < s.length, t = Label.ofNat n :=
  .bind (.trivial _) fun _ _ => .lift fun _ h => branch_inside h

theorem yields_branch32 : Yields (readBranch32 s pc) fun t => ∃ n < s.length, t = Label.ofNat n :=
  .bind (.trivial _) fun _ _ => .lift fun _ h => branch_inside h

theorem Sane.straight {insn : Insn} (executed : insn.isExecuted = true) (shaped : insn.Shaped)
    (targets : insn.targets = []) (within : insn.Within limits) (resolvable : insn.Resolvable)
    (unflagged : insn.unflagged.Resolvable) : Sane s limits insn where
  executed := executed
  shaped := shaped
  plain op target same := by
    subst same
    cases targets
  inside t ht := by
    rw [targets] at ht
    cases ht
  within := within
  resolvable _ := resolvable
  unflagged := unflagged

theorem Sane.jump {op : Opcode} {t : Label} (hop : op.isShortJump = true)
    (ht : ∃ n < s.length, t = Label.ofNat n) : Sane s limits (.jump op t) where
  executed := rfl
  shaped := .inl hop
  plain op' target same := by
    cases same
    exact hop
  inside t' ht' := by
    rw [List.mem_singleton.1 ht']
    exact ht
  within := True.intro
  resolvable _ := True.intro
  unflagged := True.intro

theorem yields_readTableSwitch : Yields (readTableSwitch s pc) (Sane s limits) := by
  refine .bind (.trivial _) fun _ _ => .bind yields_branch32 fun fallback hf => ?_
  refine .bind (.trivial _) fun low _ => .bind (.trivial _) fun high _ => ?_
  refine .ite (fun _ => .bind .throw fun _ (h : False) => h.elim) fun ordered => ?_
  refine .bind (.times yields_branch32 _) fun targets ht => .pure ?_
  refine ⟨rfl, ?_, ?_, ?_, True.intro, fun _ => True.intro, True.intro⟩
  · rw [Int32.lt_iff_toInt_lt] at ordered
    refine ⟨by omega, ?_⟩
    rw [ht.1]
    omega
  · intro op target same
    cases same
  · intro t mem
    rcases List.mem_cons.1 mem with rfl | mem
    · exact hf
    · exact ht.2 t mem

theorem yields_readLookupSwitch : Yields (readLookupSwitch s pc) (Sane s limits) := by
  have pair : Yields (readPair s pc) fun p => ∃ n < s.length, p.2 = Label.ofNat n :=
    .bind (.trivial _) fun _ _ => .bind yields_branch32 fun _ h => .pure h
  refine .bind (.trivial _) fun _ _ => .bind yields_branch32 fun fallback hf => ?_
  refine .bind (.trivial _) fun count _ => ?_
  refine .ite (fun _ => .bind .throw fun _ (h : False) => h.elim) fun _ => ?_
  refine .bind (.times pair _) fun pairs hp => .pure ?_
  refine ⟨rfl, True.intro, ?_, ?_, True.intro, fun _ => True.intro, True.intro⟩
  · intro op target same
    cases same
  · intro t mem
    rcases List.mem_cons.1 mem with rfl | mem
    · exact hf
    · obtain ⟨p, hp', rfl⟩ := List.mem_map.1 mem
      exact hp.2 p hp'

theorem yields_readField (hs : s.WellFormed limits) {op : Opcode}
    (hop : Opcode.between Opcode.getstatic Opcode.putfield op = true) :
    Yields (readField s op) (Sane s limits) := by
  refine .bind (.trivial _) fun i _ => ?_
  refine .bind (.lift fun _ h => Pool.within_of_member hs.pool h) fun m hm => ?_
  refine .ite (fun _ => .bind .throw fun _ (h : False) => h.elim) fun _ => .pure ?_
  exact .straight rfl hop rfl hm True.intro True.intro

theorem yields_readMethod (hs : s.WellFormed limits) {op : Opcode}
    (hop : Opcode.between Opcode.invokevirtual Opcode.invokeinterface op = true) :
    Yields (readMethod s op) (Sane s limits) := by
  have last : ∀ i, Yields (do
      let m ← (s.pool.member i : Except FormatError _)
      if m.1 = .field then throw (.wrongConstant i .method)
      return .method op m.2 (m.1 == .interfaceMethod) : Reader Insn) (Sane s limits) := by
    intro i
    refine .bind (.lift fun _ h => Pool.within_of_member hs.pool h) fun m hm => ?_
    refine .ite (fun _ => .bind .throw fun _ (h : False) => h.elim) fun _ => .pure ?_
    exact .straight rfl hop rfl hm True.intro True.intro
  refine .bind (.trivial _) fun i _ => .ite (fun _ => ?_) fun _ => last i
  exact .bind (.trivial _) fun _ _ => last i

theorem sane_loadable (hs : s.WellFormed limits) {i : UInt16} {v : Loadable}
    (h : s.bootstraps.loadable s.pool i = .ok v) : Sane s limits (.ldc v) where
  executed := rfl
  shaped := True.intro
  plain _ _ same := nomatch same
  inside _ ht := nomatch ht
  within := BootstrapTable.within_of_loadableWith hs.pool
    (fun _ _ => BootstrapTable.within_of_bootstrapAt hs.bootstraps hs.pool) h
  resolvable plain := BootstrapTable.resolvable_of_loadableWith plain
    (fun _ _ => BootstrapTable.resolvable_of_bootstrapAt plain) h
  unflagged := BootstrapTable.unflagged_of_loadableWith
    (fun _ _ => BootstrapTable.unflagged_of_bootstrapAt) h

theorem yields_readCallSite (hs : s.WellFormed limits) :
    Yields (readCallSite s) (Sane s limits) := by
  refine .bind (.trivial _) fun i _ => .bind (.trivial _) fun _ _ => .lift fun insn h => ?_
  obtain ⟨c, _, h⟩ := bind_ok_iff.1 h
  cases c with
  | callSite entry nt =>
    obtain ⟨⟨name, desc⟩, hn, h⟩ := bind_ok_iff.1 h
    obtain ⟨b, hb, h⟩ := bind_ok_iff.1 h
    cases h
    obtain ⟨hname, hdesc⟩ := Pool.texts_of_nameAndType hs.pool hn
    refine ⟨rfl, True.intro, (fun _ _ same => nomatch same), (fun _ ht => nomatch ht), ?_, ?_,
      ?_⟩
    · exact ⟨hname, hdesc, BootstrapTable.within_of_bootstrapAt hs.bootstraps hs.pool hb⟩
    · intro plain
      obtain ⟨n, same, hb⟩ := BootstrapTable.resolvable_of_bootstrapAt plain hb
      cases same
      exact hb
    · obtain ⟨n, same, hb⟩ := BootstrapTable.unflagged_of_bootstrapAt hb
      cases same
      exact hb
  | _ => cases h

theorem yields_readWide : Yields (readWide pc) (Sane s limits) := by
  refine .bind (.trivial _) fun op _ => .ite (fun _ => ?_) fun _ =>
    .ite (fun hop => ?_) fun _ => .throw
  · refine .bind (.trivial _) fun _ _ => .bind (.trivial _) fun _ _ => .pure ?_
    exact .straight rfl True.intro rfl True.intro True.intro True.intro
  · refine .bind (.trivial _) fun _ _ => .pure ?_
    exact .straight rfl hop rfl True.intro True.intro True.intro

theorem isVariable_short {op first last base : Opcode} (h : Opcode.between first last op = true)
    (all : ∀ op ∈ Opcode.run first last, (base + (op - first) / 4).isVariable = true) :
    (base + (op - first) / 4).isVariable = true :=
  all op (Opcode.mem_run h)

theorem yields_readOperands (hs : s.WellFormed limits) (op : Opcode) :
    Yields (readOperands s pc op) (Sane s limits) := by
  unfold readOperands
  refine .ite (fun hop => .pure ?_) fun _ => ?_
  · exact .straight rfl hop rfl True.intro True.intro True.intro
  refine .ite (fun hop => .bind (.trivial _) fun v _ => .pure ?_) fun _ => ?_
  · refine .straight rfl (.inl ⟨hop, ?_⟩) rfl True.intro True.intro True.intro
    rw [Int8.toInt_toInt32]
    have low := v.le_toInt
    have high := v.toInt_lt
    omega
  refine .ite (fun hop => .bind (.trivial _) fun v _ => .pure ?_) fun _ => ?_
  · refine .straight rfl (.inr (.inl ⟨hop, ?_⟩)) rfl True.intro True.intro True.intro
    rw [Int16.toInt_toInt32]
    have low := v.le_toInt
    have high := v.toInt_lt
    omega
  refine .ite (fun hop => .bind (.trivial _) fun v _ => .pure ?_) fun _ => ?_
  · refine .straight rfl (.inr (.inr ⟨hop, ?_⟩)) rfl True.intro True.intro True.intro
    have small := v.toNat_lt
    rw [Int32.toInt_ofNat_of_lt (by omega)]
    omega
  refine .ite (fun _ => .bind (.trivial _) fun i _ => .bind (.lift fun v h => sane_loadable hs h)
    fun v hv => .pure hv) fun _ => ?_
  refine .ite (fun _ => .bind (.trivial _) fun i _ => .bind (.lift fun v h => sane_loadable hs h)
    fun v hv => .pure hv) fun _ => ?_
  refine .ite (fun hop => .bind (.trivial _) fun _ _ => .pure ?_) fun _ => ?_
  · exact .straight rfl hop rfl True.intro True.intro True.intro
  have short : ∀ {op : Opcode} (slot : UInt16), op.isVariable = true →
      Sane s limits (.var op slot) :=
    fun _ hop => .straight rfl hop rfl True.intro True.intro True.intro
  refine .ite (fun hop => .pure ?_) fun _ => .ite (fun hop => .pure ?_) fun _ => ?_
  · exact short _ (isVariable_short hop (by decide +kernel))
  · exact short _ (isVariable_short hop (by decide +kernel))
  refine .ite (fun _ => .bind (.trivial _) fun _ _ => .bind (.trivial _) fun _ _ => .pure ?_)
    fun _ => .ite (fun _ => yields_readWide) fun _ => ?_
  · exact .straight rfl True.intro rfl True.intro True.intro True.intro
  refine .ite (fun hop => .bind yields_branch16 fun t ht => .pure ?_) fun _ => ?_
  · refine .jump ?_ ht
    simpa [Opcode.isShortJump, or_assoc] using hop
  refine .ite (fun _ => .bind yields_branch32 fun t ht => .pure (.jump rfl ht)) fun _ => ?_
  refine .ite (fun _ => .bind yields_branch32 fun t ht => .pure (.jump rfl ht)) fun _ => ?_
  refine .ite (fun _ => yields_readTableSwitch) fun _ => .ite (fun _ => yields_readLookupSwitch)
    fun _ => ?_
  refine .ite (fun hop => yields_readField hs hop) fun _ =>
    .ite (fun hop => yields_readMethod hs hop) fun _ => ?_
  refine .ite (fun _ => yields_readCallSite hs) fun _ => ?_
  refine .ite (fun hop => .bind (.trivial _) fun i _ => ?_) fun _ => ?_
  · refine .bind (.lift fun name h => Pool.text_of_className hs.pool h) fun name hn => .pure ?_
    exact .straight rfl hop rfl hn True.intro True.intro
  refine .ite (fun _ => .bind (.trivial _) fun i _ => ?_) fun _ => .throw
  refine .bind (.lift fun name h => Pool.text_of_className hs.pool h) fun name hn => ?_
  exact .bind (.trivial _) fun _ _ => .pure (.straight rfl True.intro rfl hn True.intro True.intro)

/-- Instructions one behind the other inside the code array. -/
structure Ordered (s : Source) (limits : Limits) (decoded : List (Nat × Insn)) : Prop where
  ascending : decoded.Pairwise (·.1 < ·.1)
  inside : ∀ d ∈ decoded, d.1 < s.length
  sane : ∀ d ∈ decoded, Sane s limits d.2

theorem ordered_readAll (hs : s.WellFormed limits) {fuel : Nat} {done decoded : List (Nat × Insn)}
    {c c' : Cursor} (run : readAll s fuel done c = .ok (decoded, c'))
    (room : c.offset + c.rest.length = s.length) (known : Ordered s limits done.reverse)
    (behind : ∀ d ∈ done, d.1 < c.offset) : Ordered s limits decoded := by
  induction fuel generalizing done c with
  | zero =>
    cases run
    exact known
  | succ fuel ih =>
    obtain ⟨offset, rest⟩ := c
    cases rest with
    | nil =>
      cases run
      exact known
    | cons op rest =>
      obtain ⟨⟨insn, next⟩, first, run⟩ := bind_ok_iff.1
        (show (readOperands s offset op ⟨offset + 1, rest⟩ >>= fun p =>
          readAll s fuel ((offset, p.1) :: done) p.2) = .ok (decoded, c') from run)
      obtain ⟨le, same⟩ := advances_readOperands op _ _ _ first
      have sane : Sane s limits insn := yields_readOperands hs op _ _ _ first
      simp only [List.length_cons] at room le same
      dsimp only at run
      refine ih run (by omega) ⟨?_, ?_, ?_⟩ ?_
      · rw [List.reverse_cons, List.pairwise_append]
        refine ⟨known.ascending, List.pairwise_singleton .., fun d hd e he => ?_⟩
        rw [List.mem_singleton.1 he]
        exact behind d (List.mem_reverse.1 hd)
      · intro d hd
        rw [List.reverse_cons, List.mem_append, List.mem_singleton] at hd
        rcases hd with hd | rfl
        · exact known.inside d hd
        · show offset < s.length
          omega
      · intro d hd
        rw [List.reverse_cons, List.mem_append, List.mem_singleton] at hd
        rcases hd with hd | rfl
        · exact known.sane d hd
        · exact sane
      · intro d hd
        rcases List.mem_cons.1 hd with rfl | hd
        · exact le
        · have := behind d hd
          dsimp only at this
          omega

theorem ordered_decode {pool : Pool} {bootstraps : BootstrapTable} (hp : pool.WellFormed limits)
    (ht : bootstraps.WellFormed limits) {bytes : Bytes} {decoded : List (Nat × Insn)}
    (h : decode pool bootstraps bytes = .ok decoded) :
    Ordered ⟨pool, bootstraps, bytes.length⟩ limits decoded := by
  obtain ⟨⟨a, c⟩, run, same⟩ := bind_ok_iff.1 (show (readAll _ _ [] (Cursor.start bytes) >>=
    fun p => Except.ok p.1) = .ok decoded from h)
  cases same
  exact ordered_readAll ⟨hp, ht⟩ run (Nat.zero_add _) ⟨.nil, by simp, by simp⟩ (by simp)

end InsnDecode

end ClassWeave
