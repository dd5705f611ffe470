import ClassWeave.Proofs.Callbacks
import ClassWeave.Proofs.Places
import ClassWeave.Proofs.Slots

/-!
# The arguments of a callback behind a method

In front of a return, a callback is given what the slots of the receiver and of the parameters hold
by then. That is what they held when the method was entered exactly where no instruction of the
method has written them on the way: nothing saves them, and what is put in for the callback writes
only the slot that it keeps the result in, which lies behind them.
-/

set_option autoImplicit false

namespace ClassWeave

def Opcode.slots (op : Opcode) (slot : Nat) : List Nat :=
  if [lload, dload, lstore, dstore].contains op then [slot, slot + 1] else [slot]

namespace Insn

/-- The slots that an instruction writes. The opcode of a short store names its slot. -/
def written : Insn → List Nat
  | .var op slot =>
    if Opcode.between Opcode.istore Opcode.astore op then op.slots slot.toNat else []
  | .simple op =>
    if Opcode.between Opcode.istore0 Opcode.astore3 op then
      (Opcode.istore + (op - Opcode.istore0) / 4).slots ((op - Opcode.istore0) % 4).toNat
    else []
  | .iinc slot _ => [slot.toNat]
  | _ => []

def loaded : Insn → List Nat
  | .var op slot =>
    if Opcode.between Opcode.iload Opcode.aload op then op.slots slot.toNat else []
  | _ => []

def passes : Insn → Bool
  | .simple op => !op.neverPasses
  | .jump op _ => !List.contains [Opcode.goto, Opcode.gotoW, Opcode.jsr, Opcode.jsrW] op
  | .var op _ => op != Opcode.ret
  | .tableSwitch .. | .lookupSwitch .. => false
  | _ => true

end Insn

namespace Code

/-- Control may pass from one numbered instruction to another: to the next one, along a branch,
behind the call of a subroutine that ends, or to the handler of a range. -/
inductive Passes (c : Code) : Nat → Nat → Prop
  | next {n : Nat} {i : Insn} (found : c.executed[n]? = some i) (passes : i.passes = true) :
      Passes c n (n + 1)
  | jumped {n t : Nat} {i : Insn} {l : Label} (found : c.executed[n]? = some i)
      (mem : l ∈ i.targets) (bound : c.positions.find? l = some t) : Passes c n t
  | resumed {n m : Nat} {slot : UInt16} {op : Opcode} {l : Label}
      (found : c.executed[n]? = some (.var Opcode.ret slot))
      (call : c.executed[m]? = some (.jump op l))
      (subroutine : op = Opcode.jsr ∨ op = Opcode.jsrW) : Passes c n (m + 1)
  | thrown {n first last t : Nat} {h : Handler} (mem : h ∈ c.handlers)
      (start : c.positions.find? h.start = some first)
      (finish : c.positions.find? h.finish = some last) (inside : first ≤ n ∧ n < last)
      (target : c.positions.find? h.target = some t) : Passes c n t

/-- Control may come to an instruction behind the ones that are listed, in the order in which they
are executed. -/
inductive Comes (c : Code) : List Insn → Nat → Prop
  | start : Comes c [] 0
  | step {done : List Insn} {n next : Nat} {i : Insn} (before : Comes c done n)
      (found : c.executed[n]? = some i) (passes : c.Passes n next) : Comes c (done ++ [i]) next

end Code

/-- What the slots may hold behind some instructions; an instruction may put anything into the slots
that it writes. -/
inductive Leaves {V : Type} (entry : Nat → V) : List Insn → (Nat → V) → Prop
  | start : Leaves entry [] entry
  | step {done : List Insn} {i : Insn} {slots slots' : Nat → V} (before : Leaves entry done slots)
      (kept : ∀ s, s ∉ i.written → slots' s = slots s) : Leaves entry (done ++ [i]) slots'

/-- Whenever control comes to the instruction, the slot holds what it held at the start. -/
def Code.Holds (c : Code) (n s : Nat) : Prop :=
  ∀ (V : Type) (entry slots : Nat → V) (done : List Insn), c.Comes done n →
    Leaves entry done slots → slots s = entry s

section

variable {c : Code} {done : List Insn} {n s : Nat}

theorem Code.Comes.mem (comes : c.Comes done n) {i : Insn} (mem : i ∈ done) : i ∈ c.insns := by
  induction comes with
  | start => cases mem
  | step before found passes ih =>
    rcases List.mem_append.1 mem with mem | mem
    · exact ih mem
    · obtain rfl := List.mem_singleton.1 mem
      exact List.mem_of_mem_filter (List.mem_of_getElem? found)

theorem Leaves.eq_of_unwritten {V : Type} {entry slots : Nat → V} (leaves : Leaves entry done slots)
    (unwritten : ∀ i ∈ done, s ∉ i.written) : slots s = entry s := by
  induction leaves with
  | start => rfl
  | step before kept ih =>
    rw [List.forall_mem_append, List.forall_mem_singleton] at unwritten
    exact (kept s unwritten.2).trans (ih unwritten.1)

theorem leaves_marked (done : List Insn) :
    Leaves (fun _ => false) done fun s => done.any fun i => s ∈ i.written := by
  induction done using List.reverseRecOn with
  | nil => exact .start
  | append_singleton done i ih =>
    refine .step ih fun s unwritten => ?_
    simp [unwritten]

theorem Code.holds_iff :
    c.Holds n s ↔ ∀ done, c.Comes done n → ∀ i ∈ done, s ∉ i.written := by
  constructor
  · intro holds done comes i mem written
    have kept := holds Bool _ _ done comes (leaves_marked done)
    have marked : (done.any fun i => s ∈ i.written) = true :=
      List.any_eq_true.2 ⟨i, mem, by simpa using written⟩
    cases marked.symm.trans kept
  · intro unwritten V entry slots done comes leaves
    exact leaves.eq_of_unwritten (unwritten done comes)

end

theorem Insn.Handles.unwritten {temp : UInt16} {i : Insn} (handles : i.Handles temp) {s : Nat}
    (before : s < temp.toNat) : s ∉ i.written := by
  cases i with
  | var op slot =>
    obtain rfl : slot = temp := handles
    simp only [Insn.written, Opcode.slots]
    split
    · split <;> simp <;> omega
    · simp
  | simple op =>
    have nothing : (Insn.simple op).written = [] := by
      rcases handles with rfl | rfl <;> rfl
    simp [nothing]
  | typeOp op name => simp [Insn.written]
  | _ => cases handles

namespace Edit

open Synthesis Mixin

/-- The loads of the receiver and of the parameters that a callback takes. -/
def argumentLoads (cb : Callback) (hookedStatic : Bool) (hooked callback : MethodDescriptor) :
    List Insn :=
  receiver (cb.invoke == Opcode.invokestatic) ++
    loadParams (hooked.params.take (shared cb.placement hooked callback))
      (if hookedStatic then 0 else 1)

theorem written_loadOpcode (t : FieldType) (slot : UInt16) :
    (Insn.var t.loadOpcode slot).written = [] := by
  cases t <;> rfl

theorem loaded_loadOpcode (t : FieldType) (slot : UInt16) {s : Nat}
    (mem : s ∈ (Insn.var t.loadOpcode slot).loaded) : s < slot.toNat + t.size.toNat := by
  have loads : (Insn.var t.loadOpcode slot).loaded =
      if t.isWide then [slot.toNat, slot.toNat + 1] else [slot.toNat] := by
    cases t <;> rfl
  have size : t.size.toNat = if t.isWide then 2 else 1 := by
    cases t <;> rfl
  rw [loads] at mem
  rw [size]
  cases wide : t.isWide <;> simp [wide] at mem ⊢ <;> omega

theorem loaded_loadParams (params : List FieldType) (base : UInt16)
    (small : base.toNat + slotCount params < 65536) {load : Insn}
    (mem : load ∈ loadParams params base) :
    load.isExecuted = true ∧ load.written = [] ∧
      ∀ s ∈ load.loaded, s < base.toNat + slotCount params := by
  induction params generalizing base with
  | nil => cases mem
  | cons t rest ih =>
    rw [slotCount_cons] at small ⊢
    have sum : (base + t.size).toNat = base.toNat + t.size.toNat := by
      rw [UInt16.toNat_add]
      omega
    rcases List.mem_cons.1 mem with rfl | mem
    · refine ⟨rfl, written_loadOpcode t base, fun s loaded => ?_⟩
      have bound := loaded_loadOpcode t base loaded
      omega
    · obtain ⟨executed, written, loaded⟩ := ih (base + t.size) (by omega) mem
      refine ⟨executed, written, fun s mem => ?_⟩
      have bound := loaded s mem
      omega

variable {cb : Callback} {m : Method} {code : Code} {hooked callback : MethodDescriptor}
  {context : String} {splice : List Insn}

theorem argumentLoads_bounds (code : Code)
    (dispatched : (cb.invoke == Opcode.invokestatic) = false → m.isStatic = false)
    (small : (if m.isStatic then 0 else 1) + slotCount hooked.params < 65536) {load : Insn}
    (mem : load ∈ argumentLoads cb m.isStatic hooked callback) :
    load.isExecuted = true ∧ load.written = [] ∧
      ∀ s ∈ load.loaded, s < (spareSlotOf m code hooked).toNat := by
  have base : (if m.isStatic then (0 : UInt16) else 1).toNat = if m.isStatic then 0 else 1 :=
    toNat_firstSlot m.isStatic
  have spare : (if m.isStatic then 0 else 1) + slotCount hooked.params ≤
      (spareSlotOf m code hooked).toNat := params_le_spareSlot code small
  rcases List.mem_append.1 mem with mem | mem
  · unfold receiver at mem
    split at mem
    · cases mem
    · rename_i isDispatched
      obtain rfl := List.mem_singleton.1 mem
      have inside := dispatched (by simpa using isDispatched)
      refine ⟨rfl, rfl, fun s loaded => ?_⟩
      obtain rfl : s = 0 := List.mem_singleton.1 loaded
      rw [inside] at spare
      simp at spare
      omega
  · have taken := slotCount_take hooked.params (shared cb.placement hooked callback)
    obtain ⟨executed, written, loaded⟩ := loaded_loadParams _ _ (by rw [base]; omega) mem
    refine ⟨executed, written, fun s mem => ?_⟩
    have bound := loaded s mem
    rw [base] at bound
    omega

theorem unwritten_splice {save value rest : List Insn}
    (handles : ∀ i ∈ save ++ value ++ rest, i.Handles (spareSlotOf m code hooked))
    (dispatched : (cb.invoke == Opcode.invokestatic) = false → m.isStatic = false)
    (small : (if m.isStatic then 0 else 1) + slotCount hooked.params < 65536) {load : Insn}
    (mem : load ∈ argumentLoads cb m.isStatic hooked callback) {s : Nat}
    (loaded : s ∈ load.loaded) :
    ∀ i ∈ save ++ (argumentLoads cb m.isStatic hooked callback ++ value ++
      [.method cb.invoke cb.method false]) ++ rest, s ∉ i.written := by
  have before := (argumentLoads_bounds code dispatched small mem).2.2 s loaded
  simp only [List.forall_mem_append, List.forall_mem_singleton] at handles ⊢
  refine ⟨⟨fun i mem => (handles.1.1 i mem).unwritten before, ⟨fun i mem => ?_, fun i mem =>
    (handles.1.2 i mem).unwritten before⟩, by simp [Insn.written]⟩, fun i mem =>
    (handles.2 i mem).unwritten before⟩
  rw [(argumentLoads_bounds code dispatched small mem).2.1]
  exact List.not_mem_nil

/-- In front of every return of a method that got a callback behind it, each slot that an argument
of the callback is loaded from holds what it held on entry exactly where no store or `iinc` of the
method's own body that writes the slot can be executed before. -/
theorem argument_holds_iff {ctx : EditContext} {c c' : ClassFile} {now : Bool} {i : Nat}
    (run : ((Edit.injectCallback cb).apply ctx).run c = (.ok now, c'))
    (placed : cb.placement = .after) (goes : cb.GoesTo c i) (found : c.methods[i]? = some m)
    (body : m.code = some code) (absent : code.hasCallOf cb.method = false)
    (described : m.descriptor = .ok hooked)
    (parsed : MethodDescriptor.parse cb.method.desc = .ok callback)
    (fits : cb.Matches hooked callback)
    (small : (if m.isStatic then 0 else 1) + slotCount hooked.params < 65536) :
    ∃ code' splice save call, c'.methods[i]? = some { m with code := some code' } ∧
      code'.insns = code.insns.flatMap (Code.spliceReturn fun _ => splice) ∧
      splice = save ++ argumentLoads cb m.isStatic hooked callback ++ call ∧
      .method cb.invoke cb.method false ∈ call ∧
      ∀ front op back before load behind, code.insns = front ++ .simple op :: back →
        op.isReturn = true →
        argumentLoads cb m.isStatic hooked callback = before ++ load :: behind →
        ∃ n, n = executedIn (front.flatMap (Code.spliceReturn fun _ => splice) ++ save ++ before) ∧
          code'.executed[n]? = some load ∧
          ∀ s ∈ load.loaded, code'.Holds n s ↔
            ¬ ∃ done insn, code'.Comes done n ∧ insn ∈ done ∧ insn ∈ code.insns ∧
              s ∈ insn.written := by
  obtain ⟨callback', outcome, parsed', here, found'⟩ := spliceMethod_of_run run goes found
  obtain rfl := Except.ok.inj (parsed.symm.trans parsed')
  obtain ⟨code₀, body₀, known⟩ := spliceMethod_cases here
  obtain rfl := Option.some.inj (body.symm.trans body₀)
  cases outcome with
  | present => cases known.symm.trans absent
  | skipped =>
    obtain ⟨_, hooked', described', unmatched, _⟩ := known
    obtain rfl := Except.ok.inj (described.symm.trans described')
    exact absurd fits unmatched
  | spliced code' =>
    obtain ⟨_, hooked', splice, context, described', _, made, rfl⟩ := known
    obtain rfl := Except.ok.inj (described.symm.trans described')
    obtain ⟨_, dispatched, save, value, rest, handles, whole⟩ := callbackInsns_cases made
    have unwritten {load : Insn} (mem : load ∈ argumentLoads cb m.isStatic hooked callback)
        {s : Nat} (loaded : s ∈ load.loaded) : ∀ i ∈ splice, s ∉ i.written :=
      whole ▸ unwritten_splice handles dispatched small mem loaded
    have insns : (code.spliceAt cb.placement splice).insns =
        code.insns.flatMap (Code.spliceReturn fun _ => splice) :=
      placed ▸ Code.insns_spliceAt_after code splice
    have parts : splice = save ++ argumentLoads cb m.isStatic hooked callback ++
        (value ++ [.method cb.invoke cb.method false] ++ rest) := by
      rw [whole]
      simp [argumentLoads]
    refine ⟨_, splice, save, _, found'.trans (congrArg some (splicedInto_eq here)), insns, parts,
      by simp, fun front op back before load behind old isReturn loads => ?_⟩
    have mem : load ∈ argumentLoads cb m.isStatic hooked callback := loads ▸ by simp
    have new : (code.spliceAt cb.placement splice).insns =
        (front.flatMap (Code.spliceReturn fun _ => splice) ++ save ++ before) ++ load :: (behind ++
          (value ++ [.method cb.invoke cb.method false] ++ rest) ++ .simple op ::
          back.flatMap (Code.spliceReturn fun _ => splice)) := by
      have here : Code.spliceReturn (fun _ => splice) (.simple op) = splice ++ [.simple op] :=
        if_pos isReturn
      rw [insns, old, List.flatMap_append, List.flatMap_cons, here]
      nth_rewrite 2 [parts]
      rw [loads]
      simp
    refine ⟨_, rfl, Code.executed_at new (argumentLoads_bounds code dispatched small
      mem).1, fun s loaded => Code.holds_iff.trans ⟨?_, ?_⟩⟩
    · rintro unwrittenBefore ⟨done, insn, comes, listed, _, writes⟩
      exact unwrittenBefore done comes insn listed writes
    · intro unreached done comes insn listed writes
      -- what writes the slot is no part of the splice
      rcases Code.mem_spliceAt.1 (comes.mem listed) with own | ⟨inside, _⟩
      · exact unreached ⟨done, insn, comes, listed, own, writes⟩
      · exact unwritten mem loaded insn inside writes

def takingMethod (insns : List Insn) : Method :=
  ⟨⟨0x9⟩, "m", "(I)V", some (Code.ofInsns (insns ++ [.simple Opcode.returnVoid])), []⟩

def takingClass (insns : List Insn) : ClassFile :=
  { ClassFile.new "a" (some "java/lang/Object") with methods := [takingMethod insns] }

/-- A callback that is given the int when the method returns. -/
def seenCallback : Callback :=
  ⟨.method "m" "(I)V", .after, false, ⟨"a", "seen", "(I)V"⟩, Opcode.invokestatic⟩

theorem goesTo_takingClass (insns : List Insn) : seenCallback.GoesTo (takingClass insns) 0 := by
  change (takingClass insns).methods.findIdx? _ = some 0
  simp [takingClass, takingMethod, Method.hasSignature]

theorem parse_seen : MethodDescriptor.parse "(I)V" = .ok ⟨[.int], none⟩ := by decide +kernel

theorem argument_holds_takingClass : ∃ c' code' n,
    ((Edit.injectCallback seenCallback).apply noContext).run (takingClass [.simple Opcode.nop]) =
      (.ok true, c') ∧
    c'.methods[0]?.bind Method.code = some code' ∧
    code'.executed[n]? = some (.var Opcode.iload 0) ∧ code'.Holds n 0 := by
  have run : ((Edit.injectCallback seenCallback).apply noContext).run
      (takingClass [.simple Opcode.nop]) = (.ok true, (((Edit.injectCallback
        seenCallback).apply noContext).run (takingClass [.simple Opcode.nop])).2) :=
    Prod.ext (by decide +kernel) rfl
  obtain ⟨code', _, _, _, found, _, _, _, held⟩ :=
    argument_holds_iff (m := takingMethod [.simple Opcode.nop]) run rfl (goesTo_takingClass _) rfl
      rfl (by decide +kernel) parse_seen parse_seen (by decide +kernel) (by decide +kernel)
  obtain ⟨n, _, load, holds⟩ := held [.simple Opcode.nop] Opcode.returnVoid [] [] _ [] rfl
    (by decide) rfl
  refine ⟨_, code', n, run, by rw [found]; rfl, load, (holds 0 (by decide)).2 ?_⟩
  rintro ⟨_, insn, _, _, own, writes⟩
  have plain : ∀ insn ∈ (Code.ofInsns [.simple Opcode.nop, .simple Opcode.returnVoid]).insns,
      insn.written = [] := by decide
  rw [plain insn own] at writes
  cases writes

def zeroing : List Insn := [.simple Opcode.iconst0, .var Opcode.istore 0]

def seenSplice : List Insn :=
  [.var Opcode.iload 0, .method Opcode.invokestatic ⟨"a", "seen", "(I)V"⟩ false]

/-- A method that writes the slot of its parameter hands on what it has written. -/
theorem argument_lost_takingClass :
    ¬ ∀ (ctx : EditContext) (cb : Callback) (c c' : ClassFile) (i : Nat) (m : Method)
      (code code' : Code) (hooked callback : MethodDescriptor) (splice save call : List Insn),
      ((Edit.injectCallback cb).apply ctx).run c = (.ok true, c') → cb.placement = .after →
      cb.GoesTo c i → c.methods[i]? = some m → m.code = some code →
      m.descriptor = .ok hooked → MethodDescriptor.parse cb.method.desc = .ok callback →
      c'.methods[i]? = some { m with code := some code' } →
      code'.insns = code.insns.flatMap (Code.spliceReturn fun _ => splice) →
      splice = save ++ argumentLoads cb m.isStatic hooked callback ++ call →
      ∀ front op back before load behind, code.insns = front ++ .simple op :: back →
        op.isReturn = true →
        argumentLoads cb m.isStatic hooked callback = before ++ load :: behind →
        ∀ s ∈ load.loaded, code'.Holds (executedIn (front.flatMap (Code.spliceReturn fun _ =>
          splice) ++ save ++ before)) s := by
  intro always
  have run : ((Edit.injectCallback seenCallback).apply noContext).run (takingClass zeroing) =
      (.ok true, takingClass (zeroing ++ seenSplice)) :=
    Prod.ext (by decide +kernel) (by decide +kernel)
  have holds := always _ _ _ _ 0 (takingMethod zeroing) _ _ _ _ seenSplice [] [seenSplice[1]] run
    rfl (goesTo_takingClass _) rfl rfl parse_seen parse_seen rfl (by decide) (by decide) zeroing
    Opcode.returnVoid [] [] _ [] rfl (by decide) rfl 0 (by decide)
  have comes : (Code.ofInsns (zeroing ++ seenSplice ++ [.simple Opcode.returnVoid])).Comes zeroing
      2 := by
    have pushed : Insn.passes (.simple Opcode.iconst0) = true := by decide
    have stored : Insn.passes (.var Opcode.istore 0) = true := by decide
    exact (Code.Comes.start.step rfl (.next rfl pushed)).step rfl (.next rfl stored)
  exact Code.holds_iff.1 holds zeroing comes (.var Opcode.istore 0) (by decide) (by decide)

end Edit

end ClassWeave
