import Mathlib.Order.Bounds.Basic
import ClassWeave.Proofs.Analysis.Reframe
import ClassWeave.Proofs.Analysis.Straight
import ClassWeave.Proofs.Slots

/-!
# Slots counted in 16 bits

Slots of parameters, spare slots and the maxima of a body are numbers of 16 bits, and nothing checks
that they fit. Each of them is the number that it stands for exactly if that number is below 65536;
a larger one is cut without a word.
-/

set_option autoImplicit false

namespace ClassWeave

/-- The stored number is the one meant, unless that does not fit. -/
def Exact (stored : UInt16) (meant : Nat) : Prop := stored.toNat = meant ↔ meant < 65536

theorem exact_of_fits {stored : UInt16} {meant : Nat}
    (fits : meant < 65536 → stored.toNat = meant) : Exact stored meant :=
  ⟨fun same => same ▸ stored.toNat_lt, fits⟩

theorem exact_ofNat (meant : Nat) : Exact (UInt16.ofNat meant) meant :=
  exact_of_fits UInt16.toNat_ofNat_of_lt'

theorem toNat_max_slot (a b : UInt16) : (max a b).toNat = max a.toNat b.toNat := by
  show (if a ≤ b then b else a).toNat = _
  by_cases le : a ≤ b
  · rw [if_pos le, Nat.max_eq_right (UInt16.le_iff_toNat_le.1 le)]
  · have le' : b.toNat ≤ a.toNat := by
      rw [UInt16.le_iff_toNat_le] at le
      omega
    rw [if_neg le, Nat.max_eq_left le']

namespace Code

/-- The slots of a body: one more than the highest one that the parameters or its instructions
use. -/
def slotsUsed (c : Code) (params : Nat) : Nat :=
  c.insns.foldl (fun most insn => max most insn.room) params

/-- The slots of a body and of its local variables, as far as their first slots tell. -/
def slotsTaken (c : Code) (params : Nat) : Nat :=
  c.locals.foldl (fun most v => max most (v.slot.toNat + 1))
    (c.slotsUsed (max params c.maxLocals.toNat))

end Code

namespace Edit

open Synthesis

theorem exact_paramSlots (d : MethodDescriptor) : Exact d.paramSlots (slotCount d.params) :=
  exact_of_fits toNat_paramSlots

theorem exact_loadParams (params : List FieldType) (base : UInt16) {k : Nat} {t : FieldType}
    (found : params[k]? = some t) : ∃ slot,
      (loadParams params base)[k]? = some (.var t.loadOpcode slot) ∧
        Exact slot (base.toNat + slotCount (params.take k)) := by
  induction params generalizing base k with
  | nil => cases found
  | cons first rest ih =>
    cases k with
    | zero =>
      cases found
      exact ⟨base, rfl, exact_of_fits fun _ => rfl⟩
    | succ k =>
      obtain ⟨slot, load, exact⟩ := ih (base + first.size) found
      refine ⟨slot, load, exact_of_fits fun fits => ?_⟩
      rw [List.take_succ_cons] at fits ⊢
      have next := toNat_add_size fits
      rw [slotCount_cons] at fits ⊢
      rw [exact.2 (by omega), next]
      omega

theorem toNat_foldl_max {α : Type} {next : α → Option UInt16} {width : α → Nat} {l : List α}
    (same : ∀ a ∈ l, ((next a).map UInt16.toNat).getD 0 = width a) (most : UInt16) :
    ((l.filterMap next).foldl max most).toNat =
      l.foldl (fun most a => max most (width a)) most.toNat := by
  induction l generalizing most with
  | nil => rfl
  | cons a rest ih =>
    obtain ⟨first, same⟩ := List.forall_mem_cons.1 same
    cases here : next a with
    | none =>
      rw [here] at first
      rw [List.filterMap_cons_none here, List.foldl_cons, ← first, ih same]
      simp
    | some slot =>
      rw [here] at first
      rw [List.filterMap_cons_some here, List.foldl_cons, List.foldl_cons, ← first, ih same,
        toNat_max_slot]
      rfl

theorem toNat_slotAfter_getD {insn : Insn} (fits : insn.room < 65536) :
    ((slotAfter insn).map UInt16.toNat).getD 0 = insn.room := by
  cases after : slotAfter insn with
  | none => cases insn <;> first | rfl | cases after
  | some behind => exact toNat_slotAfter after fits

theorem exact_spareSlot (c : Code) (params : UInt16) :
    Exact (spareSlot c params) (c.slotsTaken params.toNat) := by
  refine exact_of_fits fun fits => ?_
  obtain ⟨used, locals⟩ := le_foldl_max (fun v : LocalVariable => v.slot.toNat + 1) c.locals
    (c.slotsUsed (max params.toNat c.maxLocals.toNat))
  have rooms := (le_foldl_max Insn.room c.insns (max params.toNat c.maxLocals.toNat)).2
  have behind (v : LocalVariable) (mem : v ∈ c.locals) : (v.slot + 1).toNat = v.slot.toNat + 1 := by
    have bound := locals v mem
    rw [UInt16.toNat_add]
    exact Nat.mod_eq_of_lt (Nat.lt_of_le_of_lt bound fits)
  have insns (insn : Insn) (mem : insn ∈ c.insns) : insn.room < 65536 :=
    Nat.lt_of_le_of_lt (Nat.le_trans (rooms insn mem) used) fits
  have named (most : UInt16) :
      ((c.locals.filterMap (some ∘ fun v => v.slot + 1)).foldl max most).toNat =
        c.locals.foldl (fun most v => max most (v.slot.toNat + 1)) most.toNat :=
    toNat_foldl_max behind most
  rw [spareSlot, List.foldl_append, ← List.filterMap_eq_map, named,
    toNat_foldl_max fun insn mem => toNat_slotAfter_getD (insns insn mem), toNat_max_slot]
  rfl

end Edit

namespace Analysis

variable {a : Analysis} {entry : State} {states : States} {work : List Nat} {maxStack fuel : Nat}
  {done : Progress}

/-- Heights of the operand stack in front of the instructions and behind them, as far as control
comes to them. Where frames are made, the code that it does not come to has an exception on the
stack. -/
inductive Height (a : Analysis) (entry : State) (withFrames : Bool) : Nat → Prop where
  | before {i : Nat} {before : State} {insn : Insn} (serves : a.Serves entry i before insn) :
      Height a entry withFrames (stackSlots before.stack)
  | after {i : Nat} {before after : State} {insn : Insn} (serves : a.Serves entry i before insn)
      (run : a.method.execute i a.sites[i]? insn before = .ok after) :
      Height a entry withFrames (stackSlots after.stack)
  | buried {i : Nat} (framed : withFrames = true) (inside : i < a.flow.size)
      (dead : ¬ a.flow.Reachable i) : Height a entry withFrames 1

theorem serve_maxStack {i : Nat} {before : State} {insn : Insn} {p : Progress}
    (run : a.serve i before insn states work maxStack = .ok p) :
    ∃ after, a.method.execute i a.sites[i]? insn before = .ok after ∧
      p.maxStack = max (max maxStack (stackSlots before.stack)) (stackSlots after.stack) := by
  obtain ⟨_, _, run⟩ := bind_ok_iff.1 run
  obtain ⟨after, executed, run⟩ := bind_ok_iff.1 run
  obtain ⟨_, _, run⟩ := bind_ok_iff.1 run
  obtain ⟨_, _, run⟩ := bind_ok_iff.1 run
  cases run
  exact ⟨after, executed, rfl⟩

theorem maxStack_le_of_settle (run : a.settle fuel states work maxStack = .ok done) :
    maxStack ≤ done.maxStack := by
  induction fuel generalizing states work maxStack with
  | zero =>
    cases work with
    | nil =>
      cases run
      exact Nat.le_refl _
    | cons i work => cases run
  | succ fuel ih =>
    cases work with
    | nil =>
      cases run
      exact Nat.le_refl _
    | cons i work =>
      rcases settle_cons run with ⟨before, insn, p, _, _, served, run⟩ | ⟨_, run⟩
      · obtain ⟨after, _, height⟩ := serve_maxStack served
        have later := ih run
        omega
      · exact ih run

theorem settle_served {i : Nat} {before : State} {insn : Insn}
    (known : stateAt states i = some before) (found : a.flow.insns[i]? = some insn)
    (run : a.settle fuel states (i :: work) maxStack = .ok done) :
    ∃ fuel p, a.serve i before insn states work maxStack = .ok p ∧
      a.settle fuel p.states p.work p.maxStack = .ok done := by
  cases fuel with
  | zero => cases run
  | succ fuel =>
    rcases settle_cons run with ⟨_, _, p, known', found', served, run⟩ | ⟨unknown | missing, _⟩
    · cases known.symm.trans known'
      cases found.symm.trans found'
      exact ⟨fuel, p, served, run⟩
    · cases known.symm.trans unknown
    · cases found.symm.trans missing

theorem settle_of_visits {maxLocals : Nat} (run : a.run entry maxLocals = .ok done)
    (visit : a.Visits entry states work maxStack) :
    ∃ fuel, a.settle fuel states work maxStack = .ok done := by
  induction visit with
  | start => exact ⟨_, run⟩
  | served _ known found served ih =>
    obtain ⟨fuel, run⟩ := ih
    obtain ⟨fuel, p, served', run⟩ := settle_served known found run
    cases served.symm.trans served'
    exact ⟨fuel, run⟩
  | skipped _ nothing ih =>
    obtain ⟨fuel, run⟩ := ih
    cases fuel with
    | zero => cases run
    | succ fuel =>
      rcases settle_cons run with ⟨_, _, _, known, found, _⟩ | ⟨_, run⟩
      · rcases nothing with unknown | missing
        · cases known.symm.trans unknown
        · cases found.symm.trans missing
      · exact ⟨fuel, run⟩

theorem heights_of_serves {maxLocals i : Nat} {before : State} {insn : Insn}
    (run : a.run entry maxLocals = .ok done) (serves : a.Serves entry i before insn) :
    ∃ after, a.method.execute i a.sites[i]? insn before = .ok after ∧
      stackSlots before.stack ≤ done.maxStack ∧ stackSlots after.stack ≤ done.maxStack := by
  obtain ⟨states, work, maxStack, visit, known, found⟩ := serves
  obtain ⟨fuel, run⟩ := settle_of_visits run visit
  obtain ⟨fuel, p, served, run⟩ := settle_served known found run
  obtain ⟨after, executed, height⟩ := serve_maxStack served
  have later := maxStack_le_of_settle run
  exact ⟨after, executed, by omega, by omega⟩

theorem height_of_settle {withFrames : Bool} (visit : a.Visits entry states work maxStack)
    (run : a.settle fuel states work maxStack = .ok done) :
    done.maxStack = maxStack ∨ a.Height entry withFrames done.maxStack := by
  induction fuel generalizing states work maxStack with
  | zero =>
    cases work with
    | nil =>
      cases run
      exact .inl rfl
    | cons i work => cases run
  | succ fuel ih =>
    cases work with
    | nil =>
      cases run
      exact .inl rfl
    | cons i work =>
      rcases settle_cons run with ⟨before, insn, p, known, found, served, run⟩ | ⟨nothing, run⟩
      · have serves : a.Serves entry i before insn := ⟨_, _, _, visit, known, found⟩
        obtain ⟨after, executed, height⟩ := serve_maxStack served
        rcases ih (.served visit known found served) run with same | height'
        · rw [same, height]
          rcases Nat.le_total (max maxStack (stackSlots before.stack)) (stackSlots after.stack) with
            low | low
          · rw [Nat.max_eq_right low]
            exact .inr (.after serves executed)
          · rw [Nat.max_eq_left low]
            rcases Nat.le_total maxStack (stackSlots before.stack) with low | low
            · rw [Nat.max_eq_right low]
              exact .inr (.before serves)
            · exact .inl (Nat.max_eq_left low)
        · exact .inr height'
      · exact ih (.skipped visit nothing) run

theorem height_of_run {withFrames : Bool} {maxLocals : Nat} (inside : a.flow.Inside)
    (run : a.run entry maxLocals = .ok done) : a.Height entry withFrames done.maxStack := by
  rcases height_of_settle .start run with zero | height
  · -- the first instruction has been served, so the stack is empty in front of it
    have blank : 0 < (Array.replicate a.flow.size none : States).size := by
      rw [Array.size_replicate]
      exact inside.nonempty
    obtain ⟨insn, found⟩ : ∃ insn, a.flow.insns[0]? = some insn :=
      ⟨_, Array.getElem?_eq_getElem inside.nonempty⟩
    have serves : a.Serves entry 0 entry insn :=
      ⟨_, _, _, .start, by rw [stateAt_set blank, if_pos rfl], found⟩
    obtain ⟨_, _, low, _⟩ := heights_of_serves run serves
    have flat : stackSlots entry.stack = done.maxStack := by omega
    exact flat ▸ .before serves
  · exact height

theorem any_isNone_iff {maxLocals : Nat} (inside : a.flow.Inside)
    (run : a.run entry maxLocals = .ok done) :
    done.states.any Option.isNone = true ↔ ∃ i < a.flow.size, ¬ a.flow.Reachable i := by
  have size := (Intake.invariant_run inside (closed_presence a entry) run).size
  have reachable := state_iff_reachable inside run
  rw [Array.any_eq_true]
  constructor
  · rintro ⟨i, low, nothing⟩
    refine ⟨i, size ▸ low, fun path => ?_⟩
    obtain ⟨s, known⟩ := (reachable i).2 path
    rw [stateAt, Array.getElem?_eq_getElem low, Option.getD_some] at known
    rw [known] at nothing
    cases nothing
  · rintro ⟨i, low, dead⟩
    rw [← size] at low
    refine ⟨i, low, ?_⟩
    rw [Option.isNone_iff_eq_none, Option.eq_none_iff_forall_ne_some]
    intro s known
    refine dead ((reachable i).1 ⟨s, ?_⟩)
    rw [stateAt, Array.getElem?_eq_getElem low, Option.getD_some, known]

theorem isGreatest_height (withFrames : Bool) {maxLocals : Nat} (inside : a.flow.Inside)
    (run : a.run entry maxLocals = .ok done) :
    IsGreatest {n | a.Height entry withFrames n}
      (if withFrames && done.states.any Option.isNone then max done.maxStack 1
        else done.maxStack) := by
  have attained : a.Height entry withFrames done.maxStack := height_of_run inside run
  have dead := any_isNone_iff inside run
  constructor
  · split
    · rename_i framed
      rw [Bool.and_eq_true, dead] at framed
      obtain ⟨framed, i, low, unreachable⟩ := framed
      rcases Nat.le_total done.maxStack 1 with le | le
      · rw [Nat.max_eq_right le]
        exact .buried framed low unreachable
      · rw [Nat.max_eq_left le]
        exact attained
    · exact attained
  · rintro n height
    have seen : n ≤ done.maxStack ∨
        (n = 1 ∧ (withFrames && done.states.any Option.isNone) = true) := by
      cases height with
      | before serves =>
        obtain ⟨_, _, low, _⟩ := heights_of_serves run serves
        exact .inl low
      | after serves executed =>
        obtain ⟨_, executed', _, low⟩ := heights_of_serves run serves
        cases executed.symm.trans executed'
        exact .inl low
      | buried framed low unreachable =>
        exact .inr ⟨rfl, by rw [framed, dead.2 ⟨_, low, unreachable⟩]; rfl⟩
    split
    · omega
    · rename_i unframed
      exact seen.resolve_right fun buried => unframed buried.2

end Analysis

namespace Reframe

variable {h : Hierarchy} {owner : String} {m : Method} {c : Code} {p : Prepared}

theorem maxLocals_of_prepare {d : MethodDescriptor} (described : m.descriptor = .ok d)
    (made : prepare h owner m c = .ok p) :
    p.maxLocals = c.slotsUsed (d.paramSlots.toNat + Edit.firstSlot m.isStatic) := by
  obtain ⟨d', parsed, made⟩ := bind_ok_iff.1 made
  obtain ⟨flow, _, made⟩ := bind_ok_iff.1 made
  obtain ⟨targets, _, made⟩ := bind_ok_iff.1 made
  cases made
  rw [described] at parsed
  cases parsed
  exact localsNeeded_eq c _

theorem exact_maxLocals {d : MethodDescriptor} (described : m.descriptor = .ok d)
    (made : prepare h owner m c = .ok p) :
    Exact (UInt16.ofNat p.maxLocals)
      (c.slotsUsed (Edit.slotCount d.params + Edit.firstSlot m.isStatic)) := by
  refine exact_of_fits fun fits => ?_
  have params := (le_foldl_max Insn.room c.insns
    (Edit.slotCount d.params + Edit.firstSlot m.isStatic)).1
  have small : Edit.slotCount d.params < 65536 := by
    rw [Code.slotsUsed] at fits
    omega
  rw [maxLocals_of_prepare described made, Edit.toNat_paramSlots small]
  exact UInt16.toNat_ofNat_of_lt' fits

end Reframe

/-- The slots of the parameters, those that they are loaded from, the spare slot and the maxima of
a recomputed body are the numbers meant, each exactly if that is below 65536. -/
theorem exact_counts (d : MethodDescriptor) (c : Code) (base params : UInt16) :
    Exact d.paramSlots (Edit.slotCount d.params) ∧
    (∀ (k : Nat) (t : FieldType), d.params[k]? = some t →
      ∃ slot, (Synthesis.loadParams d.params base)[k]? = some (.var t.loadOpcode slot) ∧
        Exact slot (base.toNat + Edit.slotCount (d.params.take k))) ∧
    Exact (Synthesis.spareSlot c params) (c.slotsTaken params.toNat) ∧
    ∀ (h : Hierarchy) (owner : String) (m : Method) (c' : Code) (withFrames : Bool),
      m.descriptor = .ok d → reframe h owner m c withFrames = .ok c' →
      Exact c'.maxLocals (c.slotsUsed (Edit.slotCount d.params + Edit.firstSlot m.isStatic)) ∧
      ∃ p height, Reframe.prepare h owner m c = .ok p ∧
        IsGreatest {n | p.analysis.Height p.entry withFrames n} height ∧
        Exact c'.maxStack height := by
  refine ⟨Edit.exact_paramSlots d, fun k t found => Edit.exact_loadParams d.params base found,
    Edit.exact_spareSlot c params, fun h owner m c' withFrames described run => ?_⟩
  obtain ⟨p, made, run⟩ := bind_ok_iff.1 run
  obtain ⟨done, settled, run⟩ := bind_ok_iff.1 run
  have locals := Reframe.exact_maxLocals described made
  have height := Analysis.isGreatest_height withFrames (Reframe.inside_of_prepare made) settled
  cases run
  cases withFrames with
  | false => exact ⟨locals, p, _, made, height, exact_ofNat _⟩
  | true => exact ⟨locals, p, _, made, height, exact_ofNat _⟩

/-- A static method without parameters that stores zero in a slot. -/
def storingMethod : Method := ⟨⟨9⟩, "m", "()V", none, []⟩

def storingCode (slot : UInt16) : Code :=
  Code.ofInsns [.simple Opcode.iconst0, .var Opcode.istore slot, .simple Opcode.returnVoid]

theorem descriptor_storingMethod : storingMethod.descriptor = .ok ⟨[], none⟩ := by decide +kernel

theorem exact_counts_storingCode :
    (∃ slot, (Synthesis.loadParams [.long, .int] 65533)[1]? = some (.var Opcode.iload slot) ∧
      slot.toNat = 65535) ∧
    ∃ c' p height, reframe Hierarchy.empty "A" storingMethod (storingCode 2) true = .ok c' ∧
      c'.maxLocals.toNat = 3 ∧
      Reframe.prepare Hierarchy.empty "A" storingMethod (storingCode 2) = .ok p ∧
      IsGreatest {n | p.analysis.Height p.entry true n} height ∧ Exact c'.maxStack height := by
  constructor
  · obtain ⟨_, loads, _⟩ := exact_counts ⟨[.long, .int], none⟩ (storingCode 2) 65533 0
    obtain ⟨slot, load, exact⟩ := loads 1 .int rfl
    exact ⟨slot, load, exact.2 (by decide)⟩
  · have computed : ((reframe Hierarchy.empty "A" storingMethod (storingCode 2) true).toOption.any
        fun c' => c'.maxStack = 1) = true := by
      decide +kernel
    obtain ⟨c', run, _⟩ := exists_ok_of_any computed
    obtain ⟨_, _, _, bodies⟩ := exact_counts ⟨[], none⟩ (storingCode 2) 0 0
    obtain ⟨locals, p, height, made, greatest, exact⟩ :=
      bodies _ _ _ _ _ descriptor_storingMethod run
    exact ⟨c', p, height, run, locals.2 (by decide), made, greatest, exact⟩

theorem straight_storingCode (slot : UInt16) : Straight
    [.simple Opcode.iconst0, .var Opcode.istore slot, .simple Opcode.returnVoid]
    [.simple Opcode.iconst0, .var Opcode.istore slot] Opcode.returnVoid where
  whole := rfl
  plain := by
    have passes : Opcode.iconst0.neverPasses = false := by decide
    simp [Insn.isPlain, passes]
  returns := by decide

theorem exists_reframe_storingCode (slot : UInt16) :
    ∃ c', reframe Hierarchy.empty "A" storingMethod (storingCode slot) false = .ok c' := by
  have runs (site : MethodSite) (s : State) : site.Runs (fun _ _ => True)
      [.simple Opcode.iconst0, .var Opcode.istore slot] s (s.store slot.toNat .int) :=
    .cons trivial (fun _ _ => rfl) (.cons trivial (fun _ _ => rfl) (.nil _))
  obtain ⟨_, _, code, _, _, run, _⟩ := (straight_storingCode slot).exists_settled
    descriptor_storingMethod
    (fun site _ => ⟨_, runs site _, trivial, _, fun _ _ => rfl⟩) Hierarchy.empty false
  exact ⟨code, run⟩

/-- A body that uses the last slot is said to use none. -/
theorem cut_storingCode :
    ¬ ∀ (h : Hierarchy) (owner : String) (m : Method) (c c' : Code) (withFrames : Bool)
      (d : MethodDescriptor), m.descriptor = .ok d → reframe h owner m c withFrames = .ok c' →
      c'.maxLocals.toNat = c.slotsUsed (Edit.slotCount d.params + Edit.firstSlot m.isStatic) := by
  intro always
  obtain ⟨c', run⟩ := exists_reframe_storingCode 65535
  have locals := always _ _ _ _ _ _ _ descriptor_storingMethod run
  have used : (storingCode 65535).slotsUsed (Edit.slotCount [] + Edit.firstSlot
    storingMethod.isStatic) = 65536 := by decide
  rw [used] at locals
  have small := c'.maxLocals.toNat_lt
  omega

end ClassWeave
