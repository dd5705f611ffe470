import Mathlib.Algebra.Order.BigOperators.Group.List
import ClassWeave.Proofs.Analysis.Heights
import ClassWeave.Proofs.Analysis.Reframe
import ClassWeave.Proofs.Analysis.Sizes
import ClassWeave.Proofs.Subtyping

/-!
# The work list comes to an end

An instruction joins the work list only when its state changes, and each change makes the types in
front of it climb. A stack is at most twice as high as there are instructions with a state, so all
states together have so many slots, and each slot climbs only so often. This bounds the steps of
the work list, whatever circles the control flow and the hierarchy run in.
-/

set_option autoImplicit false

namespace ClassWeave

/-! Sums over the states -/

def total (f : Option State → Nat) (states : States) : Nat := (states.toList.map f).sum

theorem sum_map_set {α : Type} (f : α → Nat) {l : List α} {i : Nat} {old : α}
    (here : l[i]? = some old) (new : α) :
    ((l.set i new).map f).sum + f old = (l.map f).sum + f new := by
  induction l generalizing i with
  | nil => cases here
  | cons first rest ih =>
    cases i with
    | zero =>
      cases here
      simp only [List.set_cons_zero, List.map_cons, List.sum_cons]
      omega
    | succ i =>
      have tail := ih here
      simp only [List.set_cons_succ, List.map_cons, List.sum_cons]
      omega

theorem total_set (f : Option State → Nat) {states : States} {i : Nat} (inside : i < states.size)
    (new : Option State) :
    total f (states.setIfInBounds i new) + f (stateAt states i) = total f states + f new := by
  have here : states.toList[i]? = some (stateAt states i) := by
    rw [stateAt, Array.getElem?_toList, Array.getElem?_eq_getElem inside, Option.getD_some]
  rw [total, Array.toList_setIfInBounds]
  exact sum_map_set f here new

def present (states : States) : Nat := total (fun s => s.isSome.toNat) states

theorem present_le (states : States) : present states ≤ states.size := by
  have each : ∀ n ∈ states.toList.map fun s => s.isSome.toNat, n ≤ 1 := by
    intro n listed
    obtain ⟨s, _, rfl⟩ := List.mem_map.1 listed
    exact Bool.toNat_le _
  have bound := List.sum_le_card_nsmul _ _ each
  rwa [List.length_map, Array.length_toList, Nat.nsmul_eq_mul, Nat.mul_one] at bound

/-- The types are named like types, and there are no more locals and values than given. -/
structure State.Fits (h : Hierarchy) (most width height : Nat) (s : State) : Prop where
  proper : s.Each (VType.Proper h most)
  locals : s.locals.length ≤ width
  stack : s.stack.length ≤ height

theorem State.Fits.higher {h : Hierarchy} {most width height height' : Nat} {s : State}
    (fits : s.Fits h most width height) (higher : height ≤ height') :
    s.Fits h most width height' :=
  ⟨fits.proper, fits.locals, Nat.le_trans fits.stack higher⟩

namespace Analysis

/-- The work list ends in so many steps: it becomes empty, or serving an instruction fails. -/
inductive Ends (a : Analysis) :
    Nat → States → List Nat → Nat → Except WriteError Progress → Prop where
  | emptied (states : States) (maxStack : Nat) :
      Ends a 0 states [] maxStack (.ok ⟨states, [], maxStack⟩)
  | failed {states : States} {work : List Nat} {maxStack i : Nat} {before : State} {insn : Insn}
      {e : WriteError} (known : stateAt states i = some before)
      (found : a.flow.insns[i]? = some insn)
      (run : a.serve i before insn states work maxStack = .error e) :
      Ends a 1 states (i :: work) maxStack (.error e)
  | served {states : States} {work : List Nat} {maxStack i steps : Nat} {before : State}
      {insn : Insn} {p : Progress} {outcome : Except WriteError Progress}
      (known : stateAt states i = some before) (found : a.flow.insns[i]? = some insn)
      (run : a.serve i before insn states work maxStack = .ok p)
      (rest : Ends a steps p.states p.work p.maxStack outcome) :
      Ends a (steps + 1) states (i :: work) maxStack outcome
  | skipped {states : States} {work : List Nat} {maxStack i steps : Nat}
      {outcome : Except WriteError Progress}
      (nothing : stateAt states i = none ∨ a.flow.insns[i]? = none)
      (rest : Ends a steps states work maxStack outcome) :
      Ends a (steps + 1) states (i :: work) maxStack outcome

variable {a : Analysis} {steps fuel : Nat} {states states' states'' : States}
  {work work' work'' : List Nat} {maxStack : Nat} {outcome : Except WriteError Progress}

theorem settle_of_ends (ends : a.Ends steps states work maxStack outcome) (enough : steps ≤ fuel) :
    a.settle fuel states work maxStack = outcome := by
  induction ends generalizing fuel with
  | emptied states maxStack => cases fuel <;> rfl
  | failed known found run =>
    cases fuel with
    | zero => cases enough
    | succ fuel =>
      rw [settle, ← stateAt, known, found]
      dsimp only
      rw [run]
  | served known found run _ ih =>
    cases fuel with
    | zero => cases enough
    | succ fuel =>
      rw [settle, ← stateAt, known, found]
      dsimp only
      rw [run]
      exact ih (Nat.le_of_succ_le_succ enough)
  | @skipped states work maxStack i steps outcome nothing _ ih =>
    cases fuel with
    | zero => cases enough
    | succ fuel =>
      rw [settle, ← stateAt]
      rcases nothing with unknown | missing
      · rw [unknown]
        exact ih (Nat.le_of_succ_le_succ enough)
      · rw [missing]
        cases stateAt states i <;> exact ih (Nat.le_of_succ_le_succ enough)

theorem Ends.unique {steps' : Nat} {outcome' : Except WriteError Progress}
    (ends : a.Ends steps states work maxStack outcome)
    (ends' : a.Ends steps' states work maxStack outcome') : outcome = outcome' :=
  (settle_of_ends ends (Nat.le_add_right steps steps')).symm.trans
    (settle_of_ends ends' (Nat.le_add_left steps' steps))

theorem ends_or_spends (fuel : Nat) (states : States) (work : List Nat) (maxStack : Nat) :
    (∃ steps ≤ fuel, ∃ outcome, a.Ends steps states work maxStack outcome ∧
      a.settle fuel states work maxStack = outcome) ∨
      a.settle fuel states work maxStack = a.method.refuse .framesUnsettled := by
  induction fuel generalizing states work maxStack with
  | zero =>
    cases work with
    | nil => exact .inl ⟨0, Nat.le_refl 0, _, .emptied states maxStack, rfl⟩
    | cons i work => exact .inr rfl
  | succ fuel ih =>
    cases work with
    | nil => exact .inl ⟨0, Nat.zero_le _, _, .emptied states maxStack, rfl⟩
    | cons i work =>
      rw [settle, ← stateAt]
      cases known : stateAt states i with
      | none =>
        refine (ih states work maxStack).imp_left ?_
        rintro ⟨steps, few, outcome, ends, answer⟩
        exact ⟨steps + 1, Nat.succ_le_succ few, outcome, .skipped (.inl known) ends, answer⟩
      | some before =>
        cases found : a.flow.insns[i]? with
        | none =>
          refine (ih states work maxStack).imp_left ?_
          rintro ⟨steps, few, outcome, ends, answer⟩
          exact ⟨steps + 1, Nat.succ_le_succ few, outcome, .skipped (.inr found) ends, answer⟩
        | some insn =>
          dsimp only
          cases run : a.serve i before insn states work maxStack with
          | error e =>
            exact .inl ⟨1, Nat.succ_le_succ (Nat.zero_le _), _, .failed known found run, rfl⟩
          | ok p =>
            refine (ih p.states p.work p.maxStack).imp_left ?_
            rintro ⟨steps, few, outcome, ends, answer⟩
            exact ⟨steps + 1, Nat.succ_le_succ few, outcome, .served known found run ends, answer⟩

theorem work_of_ends {done : Progress} (ends : a.Ends steps states work maxStack (.ok done)) :
    done.work = [] := by
  generalize same : (Except.ok done : Except WriteError Progress) = outcome at ends
  induction ends with
  | emptied states maxStack =>
    cases same
    rfl
  | failed known found run => cases same
  | served known found run _ ih => exact ih same
  | skipped nothing _ ih => exact ih same

/-- How often the state at an instruction can still change, when it has so many slots at most. The
first state to arrive is a change as well. -/
def charge (a : Analysis) (most slots : Nat) : Option State → Nat
  | none => slots * (a.hierarchy.ceiling most + 2) + 1
  | some s => a.hierarchy.weight most s

def changes (a : Analysis) (most width : Nat) (states : States) : Nat :=
  total (a.charge most (width + 2 * a.flow.size)) states

/-- The states of a run so far: a stack is at most twice as high as there are states. -/
structure Bounded (a : Analysis) (most width : Nat) (states : States) : Prop where
  size : states.size = a.flow.size
  fits : ∀ i s, stateAt states i = some s → s.Fits a.hierarchy most width (2 * present states)

/-- Progress in which each instruction that joins the work list takes a change away. -/
structure Pays (a : Analysis) (most width : Nat) (states : States) (work : List Nat)
    (states' : States) (work' : List Nat) : Prop where
  bounded : a.Bounded most width states'
  present : present states ≤ present states'
  paid : work'.length + a.changes most width states' ≤
    work.length + a.changes most width states

variable {most width i : Nat} {incoming before after : State} {insn : Insn}

theorem Pays.refl (bounded : a.Bounded most width states) :
    a.Pays most width states work states work :=
  ⟨bounded, Nat.le_refl _, Nat.le_refl _⟩

theorem Pays.trans (first : a.Pays most width states work states' work')
    (second : a.Pays most width states' work' states'' work'') :
    a.Pays most width states work states'' work'' :=
  ⟨second.bounded, Nat.le_trans first.present second.present,
    Nat.le_trans second.paid first.paid⟩

theorem weight_le_slots (bounded : states.size = a.flow.size) {s : State}
    (fits : s.Fits a.hierarchy most width (2 * present states)) : a.hierarchy.weight most s ≤
      (width + 2 * a.flow.size) * (a.hierarchy.ceiling most + 2) := by
  have few := present_le states
  have slots : s.locals.length + s.stack.length ≤ width + 2 * a.flow.size := by
    have locals := fits.locals
    have stack := fits.stack
    omega
  exact Nat.le_trans (a.hierarchy.weight_le fits.proper) (Nat.mul_le_mul_right _ slots)

theorem pays_first (bounded : a.Bounded most width states) (inside : i < states.size)
    (unknown : stateAt states i = none)
    (fits : incoming.Fits a.hierarchy most width (2 * present states + 2)) :
    a.Pays most width states work (states.setIfInBounds i (some incoming)) (i :: work) := by
  have size : (states.setIfInBounds i (some incoming)).size = a.flow.size :=
    Array.size_setIfInBounds.trans bounded.size
  have more : present (states.setIfInBounds i (some incoming)) = present states + 1 := by
    have sum := total_set (fun s => s.isSome.toNat) inside (some incoming)
    rw [unknown] at sum
    exact sum
  -- its stack may be higher by two than all others, but now there is one more of them
  have fits' : incoming.Fits a.hierarchy most width
      (2 * present (states.setIfInBounds i (some incoming))) :=
    fits.higher (by omega)
  refine ⟨⟨size, fun j s known => ?_⟩, by omega, ?_⟩
  · rw [stateAt_set inside] at known
    split at known
    · cases known
      exact fits'
    · exact (bounded.fits j s known).higher (by omega)
  · have sum := total_set (a.charge most (width + 2 * a.flow.size)) inside (some incoming)
    have slots := weight_le_slots size fits'
    rw [unknown, charge, charge] at sum
    rw [changes, changes, List.length_cons]
    omega

theorem pays_lift (bounded : a.Bounded most width states) {current new : State}
    (known : stateAt states i = some current) (lifts : a.hierarchy.Lifts most current new)
    (other : new ≠ current) :
    a.Pays most width states work (states.setIfInBounds i (some new)) (i :: work) := by
  have inside := lt_size_of_stateAt known
  have same : present (states.setIfInBounds i (some new)) = present states := by
    have sum := total_set (fun s => s.isSome.toNat) inside (some new)
    rw [known] at sum
    exact Nat.add_right_cancel sum
  have before := bounded.fits i current known
  refine ⟨⟨Array.size_setIfInBounds.trans bounded.size, fun j s known' => ?_⟩,
    Nat.le_of_eq same.symm, ?_⟩
  · rw [same]
    rw [stateAt_set inside] at known'
    split at known'
    · cases known'
      exact ⟨lifts.proper, lifts.locals ▸ before.locals, lifts.stack ▸ before.stack⟩
    · exact bounded.fits j s known'
  · have sum := total_set (a.charge most (width + 2 * a.flow.size)) inside (some new)
    have lighter := lifts.climbs.resolve_left other
    rw [known, charge, charge] at sum
    rw [changes, changes, List.length_cons]
    omega

/-- A body without frames to start from, with no types but proper ones and with room for its
instructions. -/
structure Confines (a : Analysis) (most width : Nat) : Prop where
  noHints : ∀ i : Nat, a.hints[i]? = none
  inside : a.flow.Inside
  caught : ∀ r ∈ a.flow.ranges, r.caught.Proper a.hierarchy most
  brings : ∀ (i : Nat) insn, a.flow.insns[i]? = some insn →
    ∀ t ∈ a.method.brings insn, t.Proper a.hierarchy most
  room : ∀ (i : Nat) insn, a.flow.insns[i]? = some insn → insn.room + 1 ≤ width

theorem of_arrive_some {current new : State} (unhinted : a.hints[i]? = none)
    (arrival : a.arrive i (some current) incoming = .ok (some new)) :
    new = a.hierarchy.joinStates current incoming ∧ new ≠ current := by
  simp only [arrive, unhinted] at arrival
  split at arrival
  · cases arrival
  · by_cases stays : a.hierarchy.joinStates current incoming = current
    · rw [if_pos stays] at arrival
      cases arrival
    · rw [if_neg stays] at arrival
      cases arrival
      exact ⟨rfl, stays⟩

theorem pays_deliver (confines : a.Confines most width)
    (bounded : a.Bounded most width states) (inside : i < states.size)
    (fits : incoming.Fits a.hierarchy most width (2 * present states + 2))
    (run : a.deliver states work i incoming = .ok (states', work')) :
    a.Pays most width states work states' work' := by
  obtain ⟨answer, arrival, run⟩ := bind_ok_iff.1 run
  change a.arrive i (stateAt states i) incoming = .ok answer at arrival
  cases known : stateAt states i with
  | none =>
    rw [known] at arrival
    cases arrival
    cases run
    exact pays_first bounded inside known fits
  | some current =>
    rw [known] at arrival
    cases answer with
    | none =>
      cases run
      exact .refl bounded
    | some new =>
      cases run
      obtain ⟨rfl, other⟩ := of_arrive_some (confines.noHints i) arrival
      exact pays_lift bounded known
        (Hierarchy.lifts_joinStates (bounded.fits i current known).proper fits.proper) other

theorem pays_deliverToHandlers (confines : a.Confines most width)
    (bounded : a.Bounded most width states) {ranges : List HandlerRange}
    (listed : ∀ r ∈ ranges, r ∈ a.flow.ranges)
    (proper : before.Each (VType.Proper a.hierarchy most))
    (locals : before.locals.length ≤ width)
    (run : a.deliverToHandlers i before ranges states work = .ok (states', work')) :
    a.Pays most width states work states' work' := by
  induction ranges generalizing states work with
  | nil =>
    cases run
    exact .refl bounded
  | cons r rest ih =>
    obtain ⟨head, listed⟩ := List.forall_mem_cons.1 listed
    rw [deliverToHandlers] at run
    split at run
    · obtain ⟨⟨next, queue⟩, delivered, run⟩ := bind_ok_iff.1 run
      have inside : r.target < states.size := bounded.size.symm ▸ confines.inside.handlers r head
      have fits : State.Fits a.hierarchy most width (2 * present states + 2)
          ⟨before.locals, [r.caught]⟩ := by
        refine ⟨⟨proper.locals, fun t mem => ?_⟩, locals, ?_⟩
        · rw [List.mem_singleton.1 mem]
          exact confines.caught r head
        · rw [List.length_singleton]
          omega
      have first := pays_deliver confines bounded inside fits delivered
      exact first.trans (ih first.bounded listed run)
    · exact ih bounded listed run

theorem pays_deliverToSuccessors (confines : a.Confines most width)
    (bounded : a.Bounded most width states) {targets : List Nat}
    (fits : after.Fits a.hierarchy most width (2 * present states + 2))
    (run : a.deliverToSuccessors after targets states work = .ok (states', work')) :
    a.Pays most width states work states' work' := by
  induction targets generalizing states work with
  | nil =>
    cases run
    exact .refl bounded
  | cons t rest ih =>
    rw [deliverToSuccessors] at run
    split at run
    · cases run
    · rename_i inside
      obtain ⟨⟨next, queue⟩, delivered, run⟩ := bind_ok_iff.1 run
      have first := pays_deliver confines bounded (bounded.size.symm ▸ Nat.not_le.1 inside) fits
        delivered
      have more := first.present
      exact first.trans (ih first.bounded (fits.higher (by omega)) run)

theorem fits_execute (confines : a.Confines most width) (found : a.flow.insns[i]? = some insn)
    {height : Nat} (fits : before.Fits a.hierarchy most width height)
    (run : a.method.execute i a.sites[i]? insn before = .ok after) :
    after.Fits a.hierarchy most width (height + 2) where
  proper := MethodSite.each_execute fits.proper (fun _ => VType.proper_plain)
    (fun _ _ => VType.proper_elementType) (fun l _ => VType.proper_uninit l)
    (confines.brings i insn found) run
  locals := by
    have room := confines.room i insn found
    have grown := MethodSite.length_locals_execute_le run
    have locals := fits.locals
    omega
  stack := by
    have grown := MethodSite.length_stack_execute run
    have stack := fits.stack
    omega

theorem pays_serve (confines : a.Confines most width) (bounded : a.Bounded most width states)
    (known : stateAt states i = some before) (found : a.flow.insns[i]? = some insn)
    {p : Progress} (run : a.serve i before insn states work maxStack = .ok p) :
    a.Pays most width states work p.states p.work := by
  have fits := bounded.fits i before known
  obtain ⟨⟨between, queue⟩, handlers, run⟩ := bind_ok_iff.1 run
  obtain ⟨after, executed, run⟩ := bind_ok_iff.1 run
  obtain ⟨targets, _, run⟩ := bind_ok_iff.1 run
  obtain ⟨⟨states', work'⟩, successors, run⟩ := bind_ok_iff.1 run
  cases run
  have first := pays_deliverToHandlers confines bounded (fun _ mem => mem) fits.proper fits.locals
    handlers
  have more := first.present
  have fitsAfter := (fits_execute confines found fits executed).higher
    (show 2 * present states + 2 ≤ 2 * present between + 2 by omega)
  exact first.trans (pays_deliverToSuccessors confines first.bounded fitsAfter successors)

theorem exists_ends (confines : a.Confines most width) (bounded : a.Bounded most width states)
    (enough : work.length + a.changes most width states ≤ fuel) :
    ∃ steps outcome, steps ≤ fuel ∧ a.Ends steps states work maxStack outcome := by
  induction fuel generalizing states work maxStack with
  | zero =>
    cases work with
    | nil => exact ⟨0, _, Nat.le_refl 0, .emptied states maxStack⟩
    | cons i work =>
      rw [List.length_cons] at enough
      omega
  | succ fuel ih =>
    cases work with
    | nil => exact ⟨0, _, Nat.zero_le _, .emptied states maxStack⟩
    | cons i work =>
      have shorter : work.length + a.changes most width states ≤ fuel := by
        rw [List.length_cons] at enough
        omega
      cases known : stateAt states i with
      | none =>
        obtain ⟨steps, outcome, few, ends⟩ := ih bounded shorter
        exact ⟨steps + 1, outcome, Nat.succ_le_succ few, .skipped (.inl known) ends⟩
      | some before =>
        cases found : a.flow.insns[i]? with
        | none =>
          obtain ⟨steps, outcome, few, ends⟩ := ih bounded shorter
          exact ⟨steps + 1, outcome, Nat.succ_le_succ few, .skipped (.inr found) ends⟩
        | some insn =>
          cases run : a.serve i before insn states work maxStack with
          | error e => exact ⟨1, _, Nat.succ_le_succ (Nat.zero_le _), .failed known found run⟩
          | ok p =>
            have pays := pays_serve confines bounded known found run
            obtain ⟨steps, outcome, few, ends⟩ :=
              ih pays.bounded (Nat.le_trans pays.paid shorter)
            exact ⟨steps + 1, outcome, Nat.succ_le_succ few, .served known found run ends⟩

def entered (a : Analysis) (entry : State) : States :=
  (Array.replicate a.flow.size none : States).setIfInBounds 0 (some entry)

theorem total_replicate (f : Option State → Nat) (n : Nat) :
    total f (Array.replicate n none) = n * f none := by
  simp [total]

variable {entry : State}

theorem bounded_entered (inside : a.flow.Inside) (fits : entry.Fits a.hierarchy most width 2) :
    a.Bounded most width (a.entered entry) ∧ 1 + a.changes most width (a.entered entry) ≤
      a.flow.size * ((width + 2 * a.flow.size) * (a.hierarchy.ceiling most + 2) + 1) := by
  have blank : a.Bounded most width (Array.replicate a.flow.size none) := by
    refine ⟨Array.size_replicate, fun i s known => ?_⟩
    rw [Intake.stateAt_replicate] at known
    cases known
  -- the entry comes to a body without states like any first state to its instruction
  have pays : a.Pays most width (Array.replicate a.flow.size none) [] (a.entered entry) [0] :=
    pays_first blank (blank.size.symm ▸ inside.nonempty) (Intake.stateAt_replicate _ 0)
      (fits.higher (Nat.le_add_left 2 _))
  have paid := pays.paid
  rw [changes, changes, total_replicate, charge, List.length_nil, Nat.zero_add] at paid
  exact ⟨pays.bounded, paid⟩

theorem changes_le_budget (a : Analysis) (entry : State) (maxLocals : Nat) :
    a.flow.size * ((entry.locals.length + 1 + 2 * a.flow.size) *
      (a.hierarchy.ceiling (a.dimensions entry) + 2) + 1) ≤ a.budget entry maxLocals := by
  unfold budget
  dsimp only
  generalize hslots : entry.locals.length + maxLocals + 4 * (a.flow.size + 1) + 4 = slots
  generalize hnames : (4 * a.dimensions entry + 2) * a.hierarchy.searchBound +
    4 * (a.flow.size + 1) + a.flow.ranges.length + 16 = names
  have high : a.hierarchy.ceiling (a.dimensions entry) + 2 ≤ names := by
    rw [Hierarchy.ceiling]
    omega
  have each : (entry.locals.length + 1 + 2 * a.flow.size) *
      (a.hierarchy.ceiling (a.dimensions entry) + 2) + 1 ≤ slots * names := by
    calc _ ≤ (entry.locals.length + 1 + 2 * a.flow.size) * names + names :=
          Nat.add_le_add (Nat.mul_le_mul_left _ high) (by omega)
      _ = (entry.locals.length + 1 + 2 * a.flow.size + 1) * names := (Nat.succ_mul ..).symm
      _ ≤ slots * names := Nat.mul_le_mul_right _ (by omega)
  calc _ ≤ (a.flow.size + 1) * (slots * names) := Nat.mul_le_mul (Nat.le_succ _) each
    _ ≤ (a.flow.size + 1) * (a.flow.ranges.length + (a.flow.size + 1) + 2) * (slots * names) :=
      Nat.mul_le_mul_right _ (Nat.le_mul_of_pos_right _ (by omega))
    _ = (a.flow.size + 1) * (a.flow.ranges.length + (a.flow.size + 1) + 2) * slots * names :=
      (Nat.mul_assoc ..).symm
    _ ≤ _ := Nat.le_mul_of_pos_left _ (by decide)

theorem proper_brought (named : ∀ name, VType.object name ∈ a.brought entry →
    a.hierarchy.Joinable name.toList) {t : VType} (mem : t ∈ a.brought entry) :
    t.Proper a.hierarchy (a.dimensions entry) := by
  rintro name rfl
  exact ⟨named name mem, (le_foldl_max VType.dimensions (a.brought entry) 0).2 _ mem⟩

theorem run_ends (sound : a.Sound entry.locals.length) (empty : entry.stack = [])
    (named : ∀ name, VType.object name ∈ a.brought entry → a.hierarchy.Joinable name.toList)
    (maxLocals : Nat) : ∃ steps outcome, steps ≤ a.budget entry maxLocals ∧
      a.Ends steps (a.entered entry) [0] 0 outcome ∧ a.run entry maxLocals = outcome := by
  have brought {t : VType} (mem : t ∈ a.brought entry) := proper_brought named mem
  have fits : entry.Fits a.hierarchy (a.dimensions entry) (entry.locals.length + 1) 2 := by
    refine ⟨State.each_iff_entries.2 fun t mem => brought ?_, Nat.le_succ _, ?_⟩
    · exact List.mem_append_left _ (List.mem_append_left _ mem)
    · rw [empty]
      exact Nat.zero_le 2
  have confines : a.Confines (a.dimensions entry) (entry.locals.length + 1) := by
    refine ⟨sound.noHints, sound.inside, fun r mem => brought ?_,
      fun i insn found t mem => brought ?_,
      fun i insn found => Nat.succ_le_succ (sound.roomy i insn found)⟩
    · exact List.mem_append_left _ (List.mem_append_right _ (List.mem_map_of_mem mem))
    · have listed : insn ∈ a.flow.insns.toList :=
        List.mem_of_getElem? (Array.getElem?_toList.trans found)
      exact List.mem_append_right _ (List.mem_flatMap.2 ⟨insn, listed, mem⟩)
  obtain ⟨bounded, changes⟩ := bounded_entered sound.inside fits
  have enough : ([0] : List Nat).length + a.changes (a.dimensions entry) (entry.locals.length + 1)
      (a.entered entry) ≤ a.budget entry maxLocals :=
    Nat.le_trans changes (a.changes_le_budget entry maxLocals)
  obtain ⟨steps, outcome, few, ends⟩ := exists_ends confines bounded enough
  exact ⟨steps, outcome, few, ends, settle_of_ends ends few⟩

end Analysis

namespace Reframe

variable {h : Hierarchy} {owner : String} {m : Method} {c : Code} {p : Prepared}

theorem stack_of_prepare (made : prepare h owner m c = .ok p) : p.entry.stack = [] := by
  obtain ⟨d, _, made⟩ := bind_ok_iff.1 made
  obtain ⟨flow, _, made⟩ := bind_ok_iff.1 made
  obtain ⟨targets, _, made⟩ := bind_ok_iff.1 made
  cases made
  rfl

namespace Prepared

theorem settle_of_ends {steps : Nat} {outcome : Except WriteError Progress}
    (ends : p.analysis.Ends steps (p.analysis.entered p.entry) [0] 0 outcome) :
    p.settle = outcome ∨ p.settle = p.analysis.method.refuse .framesUnsettled := by
  refine (Analysis.ends_or_spends (p.analysis.budget p.entry p.maxLocals)
    (p.analysis.entered p.entry) [0] 0).imp_left ?_
  rintro ⟨_, _, outcome', ends', settled⟩
  exact settled.trans (ends'.unique ends)

end Prepared

/-- The work list of a body without frames to start from ends, with nothing left to serve or with an
error of an instruction, and that within the steps allowed. The hierarchy may run in circles, but
its superclasses are named like classes, or else the names that the body brings in are those of
types. -/
theorem settle_terminates (noFrames : c.frames.getD [] = []) (noHints : c.hints = [])
    (made : prepare h owner m c = .ok p)
    (named : h.NamesClasses ∨ ∀ name, VType.object name ∈ p.analysis.brought p.entry →
      Hierarchy.TypeName name.toList) :
    ∃ steps outcome, steps ≤ p.analysis.budget p.entry p.maxLocals ∧
      p.analysis.Ends steps (p.analysis.entered p.entry) [0] 0 outcome ∧ p.settle = outcome ∧
      ∀ done, outcome = .ok done → done.work = [] := by
  have joinable (name : String) (mem : VType.object name ∈ p.analysis.brought p.entry) :
      p.analysis.hierarchy.Joinable name.toList :=
    (prepare_eq made).1 ▸ named.imp_right fun typed => typed name mem
  obtain ⟨steps, outcome, few, ends, run⟩ := Analysis.run_ends
    (sound_of_prepare noFrames noHints made) (stack_of_prepare made) joinable p.maxLocals
  refine ⟨steps, outcome, few, ends, run, fun done same => ?_⟩
  subst same
  exact Analysis.work_of_ends ends

end Reframe

/-- A loop that stores now one grid and now another, whose classes are each other's superclass. -/
def circlingCode : Code :=
  Code.ofInsns [.simple 0x01, .var Opcode.astore 1, .label ⟨0⟩, .var Opcode.iload 0,
    .jump Opcode.ifeq ⟨1⟩, .field Opcode.getstatic ⟨"x", "rows", "[[Lx;"⟩,
    .var Opcode.astore 1, .jump Opcode.goto ⟨0⟩, .label ⟨1⟩,
    .field Opcode.getstatic ⟨"x", "columns", "[[Ly;"⟩, .var Opcode.astore 1,
    .jump Opcode.goto ⟨0⟩]

def circlingMethod : Method := ⟨⟨9⟩, "circle", "(Z)V", some circlingCode, []⟩

theorem settle_circlingMethod : ∃ p steps done,
    Reframe.prepare Hierarchy.circle "x" circlingMethod circlingCode = .ok p ∧
    p.analysis.Ends steps (p.analysis.entered p.entry) [0] 0 (.ok done) ∧ p.settle = .ok done ∧
    done.work = [] := by
  have computed : ((Reframe.prepare Hierarchy.circle "x" circlingMethod circlingCode).toOption.any
      fun p => p.settle.toOption.isSome &&
        p.analysis.brought p.entry = [.int, .top, .object "[[Lx;", .object "[[Ly;"]) = true := by
    decide +kernel
  obtain ⟨p, made, computed⟩ := exists_ok_of_any computed
  rw [Bool.and_eq_true, decide_eq_true_iff] at computed
  obtain ⟨settles, brought⟩ := computed
  have named : ∀ name, VType.object name ∈ p.analysis.brought p.entry →
      Hierarchy.TypeName name.toList := by
    intro name mem
    have grid : name = "[[Lx;" ∨ name = "[[Ly;" := by simpa [brought] using mem
    rcases grid with rfl | rfl
    · decide
    · decide
  obtain ⟨steps, outcome, _, ends, run, emptied⟩ :=
    Reframe.settle_terminates rfl rfl made (.inr named)
  rw [run] at settles
  cases outcome with
  | error e => cases settles
  | ok done => exact ⟨p, steps, done, made, ends, run, emptied done rfl⟩

end ClassWeave
