import Mathlib.Data.List.Forall2
import Mathlib.Tactic.Common
import ClassWeave.Analysis.Fixpoint
import ClassWeave.Proofs.Analysis.Joins
import ClassWeave.Proofs.Analysis.Locals

/-!
# The work list ends in a fixpoint

What a state counts for it goes on counting for, however often another takes its place. So an
edge that was served stays served until its source changes, and then the source is on the work
list again. When the list is empty, every edge between reachable instructions is served. A state
counts at least for having come there at all; without hints it counts for what it has absorbed.
-/

set_option autoImplicit false

namespace ClassWeave

/-- The state in front of instruction `i`, if one has arrived. -/
def stateAt (states : States) (i : Nat) : Option State := (states[i]?).getD none

theorem stateAt_set {states : States} {i : Nat} (inside : i < states.size) (s : State) (j : Nat) :
    stateAt (states.setIfInBounds i (some s)) j = if j = i then some s else stateAt states j := by
  unfold stateAt
  rw [Array.getElem?_setIfInBounds]
  by_cases same : i = j
  · subst same
    rw [if_pos rfl, if_pos inside, if_pos rfl, Option.getD_some]
  · rw [if_neg same, if_neg (Ne.symm same)]

theorem lt_size_of_stateAt {states : States} {i : Nat} {s : State} (h : stateAt states i = some s) :
    i < states.size := by
  by_contra outside
  rw [stateAt, Array.getElem?_eq_none (Nat.le_of_not_lt outside)] at h
  cases h

inductive Flow.Reachable (f : Flow) : Nat → Prop where
  | start : Reachable f 0
  | passed {i t : Nat} {insn : Insn} {targets : List Nat} (source : Reachable f i)
      (found : f.insns[i]? = some insn) (next : f.successors i insn = .ok targets)
      (mem : t ∈ targets) : Reachable f t
  | caught {i : Nat} {r : HandlerRange} (source : Reachable f i) (mem : r ∈ f.ranges)
      (covers : r.covers i = true) : Reachable f r.target

structure Flow.Inside (f : Flow) : Prop where
  nonempty : 0 < f.size
  handlers : ∀ r ∈ f.ranges, r.target < f.size

namespace Analysis

/-- The configurations that the work list goes through. -/
inductive Visits (a : Analysis) (entry : State) : States → List Nat → Nat → Prop where
  | start : Visits a entry
      ((Array.replicate a.flow.size none : States).setIfInBounds 0 (some entry)) [0] 0
  | served {states : States} {work : List Nat} {maxStack i : Nat} {before : State} {insn : Insn}
      {p : Progress} (visit : Visits a entry states (i :: work) maxStack)
      (known : stateAt states i = some before) (found : a.flow.insns[i]? = some insn)
      (run : a.serve i before insn states work maxStack = .ok p) :
      Visits a entry p.states p.work p.maxStack
  | skipped {states : States} {work : List Nat} {maxStack i : Nat}
      (visit : Visits a entry states (i :: work) maxStack)
      (nothing : stateAt states i = none ∨ a.flow.insns[i]? = none) :
      Visits a entry states work maxStack

def Serves (a : Analysis) (entry : State) (i : Nat) (before : State) (insn : Insn) : Prop :=
  ∃ states work maxStack, Visits a entry states (i :: work) maxStack ∧
    stateAt states i = some before ∧ a.flow.insns[i]? = some insn

theorem settle_cons {a : Analysis} {fuel : Nat} {states : States} {work : List Nat}
    {maxStack i : Nat} {done : Progress}
    (run : a.settle (fuel + 1) states (i :: work) maxStack = .ok done) :
    (∃ before insn p, stateAt states i = some before ∧ a.flow.insns[i]? = some insn ∧
        a.serve i before insn states work maxStack = .ok p ∧
        a.settle fuel p.states p.work p.maxStack = .ok done) ∨
      ((stateAt states i = none ∨ a.flow.insns[i]? = none) ∧
        a.settle fuel states work maxStack = .ok done) := by
  rw [settle, ← stateAt] at run
  cases known : stateAt states i with
  | none =>
    rw [known] at run
    exact .inr ⟨.inl rfl, run⟩
  | some before =>
    cases found : a.flow.insns[i]? with
    | none =>
      rw [known, found] at run
      exact .inr ⟨.inr rfl, run⟩
    | some insn =>
      rw [known, found] at run
      dsimp only at run
      split at run
      · rename_i p served
        exact .inl ⟨before, insn, p, rfl, rfl, served, run⟩
      · cases run

/-- What is followed through a run: the form of the states, and when the state at an instruction
counts for one that has arrived there. A state that takes the place of another counts for the one
that has just arrived and for all that the other counted for. -/
structure Intake (a : Analysis) where
  Fit : State → Prop
  CountsFor : Nat → State → State → Prop
  refl : ∀ i s, CountsFor i s s
  arrive : ∀ i current incoming answer, Fit current → Fit incoming →
    a.arrive i (some current) incoming = .ok answer →
    Fit (answer.getD current) ∧ CountsFor i (answer.getD current) incoming ∧
      ∀ t, Fit t → CountsFor i current t → CountsFor i (answer.getD current) t

namespace Intake

variable {a : Analysis} {I : a.Intake} {states states' : States} {work work' : List Nat}

/-- The state at `i` counts for `t`. -/
structure Arrived (I : a.Intake) (states : States) (i : Nat) (t : State) : Prop where
  fit : I.Fit t
  counted : ∃ s, stateAt states i = some s ∧ I.CountsFor i s t

/-- Progress that loses nothing: what has arrived goes on counting, and where a state has changed,
the instruction is on the list. -/
structure Advances (I : a.Intake) (states : States) (work : List Nat) (states' : States)
    (work' : List Nat) : Prop where
  size : states'.size = states.size
  fit : ∀ i s, stateAt states' i = some s → I.Fit s
  arrived : ∀ i t, I.Arrived states i t → I.Arrived states' i t
  queued : ∀ i ∈ work, i ∈ work'
  changed : ∀ i, stateAt states' i ≠ stateAt states i → i ∈ work'
  reached : ∀ i s, stateAt states' i = some s →
    (∃ before, stateAt states i = some before) ∨ a.flow.Reachable i

theorem Advances.refl (fit : ∀ i s, stateAt states i = some s → I.Fit s) :
    I.Advances states work states work where
  size := rfl
  fit := fit
  arrived _ _ h := h
  queued _ h := h
  changed _ h := absurd rfl h
  reached _ s h := .inl ⟨s, h⟩

theorem Advances.trans {states'' : States} {work'' : List Nat}
    (first : I.Advances states work states' work')
    (second : I.Advances states' work' states'' work'') :
    I.Advances states work states'' work'' where
  size := second.size.trans first.size
  fit := second.fit
  arrived i t h := second.arrived i t (first.arrived i t h)
  queued i h := second.queued i (first.queued i h)
  changed i h := by
    by_cases same : stateAt states'' i = stateAt states' i
    · rw [same] at h
      exact second.queued i (first.changed i h)
    · exact second.changed i same
  reached i s h := by
    rcases second.reached i s h with ⟨between, h⟩ | reachable
    · exact first.reached i between h
    · exact .inr reachable

theorem advances_set {i : Nat} {new : State} (fit : ∀ i s, stateAt states i = some s → I.Fit s)
    (inside : i < states.size) (reachable : a.flow.Reachable i) (newFit : I.Fit new)
    (counts : ∀ t, I.Arrived states i t → I.CountsFor i new t) :
    I.Advances states work (states.setIfInBounds i (some new)) (i :: work) where
  size := Array.size_setIfInBounds
  fit j s h := by
    rw [stateAt_set inside] at h
    split at h
    · cases h
      exact newFit
    · exact fit j s h
  arrived j t h := by
    refine ⟨h.fit, ?_⟩
    rw [stateAt_set inside]
    split
    · rename_i same
      subst same
      exact ⟨new, rfl, counts t h⟩
    · exact h.counted
  queued j h := List.mem_cons_of_mem i h
  changed j h := by
    rw [stateAt_set inside] at h
    split at h
    · rename_i same
      rw [same]
      exact List.mem_cons_self ..
    · exact absurd rfl h
  reached j s h := by
    rw [stateAt_set inside] at h
    split at h
    · rename_i same
      rw [same]
      exact .inr reachable
    · exact .inl ⟨s, h⟩

theorem advances_deliver (fit : ∀ i s, stateAt states i = some s → I.Fit s) {i : Nat}
    {incoming : State} (incomingFit : I.Fit incoming) (inside : i < states.size)
    (reachable : a.flow.Reachable i)
    (run : a.deliver states work i incoming = .ok (states', work')) :
    I.Advances states work states' work' ∧ I.Arrived states' i incoming := by
  obtain ⟨answer, arrival, run⟩ := bind_ok_iff.1 run
  change a.arrive i (stateAt states i) incoming = .ok answer at arrival
  cases known : stateAt states i with
  | none =>
    rw [known] at arrival
    cases arrival
    cases run
    refine ⟨advances_set fit inside reachable incomingFit fun t h => ?_, incomingFit, ?_⟩
    · obtain ⟨s, here, _⟩ := h.counted
      rw [known] at here
      cases here
    · rw [stateAt_set inside, if_pos rfl]
      exact ⟨incoming, rfl, I.refl i incoming⟩
  | some current =>
    rw [known] at arrival
    obtain ⟨newFit, arrived, stays⟩ :=
      I.arrive i current incoming answer (fit i current known) incomingFit arrival
    cases answer with
    | none =>
      cases run
      exact ⟨.refl fit, incomingFit, current, known, arrived⟩
    | some new =>
      cases run
      refine ⟨advances_set fit inside reachable newFit fun t h => ?_, incomingFit, ?_⟩
      · obtain ⟨s, here, counted⟩ := h.counted
        rw [known] at here
        cases here
        exact stays t h.fit counted
      · rw [stateAt_set inside, if_pos rfl]
        exact ⟨_, rfl, arrived⟩

theorem advances_deliverToHandlers (fit : ∀ i s, stateAt states i = some s → I.Fit s) {i : Nat}
    {before : State} {ranges : List HandlerRange} (inside : ∀ r ∈ ranges, r.target < states.size)
    (reachable : ∀ r ∈ ranges, r.covers i = true → a.flow.Reachable r.target)
    (caughtFit : ∀ r ∈ ranges, r.covers i = true → I.Fit ⟨before.locals, [r.caught]⟩)
    (run : a.deliverToHandlers i before ranges states work = .ok (states', work')) :
    I.Advances states work states' work' ∧ ∀ r ∈ ranges, r.covers i = true →
      I.Arrived states' r.target ⟨before.locals, [r.caught]⟩ := by
  induction ranges generalizing states work with
  | nil =>
    cases run
    exact ⟨.refl fit, fun r mem => nomatch mem⟩
  | cons r rest ih =>
    have tail {P : HandlerRange → Prop} (h : ∀ q ∈ r :: rest, P q) : ∀ q ∈ rest, P q :=
      fun q mem => h q (List.mem_cons_of_mem r mem)
    have head := List.mem_cons_self (a := r) (l := rest)
    rw [deliverToHandlers] at run
    split at run
    · rename_i covers
      obtain ⟨⟨next, queue⟩, delivered, run⟩ := bind_ok_iff.1 run
      obtain ⟨first, here⟩ := advances_deliver fit (caughtFit r head covers)
        (inside r head) (reachable r head covers) delivered
      obtain ⟨second, others⟩ := ih first.fit (first.size ▸ tail inside) (tail reachable)
        (tail caughtFit) run
      refine ⟨first.trans second, fun q mem covers => ?_⟩
      rcases List.mem_cons.1 mem with rfl | mem
      · exact second.arrived _ _ here
      · exact others q mem covers
    · rename_i uncovered
      obtain ⟨advances, others⟩ := ih fit (tail inside) (tail reachable) (tail caughtFit) run
      refine ⟨advances, fun q mem covers => ?_⟩
      rcases List.mem_cons.1 mem with rfl | mem
      · exact absurd covers uncovered
      · exact others q mem covers

theorem advances_deliverToSuccessors (fit : ∀ i s, stateAt states i = some s → I.Fit s)
    (sized : states.size = a.flow.size) {after : State} (afterFit : I.Fit after)
    {targets : List Nat} (reachable : ∀ t ∈ targets, a.flow.Reachable t)
    (run : a.deliverToSuccessors after targets states work = .ok (states', work')) :
    I.Advances states work states' work' ∧ ∀ t ∈ targets,
      t < a.flow.size ∧ I.Arrived states' t after := by
  induction targets generalizing states work with
  | nil =>
    cases run
    exact ⟨.refl fit, fun t mem => nomatch mem⟩
  | cons t rest ih =>
    rw [deliverToSuccessors] at run
    split at run
    · cases run
    · rename_i inside
      rw [Nat.not_le] at inside
      obtain ⟨⟨next, queue⟩, delivered, run⟩ := bind_ok_iff.1 run
      obtain ⟨first, here⟩ := advances_deliver fit afterFit (sized ▸ inside)
        (reachable t (List.mem_cons_self ..)) delivered
      obtain ⟨second, others⟩ := ih first.fit (first.size.trans sized)
        (fun u mem => reachable u (List.mem_cons_of_mem t mem)) run
      refine ⟨first.trans second, fun u mem => ?_⟩
      rcases List.mem_cons.1 mem with rfl | mem
      · exact ⟨inside, second.arrived _ _ here⟩
      · exact others u mem

/-- Everything that the state `before` of instruction `i` leads to has arrived. -/
structure Settled (I : a.Intake) (states : States) (maxStack i : Nat) (before : State)
    (insn : Insn) : Prop where
  handlers : ∀ r ∈ a.flow.ranges, r.covers i = true →
    I.Arrived states r.target ⟨before.locals, [r.caught]⟩
  passed : ∃ after targets, a.method.execute i a.sites[i]? insn before = .ok after ∧
    a.flow.successors i insn = .ok targets ∧
    (∀ t ∈ targets, t < a.flow.size ∧ I.Arrived states t after) ∧
    stackSlots before.stack ≤ maxStack ∧ stackSlots after.stack ≤ maxStack

theorem Settled.mono {maxStack maxStack' i : Nat} {before : State} {insn : Insn}
    (h : I.Settled states maxStack i before insn)
    (arrived : ∀ i t, I.Arrived states i t → I.Arrived states' i t)
    (higher : maxStack ≤ maxStack') : I.Settled states' maxStack' i before insn where
  handlers r mem covers := arrived _ _ (h.handlers r mem covers)
  passed := by
    obtain ⟨after, targets, run, next, each, low, low'⟩ := h.passed
    exact ⟨after, targets, run, next,
      fun t mem => ⟨(each t mem).1, arrived _ _ (each t mem).2⟩,
      Nat.le_trans low higher, Nat.le_trans low' higher⟩

/-- The work list between two services. -/
structure Invariant (I : a.Intake) (entry : State) (states : States) (work : List Nat)
    (maxStack : Nat) : Prop where
  size : states.size = a.flow.size
  fit : ∀ i s, stateAt states i = some s → I.Fit s
  entry : I.Arrived states 0 entry
  reached : ∀ i s, stateAt states i = some s → a.flow.Reachable i
  settled : ∀ i s insn, stateAt states i = some s → a.flow.insns[i]? = some insn →
    i ∈ work ∨ I.Settled states maxStack i s insn

structure Closed (I : a.Intake) (entry : State) : Prop where
  start : I.Fit entry
  caught : ∀ i before insn, a.Serves entry i before insn → I.Fit before → ∀ r ∈ a.flow.ranges,
    r.covers i = true → I.Fit ⟨before.locals, [r.caught]⟩
  after : ∀ i before insn after, a.Serves entry i before insn → I.Fit before →
    a.method.execute i a.sites[i]? insn before = .ok after → I.Fit after

variable {entry : State} {maxStack i : Nat} {before : State} {insn : Insn}

theorem Invariant.serve (inside : a.flow.Inside) (closed : I.Closed entry)
    (inv : I.Invariant entry states (i :: work) maxStack)
    (serves : a.Serves entry i before insn) (known : stateAt states i = some before)
    (found : a.flow.insns[i]? = some insn) {p : Progress}
    (run : a.serve i before insn states work maxStack = .ok p) :
    I.Invariant entry p.states p.work p.maxStack := by
  obtain ⟨⟨states₁, work₁⟩, toHandlers, run⟩ := bind_ok_iff.1 run
  obtain ⟨after, executed, run⟩ := bind_ok_iff.1 run
  obtain ⟨targets, next, run⟩ := bind_ok_iff.1 run
  obtain ⟨⟨states₂, work₂⟩, toSuccessors, run⟩ := bind_ok_iff.1 run
  cases run
  have reachable := inv.reached i before known
  have beforeFit := inv.fit i before known
  obtain ⟨first, caught⟩ := advances_deliverToHandlers inv.fit
    (fun r mem => inv.size ▸ inside.handlers r mem)
    (fun r mem covers => .caught reachable mem covers)
    (closed.caught i before insn serves beforeFit) toHandlers
  obtain ⟨second, passed⟩ := advances_deliverToSuccessors first.fit
    (first.size.trans inv.size) (closed.after i before insn after serves beforeFit executed)
    (fun t mem => .passed reachable found next mem) toSuccessors
  have both := first.trans second
  -- what the state from before the service leads to has arrived by now
  have here : I.Settled states₂
      (max (max maxStack (stackSlots before.stack)) (stackSlots after.stack)) i before insn :=
    ⟨fun r mem covers => second.arrived _ _ (caught r mem covers),
      after, targets, executed, next, passed, by omega, by omega⟩
  refine ⟨both.size.trans inv.size, both.fit, both.arrived _ _ inv.entry, fun j s h => ?_,
    fun j s insn' h found' => ?_⟩
  · rcases both.reached j s h with ⟨s', h'⟩ | reached
    · exact inv.reached j s' h'
    · exact reached
  · by_cases same : stateAt states₂ j = stateAt states j
    · rw [same] at h
      rcases inv.settled j s insn' h found' with queued | settled
      · rcases List.mem_cons.1 queued with rfl | queued
        · rw [known] at h
          rw [found] at found'
          cases h
          cases found'
          exact .inr here
        · exact .inl (both.queued j queued)
      · exact .inr (settled.mono both.arrived
          (Nat.le_trans (Nat.le_max_left ..) (Nat.le_max_left ..)))
    · exact .inl (both.changed j same)

theorem invariant_settle (inside : a.flow.Inside) (closed : I.Closed entry) {fuel : Nat}
    (visit : a.Visits entry states work maxStack)
    (inv : I.Invariant entry states work maxStack) {done : Progress}
    (run : a.settle fuel states work maxStack = .ok done) :
    I.Invariant entry done.states [] done.maxStack := by
  induction fuel generalizing states work maxStack with
  | zero =>
    cases work with
    | nil =>
      cases run
      exact inv
    | cons i work => cases run
  | succ fuel ih =>
    cases work with
    | nil =>
      cases run
      exact inv
    | cons i work =>
      rcases settle_cons run with ⟨before, insn, p, known, found, served, run⟩ | ⟨nothing, run⟩
      · exact ih (.served visit known found served)
          (inv.serve inside closed ⟨states, work, maxStack, visit, known, found⟩ known found served)
          run
      · refine ih (.skipped visit nothing) { inv with settled := fun j s insn h found => ?_ } run
        refine (inv.settled j s insn h found).imp_left fun queued => ?_
        refine (List.mem_cons.1 queued).resolve_left fun same => ?_
        rw [same] at h found
        rcases nothing with unknown | missing
        · rw [unknown] at h
          cases h
        · rw [missing] at found
          cases found

theorem stateAt_replicate (size i : Nat) : stateAt (Array.replicate size none) i = none := by
  unfold stateAt
  rw [Array.getElem?_replicate]
  split
  · rfl
  · rfl

theorem invariant_start (inside : a.flow.Inside) (fit : I.Fit entry) :
    I.Invariant entry ((Array.replicate a.flow.size none : States).setIfInBounds 0 (some entry))
      [0] 0 := by
  have first : 0 < (Array.replicate a.flow.size none : States).size := by
    rw [Array.size_replicate]
    exact inside.nonempty
  have only : ∀ i s, stateAt ((Array.replicate a.flow.size none : States).setIfInBounds 0
      (some entry)) i = some s → i = 0 ∧ entry = s := by
    intro i s known
    rw [stateAt_set first, stateAt_replicate] at known
    split at known
    · exact ⟨‹i = 0›, Option.some.inj known⟩
    · cases known
  refine ⟨by rw [Array.size_setIfInBounds, Array.size_replicate], fun i s known => ?_,
    ⟨fit, entry, ?_, I.refl 0 entry⟩, fun i s known => ?_, fun i s insn known _ => .inl ?_⟩
  · rw [← (only i s known).2]
    exact fit
  · rw [stateAt_set first, if_pos rfl]
  · rw [(only i s known).1]
    exact .start
  · rw [(only i s known).1]
    exact List.mem_singleton.2 rfl

theorem invariant_run (inside : a.flow.Inside) (closed : I.Closed entry) {maxLocals : Nat}
    {done : Progress} (run : a.run entry maxLocals = .ok done) :
    I.Invariant entry done.states [] done.maxStack :=
  invariant_settle inside closed .start (invariant_start inside closed.start) run

section Done

variable {done : Progress}

/-- When a run is over: a state wherever control comes to, and every edge ends in a state that
stands in relation `R` to what the edge delivers. -/
structure Served (a : Analysis) (R : Nat → State → State → Prop) (entry : State)
    (done : Progress) : Prop where
  reachable : ∀ i, (∃ s, stateAt done.states i = some s) ↔ a.flow.Reachable i
  entry : ∃ s, stateAt done.states 0 = some s ∧ R 0 s entry
  passed : ∀ i before, stateAt done.states i = some before → ∃ insn after targets,
    a.flow.insns[i]? = some insn ∧
    a.method.execute i a.sites[i]? insn before = .ok after ∧
    a.flow.successors i insn = .ok targets ∧
    (∀ t ∈ targets, t < a.flow.size ∧ ∃ s, stateAt done.states t = some s ∧ R t s after) ∧
    stackSlots before.stack ≤ done.maxStack ∧ stackSlots after.stack ≤ done.maxStack
  caught : ∀ i before, stateAt done.states i = some before → ∀ r ∈ a.flow.ranges,
    r.covers i = true → ∃ s, stateAt done.states r.target = some s ∧
      R r.target s ⟨before.locals, [r.caught]⟩

theorem Invariant.insn_of_state {s : State} (inv : I.Invariant entry states work maxStack)
    (known : stateAt states i = some s) : ∃ insn, a.flow.insns[i]? = some insn := by
  have inside := lt_size_of_stateAt known
  rw [inv.size] at inside
  exact ⟨_, Array.getElem?_eq_getElem inside⟩

theorem Invariant.settled_of_done (inv : I.Invariant entry done.states [] done.maxStack)
    {s : State} (known : stateAt done.states i = some s)
    (found : a.flow.insns[i]? = some insn) :
    I.Settled done.states done.maxStack i s insn :=
  (inv.settled i s insn known found).resolve_left List.not_mem_nil

theorem Invariant.state_of_reachable (inv : I.Invariant entry done.states [] done.maxStack)
    (path : a.flow.Reachable i) : ∃ s, stateAt done.states i = some s := by
  induction path with
  | start =>
    obtain ⟨s, known, _⟩ := inv.entry.counted
    exact ⟨s, known⟩
  | passed _ found next mem ih =>
    obtain ⟨before, known⟩ := ih
    obtain ⟨after, targets, _, next', each, _⟩ := (inv.settled_of_done known found).passed
    rw [next] at next'
    cases next'
    obtain ⟨s, known', _⟩ := (each _ mem).2.counted
    exact ⟨s, known'⟩
  | caught _ mem covers ih =>
    obtain ⟨before, known⟩ := ih
    obtain ⟨insn, found⟩ := inv.insn_of_state known
    obtain ⟨s, known', _⟩ := ((inv.settled_of_done known found).handlers _ mem covers).counted
    exact ⟨s, known'⟩

theorem Invariant.served {R : Nat → State → State → Prop}
    (inv : I.Invariant entry done.states [] done.maxStack)
    (imp : ∀ i s t, I.Fit s → I.Fit t → I.CountsFor i s t → R i s t) :
    Served a R entry done := by
  have counted : ∀ i t, I.Arrived done.states i t →
      ∃ s, stateAt done.states i = some s ∧ R i s t := by
    intro i t arrived
    obtain ⟨s, known, counts⟩ := arrived.counted
    exact ⟨s, known, imp i s t (inv.fit i s known) arrived.fit counts⟩
  constructor
  case reachable => exact fun i => ⟨fun ⟨s, known⟩ => inv.reached i s known, inv.state_of_reachable⟩
  case entry => exact counted 0 entry inv.entry
  case passed =>
    intro i before known
    obtain ⟨insn, found⟩ := inv.insn_of_state known
    obtain ⟨after, targets, run, next, each, low, low'⟩ := (inv.settled_of_done known found).passed
    exact ⟨insn, after, targets, found, run, next,
      fun t mem => ⟨(each t mem).1, counted t after (each t mem).2⟩, low, low'⟩
  case caught =>
    intro i before known r mem covers
    obtain ⟨insn, found⟩ := inv.insn_of_state known
    exact counted _ _ ((inv.settled_of_done known found).handlers r mem covers)

end Done

end Intake

variable {a : Analysis} {entry : State}

def presence (a : Analysis) : a.Intake where
  Fit _ := True
  CountsFor _ _ _ := True
  refl _ _ := trivial
  arrive _ _ _ _ _ _ _ := ⟨trivial, trivial, fun _ _ _ => trivial⟩

theorem closed_presence (a : Analysis) (entry : State) : a.presence.Closed entry :=
  ⟨trivial, fun _ _ _ _ _ _ _ _ => trivial, fun _ _ _ _ _ _ _ => trivial⟩

theorem state_iff_reachable (inside : a.flow.Inside) {maxLocals : Nat} {done : Progress}
    (run : a.run entry maxLocals = .ok done) (i : Nat) :
    (∃ s, stateAt done.states i = some s) ↔ a.flow.Reachable i :=
  ((Intake.invariant_run inside (closed_presence a entry) run).served (R := fun _ _ _ => True)
    fun _ _ _ _ _ _ => trivial).reachable i

end Analysis

def Hierarchy.sharpened (h : Hierarchy) (hint : Option State) (merged : State) : State :=
  match hint with
  | some g => h.sharpen merged g
  | none => merged

structure State.Fit (n : Nat) (s : State) : Prop where
  shallow : s.Shallow
  length : s.locals.length = n

namespace Analysis

variable {a : Analysis} {entry : State}

/-- No array of arrays comes up in the states of the run, and every store pops a value as wide as
it is meant for. -/
structure Typed (a : Analysis) (entry : State) : Prop where
  shallow : entry.Shallow
  caught : ∀ i before insn, a.Serves entry i before insn → ∀ r ∈ a.flow.ranges,
    r.covers i = true → r.caught.Shallow
  after : ∀ i before insn after, a.Serves entry i before insn → before.Shallow →
    a.method.execute i a.sites[i]? insn before = .ok after → after.Shallow
  width : ∀ i before op slot value rest, a.Serves entry i before (.var op slot) →
    op.isStore = true → before.stack = value :: rest → value.isWide = op.isWideStore

def Roomy (a : Analysis) (n : Nat) : Prop :=
  ∀ (i : Nat) (insn : Insn), a.flow.insns[i]? = some insn → insn.room ≤ n

theorem Typed.closed {I : a.Intake} (typed : a.Typed entry) (roomy : a.Roomy entry.locals.length)
    (fit : ∀ s, I.Fit s ↔ s.Fit entry.locals.length) : I.Closed entry where
  start := (fit _).2 ⟨typed.shallow, rfl⟩
  caught i before insn serves held r mem covers := by
    have beforeFit := (fit _).1 held
    refine (fit _).2 ⟨⟨beforeFit.shallow.1, fun t ht => ?_⟩, beforeFit.length⟩
    rw [List.mem_singleton.1 ht]
    exact typed.caught i before insn serves r mem covers
  after i before insn after serves held executed := by
    have beforeFit := (fit _).1 held
    have ⟨_, _, _, _, _, found⟩ := serves
    have inside : insn.Inside before := by
      refine Insn.inside_of_room (beforeFit.length ▸ roomy i insn found) ?_
      rintro op slot value rest rfl store top
      exact typed.width i before op slot value rest serves store top
    exact (fit _).2 ⟨typed.after i before insn after serves beforeFit.shallow executed,
      (MethodSite.length_locals_execute inside executed).trans beforeFit.length⟩

theorem arrive_ok {i : Nat} {current incoming : State} {answer : Option State}
    (arrival : a.arrive i (some current) incoming = .ok answer) :
    current.stack.length = incoming.stack.length ∧ answer.getD current =
      a.hierarchy.sharpened a.hints[i]? (a.hierarchy.joinStates current incoming) := by
  unfold arrive at arrival
  dsimp only at arrival
  split at arrival
  · cases arrival
  rename_i height
  refine ⟨not_not.1 height, ?_⟩
  have new : ∀ pinned : State,
      (Except.ok (if pinned = current then none else some pinned) : Except WriteError _) =
        .ok answer → answer.getD current = pinned := by
    intro pinned same
    cases same
    split
    · exact Eq.symm ‹_›
    · rfl
  exact new _ arrival

def absorption (n : Nat) (noHints : ∀ i : Nat, a.hints[i]? = none) : a.Intake where
  Fit := State.Fit n
  CountsFor _ := a.hierarchy.Absorbs
  refl _ := .refl _
  arrive i current incoming answer currentFit incomingFit arrival := by
    obtain ⟨stack, new⟩ := arrive_ok arrival
    have locals : current.locals.length = incoming.locals.length :=
      currentFit.length.trans incomingFit.length.symm
    rw [new, noHints i]
    show (a.hierarchy.joinStates current incoming).Fit n ∧ _
    refine ⟨⟨?_, ?_⟩, ?_, fun t fit absorbed => ?_⟩
    · exact Hierarchy.shallow_joinStates currentFit.shallow incomingFit.shallow locals stack
    · exact (Hierarchy.length_locals_joinStates locals stack).trans currentFit.length
    · exact Hierarchy.absorbs_joinStates currentFit.shallow incomingFit.shallow locals stack
    · exact absorbed.join currentFit.shallow incomingFit.shallow fit.shallow locals stack

/-- What the flow of a body without frames provides. -/
structure Sound (a : Analysis) (n : Nat) : Prop where
  noHints : ∀ i : Nat, a.hints[i]? = none
  inside : a.flow.Inside
  roomy : a.Roomy n

end Analysis

end ClassWeave
