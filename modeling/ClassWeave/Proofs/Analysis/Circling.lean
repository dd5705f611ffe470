import Mathlib.Tactic.Common
import ClassWeave.Proofs.Analysis.Termination

/-!
# Work lists that never end

Serving an instruction puts others on top of the work list and never looks at what lies below. So a
work list that comes back to the states it had, with the same instruction on top, goes on for ever.
That happens when a class has the name of an array and is in a circle with its own superclass: the
array of one of the two joins to the array of the other, and the other way round.
-/

set_option autoImplicit false

namespace ClassWeave

namespace Analysis

variable {a : Analysis} {states states' : States} {work work' rest : List Nat}
  {i k steps fuel maxStack : Nat} {outcome : Except WriteError Progress}

theorem deliver_append {incoming : State}
    (run : a.deliver states work i incoming = .ok (states', work')) :
    a.deliver states (work ++ rest) i incoming = .ok (states', work' ++ rest) := by
  obtain ⟨answer, arrival, run⟩ := bind_ok_iff.1 run
  refine bind_ok_iff.2 ⟨answer, arrival, ?_⟩
  cases answer <;> cases run <;> rfl

theorem deliverToHandlers_append {before : State} {ranges : List HandlerRange}
    (run : a.deliverToHandlers i before ranges states work = .ok (states', work')) :
    a.deliverToHandlers i before ranges states (work ++ rest) = .ok (states', work' ++ rest) := by
  induction ranges generalizing states work with
  | nil =>
    cases run
    rfl
  | cons r ranges ih =>
    rw [deliverToHandlers] at run ⊢
    split at run
    · rename_i covered
      obtain ⟨⟨next, queue⟩, first, run⟩ := bind_ok_iff.1 run
      rw [if_pos covered]
      exact bind_ok_iff.2 ⟨_, deliver_append first, ih run⟩
    · rename_i apart
      rw [if_neg apart]
      exact ih run

theorem deliverToSuccessors_append {after : State} {targets : List Nat}
    (run : a.deliverToSuccessors after targets states work = .ok (states', work')) :
    a.deliverToSuccessors after targets states (work ++ rest) =
      .ok (states', work' ++ rest) := by
  induction targets generalizing states work with
  | nil =>
    cases run
    rfl
  | cons t targets ih =>
    rw [deliverToSuccessors] at run ⊢
    split at run
    · cases run
    · rename_i inside
      obtain ⟨⟨next, queue⟩, first, run⟩ := bind_ok_iff.1 run
      rw [if_neg inside]
      exact bind_ok_iff.2 ⟨_, deliver_append first, ih run⟩

theorem serve_append {before : State} {insn : Insn} {p : Progress}
    (run : a.serve i before insn states work maxStack = .ok p) :
    a.serve i before insn states (work ++ rest) maxStack =
      .ok { p with work := p.work ++ rest } := by
  obtain ⟨⟨between, queue⟩, handlers, run⟩ := bind_ok_iff.1 run
  obtain ⟨after, executed, run⟩ := bind_ok_iff.1 run
  obtain ⟨targets, found, run⟩ := bind_ok_iff.1 run
  obtain ⟨⟨states', work'⟩, successors, run⟩ := bind_ok_iff.1 run
  cases run
  refine bind_ok_iff.2 ⟨_, deliverToHandlers_append handlers, bind_ok_iff.2 ⟨after, executed, ?_⟩⟩
  exact bind_ok_iff.2 ⟨targets, found,
    bind_ok_iff.2 ⟨_, deliverToSuccessors_append successors, rfl⟩⟩

def advance (a : Analysis) : Nat → Progress → Option Progress
  | 0, p => some p
  | _ + 1, ⟨_, [], _⟩ => none
  | k + 1, ⟨states, i :: work, maxStack⟩ =>
    match stateAt states i, a.flow.insns[i]? with
    | some before, some insn =>
      match a.serve i before insn states work maxStack with
      | .ok p => advance a k p
      | .error _ => none
    | _, _ => advance a k ⟨states, work, maxStack⟩

theorem advance_succ {q : Progress}
    (run : a.advance (k + 1) ⟨states, work, maxStack⟩ = some q) :
    ∃ i below, work = i :: below ∧
      ((∃ before insn p, stateAt states i = some before ∧ a.flow.insns[i]? = some insn ∧
          a.serve i before insn states below maxStack = .ok p ∧ a.advance k p = some q) ∨
        ((stateAt states i = none ∨ a.flow.insns[i]? = none) ∧
          a.advance k ⟨states, below, maxStack⟩ = some q)) := by
  cases work with
  | nil => cases run
  | cons i below =>
    refine ⟨i, below, rfl, ?_⟩
    rw [advance] at run
    cases known : stateAt states i with
    | none =>
      rw [known] at run
      exact .inr ⟨.inl rfl, run⟩
    | some before =>
      cases found : a.flow.insns[i]? with
      | none =>
        rw [known, found] at run
        exact .inr ⟨.inr rfl, run⟩
      | some insn =>
        rw [known, found] at run
        dsimp only at run
        split at run
        · rename_i p served
          exact .inl ⟨before, insn, p, rfl, rfl, served, run⟩
        · cases run

theorem advance_append {p q : Progress} (run : a.advance k p = some q) :
    a.advance k { p with work := p.work ++ rest } = some { q with work := q.work ++ rest } := by
  induction k generalizing p with
  | zero =>
    cases run
    rfl
  | succ k ih =>
    obtain ⟨states, work, maxStack⟩ := p
    obtain ⟨i, below, rfl, step⟩ := advance_succ run
    show advance a (k + 1) ⟨states, i :: (below ++ rest), maxStack⟩ = _
    rw [advance]
    rcases step with ⟨before, insn, p, known, found, served, more⟩ | ⟨nothing, more⟩
    · rw [known, found]
      dsimp only
      rw [serve_append served]
      exact ih more
    · rcases nothing with unknown | missing
      · rw [unknown]
        exact ih more
      · rw [missing]
        cases stateAt states i <;> exact ih more

theorem ends_of_advance {p q : Progress} (run : a.advance k p = some q)
    (ends : a.Ends steps p.states p.work p.maxStack outcome) :
    ∃ left, steps = k + left ∧ a.Ends left q.states q.work q.maxStack outcome := by
  induction k generalizing p steps with
  | zero =>
    cases run
    exact ⟨steps, (Nat.zero_add steps).symm, ends⟩
  | succ k ih =>
    obtain ⟨states, work, maxStack⟩ := p
    obtain ⟨i, below, rfl, step⟩ := advance_succ run
    rcases step with ⟨before, insn, p, known, found, served, more⟩ | ⟨nothing, more⟩
    · cases ends with
      | failed known' found' fails =>
        cases known.symm.trans known'
        cases found.symm.trans found'
        cases served.symm.trans fails
      | served known' found' served' behind =>
        cases known.symm.trans known'
        cases found.symm.trans found'
        cases served.symm.trans served'
        obtain ⟨left, count, ends⟩ := ih more behind
        exact ⟨left, by omega, ends⟩
      | skipped nothing _ =>
        rcases nothing with unknown | missing
        · cases known.symm.trans unknown
        · cases found.symm.trans missing
    · cases ends with
      | failed known found _ =>
        rcases nothing with unknown | missing
        · cases known.symm.trans unknown
        · cases found.symm.trans missing
      | served known found _ _ =>
        rcases nothing with unknown | missing
        · cases known.symm.trans unknown
        · cases found.symm.trans missing
      | skipped _ behind =>
        obtain ⟨left, count, ends⟩ := ih more behind
        exact ⟨left, by omega, ends⟩

theorem not_ends_of_circle {below : List Nat}
    (circle : a.advance (k + 1) ⟨states, work, maxStack⟩ = some ⟨states, work ++ below, maxStack⟩) :
    ¬ a.Ends steps states (work ++ rest) maxStack outcome := by
  intro ends
  induction steps using Nat.strong_induction_on generalizing rest with
  | _ steps ih =>
    obtain ⟨left, count, behind⟩ := ends_of_advance (advance_append circle) ends
    have deeper : a.Ends left states (work ++ (below ++ rest)) maxStack outcome := by
      rw [← List.append_assoc]
      exact behind
    exact ih left (by omega) deeper

/-- What the run gets to after `n` entries of the work list, it gets to again after `k` more, with
the same instruction on top and more below it. -/
def circlesAfter (a : Analysis) (n k : Nat) (p : Progress) : Bool :=
  (a.advance n p).any fun q =>
    (a.advance k { q with work := q.work.take 1 }).any fun r =>
      r.states = q.states ∧ r.maxStack = q.maxStack ∧ q.work.take 1 <+: r.work

theorem not_ends_of_circlesAfter {p : Progress} {n : Nat}
    (circles : a.circlesAfter n (k + 1) p = true) :
    ¬ a.Ends steps p.states p.work p.maxStack outcome := by
  intro ends
  obtain ⟨q, reaches, circles⟩ := (Option.any_eq_true ..).1 circles
  obtain ⟨r, circle, same⟩ := (Option.any_eq_true ..).1 circles
  obtain ⟨states, maxStack, below, work⟩ := of_decide_eq_true same
  obtain ⟨left, _, behind⟩ := ends_of_advance reaches ends
  have back : a.advance (k + 1) ⟨q.states, q.work.take 1, q.maxStack⟩ =
      some ⟨q.states, q.work.take 1 ++ below, q.maxStack⟩ := by
    rw [circle, ← states, ← maxStack, work]
  rw [← List.take_append_drop 1 q.work] at behind
  exact not_ends_of_circle back behind

end Analysis

/-- Each of the two is the superclass of the other, and one of them has the name of an array. -/
def Hierarchy.twisted : Hierarchy :=
  (Hierarchy.empty.insert ⟨"[p", some "q", [], false⟩).insert ⟨"q", some "[p", [], false⟩

def swapLoop : List Insn :=
  [.label ⟨0⟩, .var Opcode.aload 0, .var Opcode.aload 1, .var Opcode.astore 0,
    .var Opcode.astore 1, .jump Opcode.goto ⟨0⟩]

def swapMethod : Method := ⟨⟨9⟩, "swap", "([Lq;[L[p;)V", some (Code.ofInsns swapLoop), []⟩

theorem endless_swapMethod : ∃ p,
    Reframe.prepare Hierarchy.twisted "x" swapMethod (Code.ofInsns swapLoop) = .ok p ∧
    (Code.ofInsns swapLoop).frames.getD [] = [] ∧ (Code.ofInsns swapLoop).hints = [] ∧
    ∀ steps outcome, ¬ p.analysis.Ends steps (p.analysis.entered p.entry) [0] 0 outcome := by
  have computed : ((Reframe.prepare Hierarchy.twisted "x" swapMethod
      (Code.ofInsns swapLoop)).toOption.any fun p =>
        p.analysis.circlesAfter 5 10 ⟨p.analysis.entered p.entry, [0], 0⟩) = true := by
    decide +kernel
  obtain ⟨p, made, circles⟩ := exists_ok_of_any computed
  refine ⟨p, made, rfl, rfl, fun steps outcome => ?_⟩
  exact Analysis.not_ends_of_circlesAfter (k := 9) circles

end ClassWeave
