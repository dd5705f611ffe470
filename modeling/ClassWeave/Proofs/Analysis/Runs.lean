import Mathlib.Tactic.Common
import ClassWeave.Analysis.Reframe

/-!
# The live parts of a range

An exception range is cut into the runs of live instructions in it. The runs come in order, with
something dead between any two of them, and nothing live is left out.
-/

set_option autoImplicit false

namespace ClassWeave

/-- The runs of `live` in the interval from `start` up to `finish`, as long as can be, in order.
Each is given with the number behind its last. -/
structure MaximalRuns (live : Nat → Prop) (start finish : Nat) (runs : List (Nat × Nat)) :
    Prop where
  inside : ∀ r ∈ runs, start ≤ r.1 ∧ r.1 < r.2 ∧ r.2 ≤ finish
  alive : ∀ r ∈ runs, ∀ i, r.1 ≤ i → i < r.2 → live i
  maximal : ∀ r ∈ runs, (r.1 = start ∨ ¬ live (r.1 - 1)) ∧ (r.2 = finish ∨ ¬ live r.2)
  ordered : runs.Pairwise fun r q => r.2 < q.1
  complete : ∀ i, start ≤ i → i < finish → live i → ∃ r ∈ runs, r.1 ≤ i ∧ i < r.2

namespace MaximalRuns

variable {live : Nat → Prop} {start finish : Nat} {runs : List (Nat × Nat)}

theorem nil (empty : finish ≤ start) : MaximalRuns live start finish [] where
  inside := List.forall_mem_nil _
  alive := List.forall_mem_nil _
  maximal := List.forall_mem_nil _
  ordered := .nil
  complete i low high := by omega

theorem singleton (nonempty : start < finish)
    (all : ∀ i, start ≤ i → i < finish → live i) :
    MaximalRuns live start finish [(start, finish)] where
  inside r mem := by
    rw [List.mem_singleton.1 mem]
    exact ⟨Nat.le_refl _, nonempty, Nat.le_refl _⟩
  alive r mem := by
    rw [List.mem_singleton.1 mem]
    exact all
  maximal r mem := by
    rw [List.mem_singleton.1 mem]
    exact ⟨.inl rfl, .inl rfl⟩
  ordered := List.pairwise_singleton _ _
  complete i low high _ := ⟨_, List.mem_singleton_self _, low, high⟩

theorem skip (h : MaximalRuns live (start + 1) finish runs) (dead : ¬ live start) :
    MaximalRuns live start finish runs where
  inside r mem := ⟨Nat.le_of_succ_le (h.inside r mem).1, (h.inside r mem).2⟩
  alive := h.alive
  maximal r mem := by
    refine ⟨.inr ?_, (h.maximal r mem).2⟩
    rcases (h.maximal r mem).1 with first | behind
    · rw [first]
      exact dead
    · exact behind
  ordered := h.ordered
  complete i low high alive := by
    refine h.complete i (Nat.lt_of_le_of_ne low ?_) high alive
    rintro rfl
    exact dead alive

theorem cons {middle : Nat} (h : MaximalRuns live (middle + 1) finish runs)
    (nonempty : start < middle) (inside : middle < finish)
    (all : ∀ i, start ≤ i → i < middle → live i) (dead : ¬ live middle) :
    MaximalRuns live start finish ((start, middle) :: runs) where
  inside r mem := by
    rcases List.mem_cons.1 mem with rfl | mem
    · exact ⟨Nat.le_refl _, nonempty, Nat.le_of_lt inside⟩
    · have ⟨low, rest⟩ := h.inside r mem
      exact ⟨by omega, rest⟩
  alive r mem := by
    rcases List.mem_cons.1 mem with rfl | mem
    · exact all
    · exact h.alive r mem
  maximal r mem := by
    rcases List.mem_cons.1 mem with rfl | mem
    · exact ⟨.inl rfl, .inr dead⟩
    · exact ⟨.inr (((h.skip dead).maximal r mem).1.elim
        (fun first => by have := (h.inside r mem).1; omega) id), (h.maximal r mem).2⟩
  ordered := List.pairwise_cons.2 ⟨fun r mem => (h.inside r mem).1, h.ordered⟩
  complete i low high alive := by
    by_cases first : i < middle
    · exact ⟨_, List.mem_cons_self .., low, first⟩
    · have behind : middle + 1 ≤ i := by
        refine Nat.lt_of_le_of_ne (Nat.le_of_not_lt first) ?_
        rintro rfl
        exact dead alive
      obtain ⟨r, mem, covers⟩ := h.complete i behind high alive
      exact ⟨r, List.mem_cons_of_mem _ mem, covers⟩

end MaximalRuns

namespace Reframe

theorem liveRunsFrom_append (live : Nat → Bool) (n i : Nat) (begun : Option Nat)
    (done : List (Nat × Nat)) :
    liveRunsFrom live n i begun done = done.reverse ++ liveRunsFrom live n i begun [] := by
  induction n generalizing i begun done with
  | zero =>
    cases begun with
    | none => exact (List.append_nil _).symm
    | some start => exact List.reverse_cons
  | succ n ih =>
    cases begun with
    | none =>
      simp only [liveRunsFrom]
      split
      · exact ih (i + 1) (some i) done
      · exact ih (i + 1) none done
    | some start =>
      simp only [liveRunsFrom]
      split
      · exact ih (i + 1) (some start) done
      · rw [ih (i + 1) none ((start, i) :: done), ih (i + 1) none [(start, i)], List.reverse_cons,
          List.append_assoc]
        rfl

theorem maximalRuns_liveRunsFrom (live : Nat → Bool) (n i : Nat) :
    (∀ start < i, (∀ j, start ≤ j → j < i → live j = true) →
      MaximalRuns (live · = true) start (i + n) (liveRunsFrom live n i (some start) [])) ∧
    MaximalRuns (live · = true) i (i + n) (liveRunsFrom live n i none []) := by
  induction n generalizing i with
  | zero => exact ⟨fun start open_ all => .singleton open_ all, .nil (Nat.le_refl i)⟩
  | succ n ih =>
    obtain ⟨opened, closed⟩ := ih (i + 1)
    have length : i + (n + 1) = i + 1 + n := by omega
    rw [length]
    constructor
    · intro start nonempty all
      rw [liveRunsFrom]
      split
      · rename_i alive
        refine opened start (Nat.lt_succ_of_lt nonempty) fun j low high => ?_
        rcases Nat.lt_succ_iff_lt_or_eq.1 high with high | rfl
        · exact all j low high
        · exact alive
      · rename_i dead
        rw [liveRunsFrom_append]
        exact .cons closed nonempty (by omega) all dead
    · rw [liveRunsFrom]
      split
      · rename_i alive
        refine opened i (Nat.lt_succ_self i) fun j low high => ?_
        rwa [Nat.le_antisymm (Nat.le_of_lt_succ high) low]
      · rename_i dead
        exact closed.skip dead

theorem maximalRuns_liveRuns (live : Nat → Bool) (start finish : Nat) :
    MaximalRuns (live · = true) start finish (liveRuns live start finish) := by
  have runs := (maximalRuns_liveRunsFrom live (finish - start) start).2
  by_cases ordered : start ≤ finish
  · rwa [Nat.add_sub_of_le ordered] at runs
  · have none : finish - start = 0 := by omega
    rw [liveRuns, none]
    exact .nil (Nat.le_of_not_le ordered)

end Reframe

end ClassWeave
