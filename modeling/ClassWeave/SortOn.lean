/-!
# Sorting by a key

A stable sort: of two items with the same key the earlier one stays in front.
-/

set_option autoImplicit false

namespace ClassWeave

def insertOn {α : Type} (key : α → Int) (a : α) : List α → List α
  | [] => [a]
  | b :: rest => if key a ≤ key b then a :: b :: rest else b :: insertOn key a rest

def sortOn {α : Type} (key : α → Int) : List α → List α
  | [] => []
  | a :: rest => insertOn key a (sortOn key rest)

theorem insertOn_perm {α : Type} (key : α → Int) (a : α) (l : List α) :
    (insertOn key a l).Perm (a :: l) := by
  induction l with
  | nil => exact .refl _
  | cons b rest ih =>
    rw [insertOn]
    split
    · exact .refl _
    · exact (ih.cons b).trans (.swap a b rest)

theorem sortOn_perm {α : Type} (key : α → Int) (l : List α) : (sortOn key l).Perm l := by
  induction l with
  | nil => exact .refl _
  | cons a rest ih => exact (insertOn_perm key a _).trans (ih.cons a)

theorem pairwise_insertOn {α : Type} (key : α → Int) (a : α) {l : List α}
    (sorted : l.Pairwise (key · ≤ key ·)) : (insertOn key a l).Pairwise (key · ≤ key ·) := by
  induction l with
  | nil => simp [insertOn]
  | cons b rest ih =>
    obtain ⟨below, sorted'⟩ := List.pairwise_cons.1 sorted
    rw [insertOn]
    split
    · rename_i le
      refine List.pairwise_cons.2 ⟨fun c mem => ?_, sorted⟩
      rcases List.mem_cons.1 mem with rfl | mem
      · exact le
      · exact Int.le_trans le (below c mem)
    · rename_i not_le
      refine List.pairwise_cons.2 ⟨fun c mem => ?_, ih sorted'⟩
      rcases List.mem_cons.1 ((insertOn_perm key a rest).mem_iff.1 mem) with rfl | mem
      · exact Int.le_of_lt (Int.not_le.1 not_le)
      · exact below c mem

theorem pairwise_sortOn {α : Type} (key : α → Int) (l : List α) :
    (sortOn key l).Pairwise (key · ≤ key ·) := by
  induction l with
  | nil => exact .nil
  | cons a rest ih => exact pairwise_insertOn key a ih

/-- Keeps `a` and drops the items right behind it that have its key, and so on from the next. -/
def dedupAfter {α : Type} (key : α → Int) (a : α) : List α → List α
  | [] => [a]
  | b :: rest => if key a = key b then dedupAfter key a rest else a :: dedupAfter key b rest

def dedupOn {α : Type} (key : α → Int) : List α → List α
  | [] => []
  | a :: rest => dedupAfter key a rest

end ClassWeave
