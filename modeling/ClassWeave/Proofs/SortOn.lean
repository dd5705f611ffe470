import Mathlib.Tactic.Common
import ClassWeave.SortOn

/-!
# Sorted lists without repeated keys
-/

set_option autoImplicit false

namespace ClassWeave

variable {α β : Type} {key : α → Int}

theorem mem_of_mem_dedupAfter {a x : α} {l : List α} (h : x ∈ dedupAfter key a l) :
    x = a ∨ x ∈ l := by
  induction l generalizing a with
  | nil => exact .inl (List.mem_singleton.1 h)
  | cons b rest ih =>
    rw [dedupAfter] at h
    split at h
    · exact (ih h).imp id (List.mem_cons_of_mem b)
    · rcases List.mem_cons.1 h with rfl | h
      · exact .inl rfl
      · right
        rcases ih h with rfl | h
        · exact List.mem_cons_self ..
        · exact List.mem_cons_of_mem b h

theorem mem_of_mem_dedupOn {x : α} {l : List α} (h : x ∈ dedupOn key l) : x ∈ l := by
  cases l with
  | nil => cases h
  | cons a rest =>
    rcases mem_of_mem_dedupAfter h with rfl | h
    · exact List.mem_cons_self ..
    · exact List.mem_cons_of_mem a h

theorem pairwise_dedupAfter {a : α} {l : List α} (h : (a :: l).Pairwise (key · ≤ key ·)) :
    (dedupAfter key a l).Pairwise (key · < key ·) := by
  induction l generalizing a with
  | nil => exact List.pairwise_singleton ..
  | cons b rest ih =>
    obtain ⟨below, sorted⟩ := List.pairwise_cons.1 h
    obtain ⟨above, sorted'⟩ := List.pairwise_cons.1 sorted
    rw [dedupAfter]
    split
    · exact ih (List.pairwise_cons.2 ⟨fun c hc => below c (List.mem_cons_of_mem b hc), sorted'⟩)
    · rename_i differ
      refine List.pairwise_cons.2 ⟨fun c hc => ?_, ih sorted⟩
      have first := below b (List.mem_cons_self ..)
      rcases mem_of_mem_dedupAfter hc with rfl | hc
      · omega
      · have := above c hc
        omega

theorem pairwise_dedupOn {l : List α} (h : l.Pairwise (key · ≤ key ·)) :
    (dedupOn key l).Pairwise (key · < key ·) := by
  cases l with
  | nil => exact .nil
  | cons a rest => exact pairwise_dedupAfter h

theorem dedupAfter_of_pairwise {a : α} {l : List α} (h : (a :: l).Pairwise (key · < key ·)) :
    dedupAfter key a l = a :: l := by
  induction l generalizing a with
  | nil => rfl
  | cons b rest ih =>
    obtain ⟨below, sorted⟩ := List.pairwise_cons.1 h
    have differ : key a ≠ key b := Int.ne_of_lt (below b (List.mem_cons_self ..))
    rw [dedupAfter, if_neg differ, ih sorted]

theorem insertOn_of_le {a : α} {l : List α} (h : ∀ b ∈ l, key a ≤ key b) :
    insertOn key a l = a :: l := by
  cases l with
  | nil => rfl
  | cons b rest => rw [insertOn, if_pos (h b (List.mem_cons_self ..))]

theorem sortOn_of_pairwise {l : List α} (h : l.Pairwise (key · ≤ key ·)) : sortOn key l = l := by
  induction l with
  | nil => rfl
  | cons a rest ih =>
    obtain ⟨below, sorted⟩ := List.pairwise_cons.1 h
    rw [sortOn, ih sorted, insertOn_of_le below]

theorem dedupOn_sortOn_of_pairwise {l : List α} (h : l.Pairwise (key · < key ·)) :
    dedupOn key (sortOn key l) = l := by
  rw [sortOn_of_pairwise (h.imp Int.le_of_lt)]
  cases l with
  | nil => rfl
  | cons a rest => exact dedupAfter_of_pairwise h

theorem length_le_of_ascending {place : α → Nat} {l : List α} {start finish : Nat}
    (ascending : l.Pairwise (place · < place ·)) (from_start : ∀ a ∈ l, start ≤ place a)
    (below : ∀ a ∈ l, place a < finish) (room : start ≤ finish) : start + l.length ≤ finish := by
  induction l generalizing start with
  | nil => exact room
  | cons a l ih =>
    obtain ⟨above, ascending⟩ := List.pairwise_cons.1 ascending
    have here := below a (List.mem_cons_self ..)
    have first := from_start a (List.mem_cons_self ..)
    have rest : place a + 1 + l.length ≤ finish :=
      ih ascending above (fun b hb => below b (List.mem_cons_of_mem a hb)) here
    rw [List.length_cons]
    omega

end ClassWeave
