import Mathlib.Data.List.Forall2
import Mathlib.Tactic.Common
import ClassWeave.Indexed

/-!
# Lookup in an indexed list

The index is described by the items alone: a key leads to the least position that holds it.
-/

set_option autoImplicit false

namespace ClassWeave.Indexed

variable {α : Type} {key : α → Option (List Nat)}

theorem getElem?_enter (index : KeyIndex) (i : Nat) (a : α) (k : List Nat) :
    (enter key index i a)[k]? = if key a = some k then some (index[k]?.getD i) else index[k]? := by
  unfold enter
  rcases ha : key a with _ | k'
  · simp
  · simp only [Std.TreeMap.getElem?_insertIfNew, Option.some.injEq,
      Std.LawfulEqCmp.compare_eq_iff_eq]
    by_cases same : k' = k
    · subst same
      by_cases known : k' ∈ index
      · simp [known]
      · simp [known]
    · simp [same]

theorem getElem?_indexFrom (index : KeyIndex) (i : Nat) (as : List α) (k : List Nat) :
    (indexFrom key index i as)[k]? =
      index[k]?.or ((as.findIdx? fun a => key a == some k).map (i + ·)) := by
  induction as generalizing index i with
  | nil => simp [indexFrom]
  | cons a as ih =>
    rw [indexFrom, ih, getElem?_enter, List.findIdx?_cons]
    by_cases ha : key a = some k
    · rcases index[k]? with _ | n <;> simp [ha]
    · rcases index[k]? with _ | n
      · simp [ha, Option.map_map, Function.comp_def, Nat.add_comm, Nat.add_left_comm]
      · simp [ha]

theorem find?_eq (t : Indexed α key) (k : List Nat) :
    t.find? k = t.toList.findIdx? fun a => key a == some k := by
  rw [find?, t.index_eq, getElem?_indexFrom]
  simp [toList]

theorem get?_eq (t : Indexed α key) (i : Nat) : t.get? i = t.toList[i]? := by
  simp [get?, toList]

@[simp] theorem size_eq (t : Indexed α key) : t.size = t.toList.length := by
  simp [size, toList]

theorem get?_of_find? {t : Indexed α key} {k : List Nat} {i : Nat} (h : t.find? k = some i) :
    ∃ a, t.get? i = some a ∧ key a = some k := by
  rw [find?_eq, List.findIdx?_eq_some_iff_getElem] at h
  obtain ⟨hi, hk, _⟩ := h
  refine ⟨t.toList[i], ?_, by simpa using hk⟩
  rw [get?_eq, List.getElem?_eq_getElem hi]

theorem lt_of_find? {t : Indexed α key} {k : List Nat} {i : Nat} (h : t.find? k = some i) :
    i < t.toList.length := by
  rw [find?_eq, List.findIdx?_eq_some_iff_getElem] at h
  exact h.1

def Grown (s t : Indexed α key) : Prop := s.toList <+: t.toList

theorem Grown.refl (s : Indexed α key) : s.Grown s := List.prefix_refl _

theorem Grown.trans {s t u : Indexed α key} (h : s.Grown t) (h' : t.Grown u) : s.Grown u :=
  List.IsPrefix.trans h h'

theorem Grown.get? {s t : Indexed α key} (h : s.Grown t) {i : Nat} {a : α}
    (hs : s.get? i = some a) : t.get? i = some a := by
  obtain ⟨rest, hrest⟩ := h
  rw [get?_eq] at hs ⊢
  obtain ⟨hi, _⟩ := List.getElem?_eq_some_iff.1 hs
  rw [← hrest, List.getElem?_append_left hi]
  exact hs

theorem Grown.find? {s t : Indexed α key} (h : s.Grown t) {k : List Nat} {i : Nat}
    (hs : s.find? k = some i) : t.find? k = some i := by
  obtain ⟨rest, hrest⟩ := h
  rw [find?_eq] at hs ⊢
  rw [← hrest, List.findIdx?_append, hs]
  rfl

theorem grown_push (t : Indexed α key) (a : α) : t.Grown (t.push a) := by
  rw [Grown, toList_push]
  exact List.prefix_append _ _

end ClassWeave.Indexed
