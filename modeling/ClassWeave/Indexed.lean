import Std.Data.TreeMap

/-!
# Lists with an index

An `Indexed` list keeps its items in the order in which they came and finds an item by its key at
the least position that holds it. Items without a key are never found. The index is a function of
the items, so two lists with the same items are equal.
-/

set_option autoImplicit false

namespace ClassWeave

abbrev KeyIndex := Std.TreeMap (List Nat) Nat

namespace Indexed

def enter {α : Type} (key : α → Option (List Nat)) (index : KeyIndex) (i : Nat) (a : α) :
    KeyIndex :=
  match key a with
  | some k => index.insertIfNew k i
  | none => index

def indexFrom {α : Type} (key : α → Option (List Nat)) : KeyIndex → Nat → List α → KeyIndex
  | index, _, [] => index
  | index, i, a :: rest => indexFrom key (enter key index i a) (i + 1) rest

theorem indexFrom_append {α : Type} (key : α → Option (List Nat)) (index : KeyIndex) (i : Nat)
    (as bs : List α) :
    indexFrom key index i (as ++ bs) =
      indexFrom key (indexFrom key index i as) (i + as.length) bs := by
  induction as generalizing index i with
  | nil => rfl
  | cons a as ih =>
    rw [List.cons_append, indexFrom, ih, indexFrom, List.length_cons]
    congr 1
    omega

end Indexed

structure Indexed (α : Type) (key : α → Option (List Nat)) where
  items : Array α
  index : KeyIndex
  index_eq : index = Indexed.indexFrom key ∅ 0 items.toList

namespace Indexed

variable {α : Type} {key : α → Option (List Nat)}

def empty : Indexed α key := ⟨#[], ∅, rfl⟩

instance : Inhabited (Indexed α key) := ⟨empty⟩

def size (t : Indexed α key) : Nat := t.items.size

def toList (t : Indexed α key) : List α := t.items.toList

def push (t : Indexed α key) (a : α) : Indexed α key :=
  match t with
  | ⟨items, index, index_eq⟩ =>
    let size := items.size
    ⟨items.push a, enter key index size a, by
      rw [Array.toList_push, indexFrom_append, ← index_eq]
      simp [indexFrom, size]⟩

/-- The least position of an item with key `k`. -/
def find? (t : Indexed α key) (k : List Nat) : Option Nat := t.index[k]?

def get? (t : Indexed α key) (i : Nat) : Option α := t.items[i]?

@[simp] theorem toList_empty : (empty : Indexed α key).toList = [] := rfl

@[simp] theorem toList_push (t : Indexed α key) (a : α) :
    (t.push a).toList = t.toList ++ [a] := by
  simp [push, toList]

theorem ext_toList {s t : Indexed α key} (h : s.toList = t.toList) : s = t := by
  obtain ⟨⟨items⟩, index, rfl⟩ := s
  obtain ⟨⟨items'⟩, index', rfl⟩ := t
  simp only [toList] at h
  subst h
  rfl

instance [DecidableEq α] : DecidableEq (Indexed α key) := fun s t =>
  decidable_of_iff (s.toList = t.toList) ⟨ext_toList, fun h => h ▸ rfl⟩

end Indexed

end ClassWeave
