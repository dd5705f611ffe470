import ClassWeave.Bytes

/-!
# Batches of classes

Class files by name, in the order in which the names were first inserted.
-/

set_option autoImplicit false

namespace ClassWeave

structure Batch where
  entries : List (String × Bytes)
  deriving DecidableEq, Repr, Inhabited

namespace Batch

def empty : Batch := ⟨[]⟩

def get? (b : Batch) (name : String) : Option Bytes := b.entries.lookup name

def contains (b : Batch) (name : String) : Bool := (b.get? name).isSome

def names (b : Batch) : List String := b.entries.map Prod.fst

def size (b : Batch) : Nat := b.entries.length

/-- The entries with the bytes of `name` replaced, or with a new entry at the end. -/
def put (name : String) (bytes : Bytes) : List (String × Bytes) → List (String × Bytes)
  | [] => [(name, bytes)]
  | e :: rest => if e.1 == name then (name, bytes) :: rest else e :: put name bytes rest

def insert (b : Batch) (name : String) (bytes : Bytes) : Batch := ⟨put name bytes b.entries⟩

theorem lookup_put (name other : String) (bytes : Bytes) (entries : List (String × Bytes)) :
    (put name bytes entries).lookup other =
      if other = name then some bytes else entries.lookup other := by
  induction entries with
  | nil =>
    by_cases h : other = name
    · simp [put, h]
    · simp [put, List.lookup_cons, beq_false_of_ne h, h]
  | cons e rest ih =>
    obtain ⟨key, old⟩ := e
    by_cases hk : key = name
    · by_cases h : other = name
      · simp [put, hk, h]
      · simp [put, hk, h, List.lookup_cons, beq_false_of_ne h]
    · by_cases h : other = key
      · simp [put, hk, h]
      · simp [put, hk, List.lookup_cons, beq_false_of_ne h, ih]

theorem get?_insert (b : Batch) (name other : String) (bytes : Bytes) :
    (b.insert name bytes).get? other = if other = name then some bytes else b.get? other :=
  lookup_put name other bytes b.entries

theorem map_fst_put (name : String) (bytes : Bytes) (entries : List (String × Bytes)) :
    (put name bytes entries).map Prod.fst =
      if name ∈ entries.map Prod.fst then entries.map Prod.fst
      else entries.map Prod.fst ++ [name] := by
  induction entries with
  | nil => rfl
  | cons e rest ih =>
    obtain ⟨key, old⟩ := e
    by_cases h : key = name
    · simp [put, h]
    · have mem : name ∈ key :: rest.map Prod.fst ↔ name ∈ rest.map Prod.fst := by
        simp [Ne.symm h]
      simp only [put, beq_iff_eq, h, if_false, List.map_cons, ih, mem]
      split <;> rfl

theorem names_insert (b : Batch) (name : String) (bytes : Bytes) :
    (b.insert name bytes).names = if name ∈ b.names then b.names else b.names ++ [name] :=
  map_fst_put name bytes b.entries

def ofList (entries : List (String × Bytes)) : Batch :=
  entries.foldl (fun b e => b.insert e.1 e.2) empty

end Batch

end ClassWeave
