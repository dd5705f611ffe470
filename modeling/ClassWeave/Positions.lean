import Std.Data.TreeMap
import ClassWeave.WriteError

/-!
# Where labels stand

A map from bound labels to places, which are offsets in bytes or indices of instructions. Of two
bindings of one label the later one counts.
-/

set_option autoImplicit false

namespace ClassWeave

abbrev Positions := Std.TreeMap UInt32 Nat

namespace Positions

def empty : Positions := ∅

def bind (positions : Positions) (label : Label) (place : Nat) : Positions :=
  positions.insert label.number place

def find? (positions : Positions) (label : Label) : Option Nat := positions[label.number]?

@[simp] theorem find?_empty (label : Label) : empty.find? label = none := by
  simp [empty, find?]

theorem find?_bind (positions : Positions) (bound label : Label) (n : Nat) :
    (positions.bind bound n).find? label =
      if bound = label then some n else positions.find? label := by
  rcases bound with ⟨b⟩
  rcases label with ⟨l⟩
  simp [find?, bind, Std.TreeMap.getElem?_insert, Std.LawfulEqCmp.compare_eq_iff_eq]

def place (positions : Positions) (label : Label) : Except WriteError Nat :=
  match positions.find? label with
  | some n => .ok n
  | none => .error (.unboundLabel label)

end Positions

end ClassWeave
