import ClassWeave.Code
import ClassWeave.Hierarchy

/-!
# Abstract states

The types of the locals and of the operand stack in front of an instruction. Locals are expanded:
a long or double is followed by a `top` in its second slot. The top of the stack comes first.
States meet where paths join: equal types stay, references meet in a common supertype, anything
else becomes `top`.
-/

set_option autoImplicit false

namespace ClassWeave

structure State where
  locals : List VType
  stack : List VType
  deriving DecidableEq, Repr, Inhabited

/-- One slot for each entry and a second one for a wide entry, filled up with `top`. -/
def expandLocals (compressed : List VType) (maxLocals : Nat) : List VType :=
  let slots := compressed.flatMap fun t => if t.isWide then [t, .top] else [t]
  slots ++ List.replicate (maxLocals - slots.length) .top

def dropSecondSlots : List VType → List VType
  | [] => []
  | [t] => [t]
  | t :: u :: rest =>
    if t.isWide then t :: dropSecondSlots rest else t :: dropSecondSlots (u :: rest)

def dropTops (types : List VType) : List VType :=
  (types.reverse.dropWhile (· == .top)).reverse

def compressLocals (locals : List VType) : List VType := dropTops (dropSecondSlots locals)

/-- The brackets of a name, with those of an array that is named in the place of a class. -/
def Hierarchy.brackets : List Char → Nat
  | '[' :: 'L' :: name => brackets name + 1
  | '[' :: element => brackets element + 1
  | _ => 0

def VType.dimensions : VType → Nat
  | .object name => Hierarchy.brackets name.toList
  | _ => 0

def stackSlots (stack : List VType) : Nat := stack.foldl (fun n t => n + t.slots) 0

namespace State

def ofFrame (f : Frame) (maxLocals : Nat) : State :=
  ⟨expandLocals f.locals maxLocals, f.stack.reverse⟩

def toFrame (s : State) : Frame := ⟨compressLocals s.locals, s.stack.reverse⟩

/-- Stores a value in `slot`, and spoils a wide value whose second half this overwrites. -/
def store (s : State) (slot : Nat) (value : VType) : State :=
  let needed := slot + value.slots
  let locals := s.locals ++ List.replicate (needed - s.locals.length) .top
  let spoiled := match slot with
    | 0 => locals
    | before + 1 =>
      if (locals[before]?.map VType.isWide).getD false then locals.set before .top else locals
  let stored := spoiled.set slot value
  { s with locals := if value.isWide then stored.set (slot + 1) .top else stored }

def entries (s : State) : List VType := s.locals ++ s.stack.reverse

def withEntries (s : State) (types : List VType) : State :=
  ⟨types.take s.locals.length, (types.drop s.locals.length).reverse⟩

end State

namespace Hierarchy

/-- The join of two reference types by name. Arrays of classes join in their elements, deeper
arrays one dimension down, and any other two arrays in `java/lang/Object`. -/
def joinChars (h : Hierarchy) (a b : List Char) : List Char :=
  if a = b then a
  else match a, b with
    | '[' :: x, '[' :: y =>
      match objectElement? x, objectElement? y with
      | some c, some d =>
        '[' :: 'L' :: (h.nearestSupertype (String.ofList c) (String.ofList d)).toList ++ [';']
      | _, _ => if isArray x && isArray y then '[' :: joinChars h x y else objectClass.toList
    | '[' :: _, _ | _, '[' :: _ => objectClass.toList
    | _, _ => (h.nearestSupertype (String.ofList a) (String.ofList b)).toList

def joinNames (h : Hierarchy) (a b : String) : String :=
  String.ofList (h.joinChars a.toList b.toList)

def joinTypes (h : Hierarchy) (a b : VType) : VType :=
  if a = b then a
  else match a, b with
    | .null, .object _ => b
    | .object _, .null => a
    | .object x, .object y => .object (h.joinNames x y)
    | _, _ => .top

def sharpenType (h : Hierarchy) (merged hinted : VType) : VType :=
  match merged, hinted with
  | .object known, .object want =>
    if known ≠ want ∧ h.isAssignable known want then hinted else merged
  | _, _ => merged

def meetEntries (f : VType → VType → VType) (mine theirs : List VType) : List VType :=
  List.zipWith f mine theirs ++ mine.drop theirs.length

/-- Takes over the hinted types; those on the stack only if the heights agree. -/
def sharpen (h : Hierarchy) (s hint : State) : State where
  locals := meetEntries h.sharpenType s.locals hint.locals
  stack := if s.stack.length = hint.stack.length
    then meetEntries h.sharpenType s.stack hint.stack else s.stack

def joinStates (h : Hierarchy) (current incoming : State) : State :=
  current.withEntries (meetEntries h.joinTypes current.entries incoming.entries)

end Hierarchy

end ClassWeave
