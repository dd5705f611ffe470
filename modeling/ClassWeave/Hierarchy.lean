import Std.Data.TreeMap
import ClassWeave.Header

/-!
# The type hierarchy

Superclass and interface edges of a batch of classes, with library headers behind them for names
outside the batch. The headers come from anywhere: names may be unknown and links may run in
circles, so a search remembers what it has seen. A class without a header is assignable to itself
and to `java/lang/Object`.
-/

set_option autoImplicit false

namespace ClassWeave

abbrev HeaderMap := Std.TreeMap String Header

structure Hierarchy where
  classes : HeaderMap
  library : HeaderMap
  deriving Inhabited

namespace Hierarchy

def empty : Hierarchy := ⟨∅, ∅⟩

def insert (h : Hierarchy) (header : Header) : Hierarchy :=
  { h with classes := h.classes.insert header.name header }

def backedBy (h : Hierarchy) (library : HeaderMap) : Hierarchy := { h with library := library }

def size (h : Hierarchy) : Nat := h.classes.size
def isEmpty (h : Hierarchy) : Bool := h.classes.isEmpty

def header? (h : Hierarchy) (name : String) : Option Header :=
  match h.classes[name]? with
  | some header => some header
  | none => h.library[name]?

def isInterface (h : Hierarchy) (name : String) : Bool :=
  match h.header? name with
  | some header => header.isInterface
  | none => false

def superclassOf (h : Hierarchy) (name : String) : Option String :=
  match h.header? name with
  | some header => header.superName
  | none => if name == objectClass then none else some objectClass

def supertypes (header : Header) : List String := header.superName.toList ++ header.interfaces

/-- How many names a search can meet: those that lead somewhere are expanded once each. -/
def searchBound (h : Hierarchy) : Nat :=
  let edges := fun (headers : HeaderMap) =>
    headers.foldl (fun n _ header => n + 1 + (supertypes header).length) 0
  edges h.classes + edges h.library + 2

def reaches (h : Hierarchy) (goal : String) : Nat → List String → List String → Bool
  | 0, _, _ => false
  | _ + 1, _, [] => false
  | fuel + 1, seen, name :: queue =>
    if name == goal then true
    else if seen.contains name then reaches h goal fuel seen queue
    else match h.header? name with
      | some header => reaches h goal fuel (name :: seen) (queue ++ supertypes header)
      | none => reaches h goal fuel (name :: seen) queue

def objectElement? (cs : List Char) : Option (List Char) :=
  match cs with
  | 'L' :: rest => if rest.getLast? = some ';' then some rest.dropLast else none
  | _ => none

def isArray (cs : List Char) : Bool := cs.head? == some '['

theorem length_lt_of_objectElement {cs element : List Char}
    (h : objectElement? cs = some element) : element.length < cs.length := by
  unfold objectElement? at h
  split at h
  · split at h
    · cases h
      rw [List.length_dropLast, List.length_cons]
      exact Nat.lt_succ_of_le (Nat.sub_le _ _)
    · cases h
  · cases h

/-- Assignability of names as lists of characters. Each step into an array shortens the names. -/
def assignable (h : Hierarchy) (wanted given : List Char) : Bool :=
  if wanted = given ∨ wanted = objectClass.toList then true
  else match wanted, given with
    | '[' :: wanted, '[' :: given =>
      match _ : objectElement? wanted, objectElement? given with
      | some wanted, some given => assignable h wanted given
      | some wanted, none => if isArray given then assignable h wanted given else false
      | none, none =>
        if isArray wanted && isArray given then assignable h wanted given else wanted == given
      | none, some _ => false
    | '[' :: _, _ => false
    | _, '[' :: _ =>
      wanted == "java/lang/Cloneable".toList || wanted == "java/io/Serializable".toList
    | _, _ => h.reaches (String.ofList wanted) h.searchBound [] [String.ofList given]
termination_by wanted.length
decreasing_by
  all_goals rw [List.length_cons]
  · exact Nat.lt_succ_of_lt (length_lt_of_objectElement ‹_›)
  · exact Nat.lt_succ_of_lt (length_lt_of_objectElement ‹_›)
  · exact Nat.lt_succ_self _

/-- Whether a value of type `given` can be stored where `wanted` is expected. Arrays are covariant
on reference elements; primitive elements have to agree. -/
def isAssignable (h : Hierarchy) (wanted given : String) : Bool :=
  h.assignable wanted.toList given.toList

def firstCommon (h : Hierarchy) (b : String) : Nat → List String → Option String → String
  | 0, _, _ => objectClass
  | _ + 1, _, none => objectClass
  | fuel + 1, seen, some candidate =>
    if seen.contains candidate then objectClass
    else if h.isAssignable candidate b then candidate
    else firstCommon h b fuel (candidate :: seen) (h.superclassOf candidate)

/-- The most specific class that both are assignable to; for interfaces and unknown classes
`java/lang/Object`. -/
def nearestSupertype (h : Hierarchy) (a b : String) : String :=
  if h.isAssignable a b then a
  else if h.isAssignable b a then b
  else if h.isInterface a || h.isInterface b then objectClass
  else h.firstCommon b (h.classes.size + h.library.size + 3) [] (h.superclassOf a)

end Hierarchy

end ClassWeave
