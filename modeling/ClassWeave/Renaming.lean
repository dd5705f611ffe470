import ClassWeave.ClassFile

/-!
# Renaming references

A renaming says what classes, fields and methods are called elsewhere. Of two rules for one name
the later one counts. Descriptors are rewritten as text: whatever stands between an `L` and the
next semicolon is a class name.
-/

set_option autoImplicit false

namespace ClassWeave

/-- The rules added last come first. -/
structure Renaming where
  classes : List (String × String)
  fields : List ((String × String) × MemberRef)
  methods : List (MemberRef × (String × String))
  owners : List ((String × String) × String)
  deriving DecidableEq, Repr, Inhabited

namespace Renaming

def empty : Renaming := ⟨[], [], [], []⟩

def isEmpty (r : Renaming) : Bool :=
  r.classes.isEmpty && r.fields.isEmpty && r.methods.isEmpty && r.owners.isEmpty

def renameClass (r : Renaming) (name target : String) : Renaming :=
  if name = target then r else { r with classes := (name, target) :: r.classes }

def redirectField (r : Renaming) (owner name : String) (target : MemberRef) : Renaming :=
  { r with fields := ((owner, name), target) :: r.fields }

def redirectMethod (r : Renaming) (method : MemberRef) (owner name : String) : Renaming :=
  { r with methods := (method, (owner, name)) :: r.methods }

def redirectOwner (r : Renaming) (owner name target : String) : Renaming :=
  { r with owners := ((owner, name), target) :: r.owners }

def plainName (r : Renaming) (name : List Char) : List Char :=
  match r.classes.lookup (String.ofList name) with
  | some target => target.toList
  | none => name

/-- Rewrites descriptor text. A class name that starts like an array is descriptor text itself. -/
def descChars (r : Renaming) (cs : List Char) : List Char :=
  let head := cs.takeWhile (· ≠ 'L')
  match _found : cs.dropWhile (· ≠ 'L') with
  | [] => head
  | mark :: tail =>
    let name := tail.takeWhile (· ≠ ';')
    match _closed : tail.dropWhile (· ≠ ';') with
    | [] => head ++ mark :: tail
    | semicolon :: rest =>
      let target := if name.head? = some '[' then descChars r name else r.plainName name
      head ++ mark :: target ++ semicolon :: descChars r rest
termination_by cs.length
decreasing_by
  all_goals
    have tail_lt := _found ▸ (List.dropWhile_sublist (l := cs) _).length_le
    have rest_lt := _closed ▸ (List.dropWhile_sublist (l := tail) _).length_le
    have name_le := (List.takeWhile_sublist (l := tail) (· ≠ ';')).length_le
    simp only [List.length_cons] at tail_lt rest_lt
  · exact Nat.lt_of_le_of_lt name_le tail_lt
  · omega

def desc (r : Renaming) (text : String) : String := String.ofList (r.descChars text.toList)

def className (r : Renaming) (name : String) : String :=
  if name.toList.head? = some '[' then r.desc name
  else String.ofList (r.plainName name.toList)

def redirect (r : Renaming) (m : MemberRef) : String × String :=
  match r.methods.lookup m with
  | some target => target
  | none =>
    match r.owners.lookup (m.owner, m.name) with
    | some owner => (owner, m.name)
    | none => (r.className m.owner, m.name)

def method (r : Renaming) (m : MemberRef) : MemberRef :=
  let (owner, name) := r.redirect m
  ⟨owner, name, r.desc m.desc⟩

def field (r : Renaming) (m : MemberRef) : MemberRef :=
  match r.fields.lookup (m.owner, m.name) with
  | some target => target
  | none => ⟨r.className m.owner, m.name, r.desc m.desc⟩

def handle (r : Renaming) (h : Handle) : Handle :=
  { h with member := if h.isField then r.field h.member else r.method h.member }

mutual

def loadable (r : Renaming) : Loadable → Loadable
  | .type name => .type (r.className name)
  | .methodType d => .methodType (r.desc d)
  | .handle h => .handle (r.handle h)
  | .dynamic name d h args => .dynamic name (r.desc d) (r.handle h) (loadables r args)
  | value => value

def loadables (r : Renaming) : List Loadable → List Loadable
  | [] => []
  | value :: rest => loadable r value :: loadables r rest

end

def bootstrap (r : Renaming) (b : Bootstrap) : Bootstrap :=
  ⟨r.handle b.handle, r.loadables b.args⟩

def insn (r : Renaming) (i : Insn) : Insn :=
  match i with
  | .typeOp op name => .typeOp op (r.className name)
  | .field op m => .field op (r.field m)
  | .method op m ofInterface => .method op (r.method m) ofInterface
  | .callSite name d b => .callSite name (r.desc d) (r.bootstrap b)
  | .newArrays name dims => .newArrays (r.className name) dims
  | .ldc value => .ldc (r.loadable value)
  | _ => i

def vtype (r : Renaming) (t : VType) : VType :=
  match t with
  | .object name => .object (r.className name)
  | _ => t

def frame (r : Renaming) (f : LabelledFrame) : LabelledFrame :=
  (f.1, ⟨f.2.locals.map r.vtype, f.2.stack.map r.vtype⟩)

/-- Rewrites a body with its frames. Signatures of local variables cannot be rewritten and are
dropped. -/
def code (r : Renaming) (c : Code) : Code :=
  { c with
    insns := c.insns.map r.insn
    handlers := c.handlers.map fun h => { h with catchType := h.catchType.map r.className }
    locals := (c.locals.filter fun v => !v.generic).map fun v => { v with desc := r.desc v.desc }
    frames := c.frames.map (·.map r.frame)
    hints := c.hints.map r.frame }

/-- A copy of a method for another class. Raw attributes are dropped, since they point into the
pool of the class they came from. -/
def rehome (r : Renaming) (m : Method) : Method where
  access := m.access
  name := m.name
  desc := r.desc m.desc
  code := m.code.map fun c => (r.code c).markStale
  attributes := []

end Renaming

end ClassWeave
