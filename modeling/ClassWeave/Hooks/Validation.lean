import ClassWeave.Hooks
import ClassWeave.Listing
import ClassWeave.Multiplier

/-!
# Checking hook tables

`HookFile.problems` names everything that would stop a mixin from resolving, in the order in which
it is written down. `HookTable.summary` counts what a table holds.
-/

set_option autoImplicit false

namespace ClassWeave

inductive HookProblem where
  | repeatedClass (name : String)
  | repeatedField (owner name : String)
  | repeatedMethod (owner name : String)
  | staticFieldOwner (name : String)
  | staticMethodOwner (name : String)
  | fieldDescriptor (owner name : String) (cause : FormatError)
  | methodDescriptor (owner name : String) (cause : FormatError)
  | multiplierType (owner name : String) (multiplier : Int64) (type : FieldType)
  | noInverse (owner name : String) (multiplier : Int64)
  deriving DecidableEq, Repr

def HookProblem.message : HookProblem → String
  | .repeatedClass name => s!"class hook {name} is declared twice"
  | .repeatedField owner name => s!"field hook {owner}.{name} is declared twice"
  | .repeatedMethod owner name => s!"method hook {owner}.{name} is declared twice"
  | .staticFieldOwner name => s!"static field hook {name} has no owner"
  | .staticMethodOwner name => s!"static method hook {name} has no owner"
  | .fieldDescriptor owner name cause => s!"field hook {owner}.{name}: " ++ cause.message
  | .methodDescriptor owner name cause => s!"method hook {owner}.{name}: " ++ cause.message
  | .multiplierType owner name multiplier type =>
    s!"field hook {owner}.{name} has multiplier {multiplier} on type " ++ type.text
  | .noInverse owner name multiplier =>
    s!"field hook {owner}.{name} has multiplier {multiplier} with no inverse"

namespace HookFile

def staticOwner : String := "<static>"

/-- An int multiplier has to be an int itself. -/
def hasInverse32 (m : Int64) : Bool :=
  if -2147483648 ≤ m ∧ m ≤ 2147483647 then (Multiplier.inverse32 m.toInt32).isSome else false

def fieldProblems (owner : String) (f : FieldHook) : List HookProblem :=
  match FieldType.parse f.desc with
  | .error cause => [.fieldDescriptor owner f.name cause]
  | .ok type =>
    match f.multiplier with
    | none => []
    | some m =>
      match type with
      | .int => if hasInverse32 m then [] else [.noInverse owner f.name m]
      | .long => if (Multiplier.inverse64 m).isSome then [] else [.noInverse owner f.name m]
      | _ => [.multiplierType owner f.name m type]

def methodProblems (owner : String) (m : MethodHook) : List HookProblem :=
  match MethodDescriptor.parse m.desc with
  | .error cause => [.methodDescriptor owner m.name cause]
  | .ok _ => []

/-- The problems of each item in turn, behind a complaint where the name came before. -/
def inTurn {α : Type} (name : α → String) (repeated : α → HookProblem)
    (problems : α → List HookProblem) : List String → List α → List HookProblem
  | _, [] => []
  | seen, a :: rest =>
    (if seen.contains (name a) then [repeated a] else []) ++ problems a ++
      inTurn name repeated problems (name a :: seen) rest

def classProblems (h : ClassHook) : List HookProblem :=
  inTurn FieldHook.name (fun f => .repeatedField h.name f.name) (fieldProblems h.name) []
      h.fields ++
    inTurn MethodHook.name (fun m => .repeatedMethod h.name m.name) (methodProblems h.name) []
      h.methods

def problems (file : HookFile) : List HookProblem :=
  inTurn ClassHook.name (fun h => .repeatedClass h.name) classProblems [] file.classes ++
    file.staticFields.flatMap (fun f =>
      (if f.owner.isEmpty then [.staticFieldOwner f.name] else []) ++
        fieldProblems staticOwner f) ++
    file.staticMethods.flatMap fun m =>
      (if m.owner.isEmpty then [.staticMethodOwner m.name] else []) ++
        methodProblems staticOwner m

end HookFile

namespace HookTable

def classLine (h : ClassHook) : String :=
  let multiplied := (h.fields.filter fun f => f.multiplier.isSome).length
  Listing.padRight 24 h.name ++ " -> " ++ Listing.padRight 8 h.obfName ++
    s!" {h.fields.length} fields ({multiplied} multiplied), {h.methods.length} methods\n"

def summary (t : HookTable) : String :=
  String.join (t.classes.values.map classLine) ++
    s!"{t.classes.size} classes, {t.staticFields.size} static fields, " ++
    s!"{t.staticMethods.size} static methods\n"

end HookTable

end ClassWeave
