import ClassWeave.Batch
import ClassWeave.Hierarchy
import ClassWeave.Renaming
import ClassWeave.Synthesis

/-!
# Edits of a class

One constructor for each kind of edit, with what it is told. An edit reads the other classes of
its batch and the hierarchy from a context that does not change while it runs.
-/

set_option autoImplicit false

namespace ClassWeave

inductive Placement where
  | before
  | after
  deriving DecidableEq, Repr

inductive CallbackTarget where
  | method (name desc : String)
  /-- Every constructor whose first parameters are those of the callback. -/
  | constructors
  deriving DecidableEq, Repr

structure Callback where
  target : CallbackTarget
  placement : Placement
  /-- The result of the callback takes the place of the method's own. -/
  replacesResult : Bool
  method : MemberRef
  invoke : Opcode
  deriving DecidableEq, Repr

inductive Edit where
  | addInterface (name : String)
  | addField (access : Access) (name desc : String)
  /-- A method that returns a field, multiplied where a factor is given. -/
  | addGetter (method desc : String) (field : MemberRef) (isStatic : Bool) (factor : Option Int64)
  | addSetter (method desc : String) (field : MemberRef) (isStatic : Bool) (factor : Option Int64)
  /-- A method that passes its arguments on, with a constant behind them where one is given. -/
  | addInvoker (method desc : String) (target : MemberRef) (dummy : Option Int64)
  | injectCallback (callback : Callback)
  /-- Copies methods of another class, and the synthetic ones their handles point at. -/
  | addMethods (source : ClassFile) (methods : List (String × String)) (rules : Renaming)
  | copyMethod (source : MemberRef) (name : String)
  | replaceMethod (name desc : String) (delegate : MemberRef) (invoke : Opcode)
  /-- Makes a subclass of `legacy` one of `component`; what only `legacy` can do goes to
  `engine`. -/
  | appletToPanel (legacy component engine : String)

def Edit.name : Edit → String
  | .addInterface _ => "AddInterface"
  | .addField _ _ _ => "AddField"
  | .addGetter _ _ _ isStatic _ => if isStatic then "AddStaticGetter" else "AddGetter"
  | .addSetter _ _ _ _ _ => "AddSetter"
  | .addInvoker _ _ _ _ => "AddInvoker"
  | .injectCallback _ => "InjectCallback"
  | .addMethods _ _ _ => "AddMethods"
  | .copyMethod _ _ => "CopyMethod"
  | .replaceMethod _ _ _ _ => "ReplaceMethod"
  | .appletToPanel _ _ _ => "AppletToPanel"

structure EditContext where
  batch : Batch
  hierarchy : Hierarchy

/-- Steps on a class; a failed step keeps what it has changed. -/
abbrev Editing := ExceptT EditError (StateM ClassFile)

def Editing.ofExcept {α : Type} (r : Except EditError α) : Editing α := fun c => (r, c)

def orBadFormat {α : Type} (r : Except FormatError α) : Except EditError α := r.mapError .format

def Editing.addMethod (m : Method) : Editing Bool := fun c =>
  let (added, c) := c.addMethod m
  (.ok added, c)

end ClassWeave
