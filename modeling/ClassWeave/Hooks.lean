import Std.Data.TreeMap
import ClassWeave.Insn
import ClassWeave.ResolveError

/-!
# Hook tables

A hook ties a readable name to the obfuscated name of a class, field or method. Members of a class
hook belong to the obfuscated class whatever owner they are written with; static members name their
own owner. Where two hooks of one scope share a name the later one counts.
-/

set_option autoImplicit false

namespace ClassWeave

structure FieldHook where
  name : String
  owner : String
  obfName : String
  desc : String
  /-- The field holds its value times the inverse of this. -/
  multiplier : Option Int64
  deriving DecidableEq, Repr, Inhabited

structure MethodHook where
  name : String
  owner : String
  obfName : String
  desc : String
  /-- A constant that the method expects as its last argument. -/
  dummyValue : Option Int64
  deriving DecidableEq, Repr, Inhabited

structure ClassHook where
  name : String
  obfName : String
  fields : List FieldHook
  methods : List MethodHook
  deriving DecidableEq, Repr, Inhabited

structure HookFile where
  classes : List ClassHook
  staticFields : List FieldHook
  staticMethods : List MethodHook
  deriving DecidableEq, Repr, Inhabited

def FieldHook.member (h : FieldHook) : MemberRef := ⟨h.owner, h.obfName, h.desc⟩

def MethodHook.member (h : MethodHook) : MemberRef := ⟨h.owner, h.obfName, h.desc⟩

def ClassHook.adoptMembers (h : ClassHook) : ClassHook :=
  { h with
    fields := h.fields.map fun f => { f with owner := h.obfName }
    methods := h.methods.map fun m => { m with owner := h.obfName } }

def ClassHook.field? (h : ClassHook) (name : String) : Option FieldHook :=
  h.fields.reverse.find? (·.name == name)

def ClassHook.method? (h : ClassHook) (name : String) : Option MethodHook :=
  h.methods.reverse.find? (·.name == name)

structure HookTable where
  classes : Std.TreeMap String ClassHook
  staticFields : Std.TreeMap String FieldHook
  staticMethods : Std.TreeMap String MethodHook
  deriving Inhabited

namespace HookTable

def empty : HookTable := ⟨∅, ∅, ∅⟩

def ofFile (file : HookFile) : HookTable where
  classes := file.classes.foldl (fun t h => t.insert h.name h.adoptMembers) ∅
  staticFields := file.staticFields.foldl (fun t h => t.insert h.name h) ∅
  staticMethods := file.staticMethods.foldl (fun t h => t.insert h.name h) ∅

def classHook (t : HookTable) (name : String) : Except ResolveError ClassHook :=
  match t.classes[name]? with
  | some h => .ok h
  | none => .error (.missingClassHook name)

def field (t : HookTable) (owner name : String) : Except ResolveError FieldHook := do
  let h ← t.classHook owner
  match h.field? name with
  | some f => return f
  | none => throw (.missingFieldHook owner name)

def method (t : HookTable) (owner name : String) : Except ResolveError MethodHook := do
  let h ← t.classHook owner
  match h.method? name with
  | some m => return m
  | none => throw (.missingMethodHook owner name)

def staticField (t : HookTable) (name : String) : Except ResolveError FieldHook :=
  match t.staticFields[name]? with
  | some h => .ok h
  | none => .error (.missingStaticFieldHook name)

def staticMethod (t : HookTable) (name : String) : Except ResolveError MethodHook :=
  match t.staticMethods[name]? with
  | some h => .ok h
  | none => .error (.missingStaticMethodHook name)

end HookTable

end ClassWeave
