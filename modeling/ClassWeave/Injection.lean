import ClassWeave.Group
import ClassWeave.Mixin.Resolve

/-!
# Injection

Mixins are resolved one by one as they are added; then a batch goes through four passes. The first
turns the entry point of an applet into a component and depends on the batch; the others hold what
the mixins asked for. The batch changes only if all passes succeed.
-/

set_option autoImplicit false

namespace ClassWeave

structure EntryPointSettings where
  hook : String
  legacySuperclass : String
  componentSuperclass : String
  deriving DecidableEq, Repr

def EntryPointSettings.standard : EntryPointSettings :=
  ⟨"GameEngine", "java/applet/Applet", "java/awt/Panel"⟩

structure InjectionSettings where
  entryPoint : Option EntryPointSettings
  /-- Asks for the chains of a pass to run side by side, which has no effect on what they do. -/
  parallel : Bool
  classpath : List String
  deriving DecidableEq, Repr

namespace InjectionSettings

def standard : InjectionSettings := ⟨some EntryPointSettings.standard, false, []⟩

def library : InjectionSettings := { standard with entryPoint := none }

end InjectionSettings

structure InjectionReport where
  passes : List (Stage × PassSummary)
  deriving DecidableEq, Repr

namespace InjectionReport

def modified (r : InjectionReport) : List String :=
  (r.passes.flatMap fun p => p.2.modified).eraseDups

def missing (r : InjectionReport) : List (Stage × String) :=
  r.passes.flatMap fun p => p.2.missing.map (p.1, ·)

end InjectionReport

structure Weaver where
  hooks : HookTable
  config : InjectionSettings
  registrations : List PlannedEdit

namespace Weaver

def new (hooks : HookTable) (config : InjectionSettings) : Weaver := ⟨hooks, config, []⟩

def addMixin (i : Weaver) (m : Mixin) : Except ResolveError Weaver := do
  let registrations ← m.resolve i.hooks
  return { i with registrations := i.registrations ++ registrations }

def group (i : Weaver) (s : Stage) : Group :=
  Group.ofList ((i.registrations.filter fun r => r.stage == s).map fun r => (r.owner, r.edit))

def entryGroup (i : Weaver) (b : Batch) : Except ResolveError Group :=
  match i.config.entryPoint with
  | none => .ok Group.empty
  | some e => do
    let engine := (← i.hooks.classHook e.hook).obfName
    return Group.ofList (b.names.map fun name =>
      (name, .appletToPanel e.legacySuperclass e.componentSuperclass engine))

def runPasses (library : HeaderMap) :
    List (Stage × Group) → Batch → Except InjectionError (List (Stage × PassSummary) × Batch)
  | [], b => .ok ([], b)
  | (s, g) :: rest, b => do
    let (report, b) ← g.run library b
    let (reports, b) ← runPasses library rest b
    return ((s, report) :: reports, b)

/-- All four passes over a batch, with the library read from `files`. -/
def run (i : Weaver) (files : Files) (b : Batch) :
    Except InjectionError (InjectionReport × Batch) := do
  let entry ← (i.entryGroup b).mapError .resolve
  let library ← (ClassPath.load files i.config.classpath).mapError .classPath
  let (passes, b) ← runPasses library
    ((.entryPoint, entry) :: [Stage.preCopy, .copy, .postCopy].map fun s => (s, i.group s)) b
  return (⟨passes⟩, b)

def inject (i : Weaver) (files : Files) : Weaving InjectionReport := fun b =>
  match i.run files b with
  | .ok (report, woven) => (.ok report, woven)
  | .error e => (.error e, b)

def addMixins (i : Weaver) (mixins : List Mixin) : Except ResolveError Weaver :=
  mixins.foldlM addMixin i

end Weaver

def injectAll (hooks : HookTable) (config : InjectionSettings) (mixins : List Mixin)
    (files : Files) : Weaving InjectionReport := fun b =>
  match (Weaver.new hooks config).addMixins mixins with
  | .ok i => i.inject files b
  | .error cause => (.error (.resolve cause), b)

end ClassWeave
