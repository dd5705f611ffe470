import ClassWeave.Hooks.Format
import ClassWeave.Injection
import ClassWeave.Json.Read
import ClassWeave.Mixin.Format

/-!
# Injection into a directory

Reads hooks, mixins and a directory of classes out of a file tree and gives the files of the output
directory. A class is known by the name in its head, whatever its path; files that are no classes
go over as they are.
-/

set_option autoImplicit false

namespace ClassWeave

structure RunOptions where
  hooks : String
  mixins : List String
  input : String
  noEntryPoint : Bool
  parallel : Bool
  classpath : List String
  /-- Adds the runtime modules of a JDK to the class path. -/
  jdk : Bool
  javaHome : Option String
  deriving DecidableEq, Repr

inductive RunError where
  | unreadable (path : String) (fault : ReadFault)
  | badJson (path : String)
  | malformed (path : String) (cause : FormatError)
  | resolve (path : String) (cause : ResolveError)
  | noJavaHome
  | noModules (home : String)
  | inject (cause : InjectionError)
  deriving DecidableEq, Repr

def RunError.message : RunError → String
  | .unreadable path fault => path ++ ": " ++ fault.message
  | .badJson path => path ++ ": invalid JSON or unexpected value"
  | .malformed path cause => path ++ ": " ++ cause.message
  | .resolve path cause => path ++ ": " ++ cause.message
  | .noJavaHome => "--jdk needs --java-home or JAVA_HOME"
  | .noModules home => home ++ ": no jmods directory"
  | .inject cause => cause.message

namespace DirectoryRun

abbrev Running := Except RunError

def readJson (files : Files) (path : String) : Running Json := do
  let text ← (files.readText path).mapError (.unreadable path)
  match Json.parse text with
  | some j => return j
  | none => throw (.badJson path)

def readHooks (files : Files) (path : String) : Running HookFile := do
  match HookFile.ofJson? (← readJson files path) with
  | some hooks => return hooks
  | none => throw (.badJson path)

def readClass (files : Files) (path : String) : Running ClassFile := do
  let bytes ← (files.read path).mapError (.unreadable path)
  (ClassFile.parse bytes).mapError (.malformed path)

/-- How deep arrays and objects may stand in each other in a mixin file. -/
def mixinLevels : Nat := 127

/-- The mixin in a file, and the path of its compiled class, seen from the file's directory. A mixin
file is an object of which every member has to be usable, whatever its name. -/
def mixinOfJson? (path : String) (j : Json) : Option (Mixin × Option String) :=
  match j with
  | .obj _ => do
    if !j.isUsable mixinLevels then none
    let r ← Json.record? ("class" :: Mixin.fieldNames) j
    let m ← Mixin.ofRecord? Json.isNullOrEmpty r
    let compiled ← r.optional "class" (Json.nullable? Json.text?) none
    return (m, compiled.map (Path.join (Path.parent path)))
  | _ => none

def readMixin (files : Files) (path : String) : Running Mixin := do
  match mixinOfJson? path (← readJson files path) with
  | none => throw (.badJson path)
  | some (m, none) => return m
  | some (m, some compiled) =>
    return { m with compiled := some (← readClass files compiled) }

def modulesPath (home : String) : String := Path.join home "jmods"

def compiledPaths (files : Files) (options : RunOptions) : List String :=
  options.mixins.filterMap fun path =>
    match readJson files path with
    | .ok j => (mixinOfJson? path j).bind Prod.snd
    | .error _ => none

def classpath (files : Files) (options : RunOptions) : Running (List String) :=
  if !options.jdk then .ok options.classpath
  else match options.javaHome with
    | none => .error .noJavaHome
    | some home =>
      let modules := modulesPath home
      if files.isDir modules then .ok (options.classpath ++ [modules])
      else .error (.noModules home)

def addMixinFile (files : Files) (i : Weaver) (path : String) : Running Weaver := do
  let m ← readMixin files path
  (i.addMixin m).mapError (.resolve path)

/-- The classes of a directory by name, the path of each, and the other files. -/
structure ClassFolder where
  batch : Batch
  paths : Std.TreeMap String (List String)
  resources : List (List String × Bytes)

def pathText (base : String) (names : List String) : String := names.foldl Path.join base

def enterFile (base : String) (t : ClassFolder) (file : List String × Bytes) :
    Running ClassFolder :=
  if file.1.getLast?.bind Path.extension? = some "class" then
    match Header.parse file.2 with
    | .error cause => .error (.malformed (pathText base file.1) cause)
    | .ok h => .ok { t with
        batch := t.batch.insert h.name file.2
        paths := t.paths.insert h.name file.1 }
  else .ok { t with resources := t.resources ++ [file] }

def readClasses (files : Files) (base : String) : Running ClassFolder := do
  let t ← (files.at? base).mapError (.unreadable base)
  if !t.isDir then throw (.unreadable base .notADirectory)
  (t.files []).foldlM (enterFile base) ⟨Batch.empty, ∅, []⟩

/-- The files of the output directory: each class where it was read, then the other files. -/
def outputFiles (t : ClassFolder) : List (List String × Bytes) :=
  t.batch.entries.map (fun e => ((t.paths[e.1]?).getD [e.1 ++ ".class"], e.2)) ++ t.resources

def run (files : Files) (options : RunOptions) :
    Running (InjectionReport × List (List String × Bytes)) := do
  let hooks ← readHooks files options.hooks
  let classpath ← classpath files options
  let config : InjectionSettings := {
    entryPoint := if options.noEntryPoint then none else InjectionSettings.standard.entryPoint
    parallel := options.parallel
    classpath := classpath }
  let i ← options.mixins.foldlM (addMixinFile files) (Weaver.new (HookTable.ofFile hooks) config)
  let t ← readClasses files options.input
  let (report, batch) ← (i.run files t.batch).mapError .inject
  return (report, outputFiles { t with batch := batch })

end DirectoryRun

end ClassWeave
