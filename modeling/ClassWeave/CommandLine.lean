import ClassWeave.DirectoryRun
import ClassWeave.Hooks.Validation
import ClassWeave.Listing

/-!
# The command line

Three commands: `inject` runs an injection from directory to directory, `decode` lists a class file
and `hooks` checks a hook table. An option and its value are two words, or one with an equals sign.
-/

set_option autoImplicit false

namespace ClassWeave

inductive Command where
  | inject (options : RunOptions) (output : String)
  | decode (file : String) (bodies : Bool)
  | hooks (file : String)
  deriving DecidableEq, Repr

namespace Command

def usage : String := "\n".intercalate [
  "Usage: classweave <command>",
  "",
  "  inject --hooks FILE [--mixin FILE]... --input DIR --output DIR [--no-entry-point]",
  "         [--parallel] [--classpath PATH]... [--jdk [--java-home DIR]]",
  "      Apply mixins to a directory of class files",
  "  decode FILE [--summary]",
  "      Print the structure and disassembly of a class file",
  "  hooks FILE",
  "      Validate and summarise a hook table"]

def splitWord (word : String) : List String :=
  let cs := word.toList
  if "--".toList.isPrefixOf cs then
    match cs.dropWhile (· ≠ '=') with
    | [] => [word]
    | _ :: value => [String.ofList (cs.takeWhile (· ≠ '=')), String.ofList value]
  else [word]

structure Draft where
  hooks : Option String
  input : Option String
  output : Option String
  options : RunOptions

def emptyDraft : Draft := ⟨none, none, none, ⟨"", [], "", false, false, [], false, none⟩⟩

def readDraft (d : Draft) : List String → Option Draft
  | [] => some d
  | "--no-entry-point" :: rest => readDraft { d with options.noEntryPoint := true } rest
  | "--parallel" :: rest => readDraft { d with options.parallel := true } rest
  | "--jdk" :: rest => readDraft { d with options.jdk := true } rest
  | "--hooks" :: path :: rest => readDraft { d with hooks := some path } rest
  | "--input" :: path :: rest => readDraft { d with input := some path } rest
  | "--output" :: path :: rest => readDraft { d with output := some path } rest
  | "--mixin" :: path :: rest =>
    readDraft { d with options.mixins := d.options.mixins ++ [path] } rest
  | "--classpath" :: path :: rest =>
    readDraft { d with options.classpath := d.options.classpath ++ [path] } rest
  | "--java-home" :: path :: rest => readDraft { d with options.javaHome := some path } rest
  | _ => none

def ofDraft? (d : Draft) : Option Command := do
  let hooks ← d.hooks
  let input ← d.input
  let output ← d.output
  if d.options.javaHome.isSome ∧ ¬ d.options.jdk then none
  else some (.inject { d.options with hooks := hooks, input := input } output)

def parse (words : List String) : Option Command :=
  match words.flatMap splitWord with
  | "inject" :: rest => (readDraft emptyDraft rest).bind ofDraft?
  | ["decode", file] => some (.decode file true)
  | ["decode", "--summary", file] | ["decode", file, "--summary"] => some (.decode file false)
  | ["hooks", file] => some (.hooks file)
  | _ => none

end Command

def InjectionReport.lines (r : InjectionReport) : List String :=
  r.missing.map (fun m => "missing  " ++ Listing.padRight 12 m.1.name ++ " " ++ m.2) ++
    [s!"modified {r.modified.length} classes"]

end ClassWeave
