import ClassWeave.CommandLine

/-!
# Running commands

Loads what a command names into a file tree, runs it there and writes what comes out.
-/

set_option autoImplicit false

namespace ClassWeave.Main

/-- The file or directory at a path, if there is one that can be read. -/
partial def load (path : String) : IO (Option FileTree) := do
  match ← (IO.FS.realPath path).toBaseIO with
  | .error _ => return none
  | .ok real =>
    if ← real.isDir then
      let mut tree := FileTree.empty
      for entry in ← real.readDir do
        if let some below ← load (Path.join path entry.fileName) then
          tree := tree.insert below [entry.fileName]
      return some tree
    else
      match ← (IO.FS.readBinFile path).toBaseIO with
      | .ok bytes => return some (.file bytes.toList)
      | .error _ => return none

def loadAll (files : Files) (paths : List String) : IO Files := do
  let mut files := files
  for path in paths do
    if let some tree ← load path then files := files.put path tree
  return files

def noFiles : IO Files := do
  return ⟨FileTree.empty, Path.names (toString (← IO.currentDir))⟩

def failWith (message : String) : IO UInt32 := do
  IO.eprintln ("error: " ++ message)
  return 1

def write (output : String) (file : List String × Bytes) : IO Unit := do
  let path := DirectoryRun.pathText output file.1
  IO.FS.createDirAll (Path.parent path)
  IO.FS.writeBinFile path (ByteArray.mk file.2.toArray)

def inject (options : RunOptions) (output : String) : IO UInt32 := do
  let home ← if options.javaHome.isSome then pure options.javaHome else IO.getEnv "JAVA_HOME"
  let options := { options with javaHome := home }
  let modules := if options.jdk then home.toList.map DirectoryRun.modulesPath else []
  let named := options.hooks :: options.input :: options.mixins ++ options.classpath ++ modules
  let files ← loadAll (← noFiles) named
  let files ← loadAll files (DirectoryRun.compiledPaths files options)
  match DirectoryRun.run files options with
  | .error e => failWith e.message
  | .ok (report, written) =>
    for file in written do write output file
    for line in report.lines do IO.println line
    return 0

def decode (path : String) (bodies : Bool) : IO UInt32 := do
  match DirectoryRun.readClass (← loadAll (← noFiles) [path]) path with
  | .error e => failWith e.message
  | .ok c =>
    IO.print (Listing.render c bodies)
    return 0

def hooks (path : String) : IO UInt32 := do
  match DirectoryRun.readHooks (← loadAll (← noFiles) [path]) path with
  | .error e => failWith e.message
  | .ok file =>
    IO.print (HookTable.ofFile file).summary
    let problems := file.problems
    for problem in problems do IO.eprintln ("error: " ++ problem.message)
    if problems.isEmpty then return 0
    failWith s!"{problems.length} problems in {path}"

end ClassWeave.Main

open ClassWeave in
def main (args : List String) : IO UInt32 := do
  match Command.parse args with
  | some (.inject options output) => Main.inject options output
  | some (.decode file bodies) => Main.decode file bodies
  | some (.hooks file) => Main.hooks file
  | none =>
    IO.eprintln Command.usage
    return 2
