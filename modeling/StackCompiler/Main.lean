import StackCompiler.Command.Tools

/-!
# The program

Runs a command on the real files: the token lister if the program goes by the name `tamlex`, the
compiler otherwise. Only the files that the command line names are loaded, and only those that the
run has changed are written. The machine follows links itself, so no links are loaded. A device is
read only if it is an operand, since it may have to be waited for.
-/

set_option autoImplicit false
set_option relaxedAutoImplicit false

namespace StackCompiler.Command

/-- The path of names that lead on from the root. -/
def rootedText (names : List String) : String :=
  "/" ++ "/".intercalate names

/-- Whether an action comes to its end. -/
def succeeds (action : IO Unit) : IO Bool := do
  try
    action
    return true
  catch _ => return false

/-- The entry that names lead to, if there is one. What may be done with it is found out by doing it
without a change. For a directory to refuse a new file shows only when the file is made. -/
def loadEntry (isOperand : Bool) (names : List String) : IO (Option FileEntry) := do
  try
    let real ← IO.FS.realPath (rootedText names)
    if ← real.isDir then
      let read ← succeeds (discard real.readDir)
      let pass ← (real / ".").pathExists
      return some (.directory ⟨read, true, pass⟩)
    if !(← real.pathExists) then return none
    let isFile := (← real.metadata).type == .file
    let write ← succeeds (discard (IO.FS.Handle.mk real .append))
    let bytes? ← if isFile || isOperand then
        try some <$> IO.FS.readBinFile real catch _ => pure none
      else pure (some .empty)
    let bytes := (bytes?.getD .empty).toList
    let rights : Rights := ⟨bytes?.isSome, write, true⟩
    return some (if isFile then .file bytes rights else .device bytes [] rights)
  catch _ => return none

/-- Adds what lies on a path to a tree. -/
def loadPath (isOperand : Path → Bool) (tree : FileTree) (path : Path) : IO FileTree := do
  let mut tree := tree
  let mut names := FileTree.start tree.working path.root
  for name in path.names do
    names := FileTree.step names name
    if (tree.lookup names).isNone then
      if let some entry ← loadEntry (isOperand path) names then
        tree := tree.set names entry
  return tree

/-- The variables of the environment that the commands know. -/
def loadEnvironment : IO (List (String × String)) := do
  let names := ["TAMC_OUTPUT_SUFFIX", "TAMC_LOG_LEVEL", "TAMC_ENCODING"]
  let found ← names.mapM fun name => do
    return (← IO.getEnv name).map fun value => (name, value)
  return found.filterMap id

/-- Writes files. The first one that could not be written is given back. -/
def store (changes : List (List String × List UInt8)) : IO (Option (List String)) := do
  for (names, bytes) in changes do
    if !(← succeeds (IO.FS.writeBinFile (rootedText names) (ByteArray.mk bytes.toArray))) then
      return some names
  return none

/-- The tree with an entry that refuses to be written. -/
def refuse (tree : FileTree) (names : List String) : FileTree :=
  let rights : Rights := ⟨true, false, true⟩
  tree.set names <| match tree.lookup names with
    | some (.device bytes taken _) => .device bytes taken rights
    | some (.file bytes _) => .file bytes rights
    | _ => .file [] rights

/-- Shows what a run has shown. -/
def conclude : Except UsageFault Outcome → IO UInt32
  | .error fault => do
    IO.eprintln (Text.plain s!"Error: {fault.message}")
    return ExitStatus.invalidArguments.code.toUInt32
  | .ok outcome => do
    IO.print outcome.console.out
    IO.eprint outcome.console.err
    return outcome.status.code.toUInt32

/-- An output stream that refuses every text. -/
def Outlet.closed (words : String) : Outlet :=
  ⟨fun stream _ _ => if stream = .out then some ⟨.other, words⟩ else none⟩

/-- Runs a command and writes what it has changed. If that is refused, the run is one on files that
refuse it; if what it shows is refused, it is one whose output is closed. -/
def finish (before : FileTree) (run : Outlet → FileTree → Except UsageFault Outcome) :
    IO UInt32 := do
  let result := run .free before
  let refused? ← match result with
    | .error _ => pure none
    | .ok outcome => store (outcome.console.files.changes before)
  let files := match refused? with
    | none => before
    | some names => refuse before names
  try conclude (run .free files)
  catch error => conclude (run (.closed error.toString) files)

end StackCompiler.Command

open StackCompiler StackCompiler.Command in
def main (arguments : List String) : IO UInt32 := do
  let lists := (← IO.appPath).fileStem == some "tamlex"
  let environment ← loadEnvironment
  let working := Path.stepNames (← IO.currentDir).toString
  let specs := if lists then Lister.specs else Compiler.specs
  let (operands, paths) := match readWords specs arguments with
    | .ok words => (words.operands.map Path.ofText, Compiler.paths words environment)
    | .error _ => ([], [])
  let files ← paths.foldlM (loadPath operands.contains) (FileTree.ofWorking working)
  let needsInput := lists && paths.isEmpty || arguments.any (["-i", "--interactive"].contains ·)
  let standardInput ← if needsInput then (← IO.getStdin).readToEnd else pure ""
  finish files fun outlet files =>
    let given : Surroundings := ⟨arguments, environment, files, standardInput⟩
    if lists then Lister.run given else Compiler.runWith .standard outlet given
