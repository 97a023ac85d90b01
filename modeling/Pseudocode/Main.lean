import Pseudocode.Command.Basic

namespace Pseudocode

/-- The tool of a name. -/
def Tool.ofName? (name : String) : Option Tool :=
  [converter, checker, runner].find? (·.name = name)

/-- The entry at a path, if it can be read or is a directory. -/
def readEntry (file : String) : IO (Option FileEntry) := do
  try
    let content ← IO.FS.readBinFile file
    return some (.file content.toList)
  catch error =>
    match error with
    | .inappropriateType .. => return some .directory
    | _ => return none

/-- The entries that a path and the directories on its way lead to. -/
def entriesOn (file : Text) : IO FileTree := do
  let parts := Path.collapse (Path.ofText file).parts
  let mut tree : FileTree := []
  for n in [1:parts.length + 1] do
    let shown := String.ofList (joinWith "/" (parts.take n))
    if let some entry ← readEntry shown then
      tree := tree ++ [(parts.take n, entry)]
  return tree

/-- The files that arguments may speak of. -/
def treeOf (arguments : List Text) : IO FileTree := do
  let mut tree : FileTree := []
  for argument in arguments do
    tree := tree ++ (← entriesOn argument)
  return tree

/-- The variables that settings are read from, as far as they are set. -/
def readEnvironment : IO Environment := do
  let names := ["PSC_LUA_COMMAND", "PSC_LUA_TIMEOUT", "PSC_KEEP_SCRIPT", "PSC_TEMP_DIR"]
  names.filterMapM fun name => do
    return (← IO.getEnv name).map fun value => (name.toList, value.toList)

/-- Writes the files that a command left. -/
def writeChanges (report : Report) (before : FileTree) : IO Unit := do
  for (parts, content) in report.files.changedSince before do
    IO.FS.writeBinFile (String.ofList (joinWith "/" parts)) (ByteArray.mk content.toArray)

end Pseudocode

open Pseudocode

/-- The first argument names the tool, and the others are its own. No process is started from
here, so no interpreter is found. -/
def main (arguments : List String) : IO UInt32 := do
  let (name, rest) := match arguments with
    | [] => ("", [])
    | name :: rest => (name, rest.map (·.toList))
  match Tool.ofName? name with
  | none =>
    (← IO.getStderr).putStrLn "Usage: psc2lua | psclint | pscrun [OPTIONS] INPUT_FILE"
    return 2
  | some tool =>
    let files ← treeOf rest
    let world : World :=
      { files
        environment := ← readEnvironment
        machine := { locate := fun _ => none, ending := .missing }
        script := {} }
    let report := tool.run world rest
    writeChanges report files
    (← IO.getStdout).putStr (String.ofList report.stdout)
    (← IO.getStderr).putStr (String.ofList report.stderr)
    if let some error := report.usage then
      (← IO.getStderr).putStrLn s!"Error: {String.ofList error.message}"
    return report.exitCode.toNat.toUInt32
