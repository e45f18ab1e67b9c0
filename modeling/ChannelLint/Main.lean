import ChannelLint.CommandLine

/-!
# The command

The standard input names the files of the project, one path a line, each relative to the current
folder. They are read into a tree of files, the command runs on that tree, and what it fixed is
written back.
-/
namespace ChannelLint.Command

/-- The lines of a stream up to its end. -/
partial def readLines (input : IO.FS.Stream) : IO (List String) := do
  let line ← input.getLine
  if line.isEmpty then return []
  return line.trimAscii.toString :: (← readLines input)

/-- Where a path leads from the current folder. -/
def place (path : String) : List String :=
  (Path.parts path).filter fun name => !name.isEmpty && name != "."

def load (paths : List String) : IO FileTree :=
  paths.foldlM (fun t (path : String) => return t.insert (place path) (← IO.FS.readBinFile path)) {}

/-- Writes the files that differ between two trees. -/
def store (paths : List String) (before after : FileTree) : IO Unit :=
  paths.forM fun path =>
    match before.file? (place path), after.file? (place path) with
    | some old, some new =>
      if old.toList == new.toList then return else IO.FS.writeBinFile path new
    | _, _ => return

end ChannelLint.Command

open ChannelLint in
/-- Runs the command on the files that the standard input names. -/
def main (arguments : List String) : IO UInt32 := do
  match Options.read arguments with
  | .error .help => return CommandLine.exitOk.toUInt32
  | .error fault =>
    IO.eprint (CommandLine.usageText fault)
    return CommandLine.exitFailure.toUInt32
  | .ok options =>
    let paths := (← Command.readLines (← IO.getStdin)).filter (!·.isEmpty)
    let tree ← Command.load paths
    match CommandLine.run tree options with
    | .error fault =>
      IO.eprintln fault.message
      return CommandLine.exitErrors.toUInt32
    | .ok result =>
      Command.store paths tree result.tree
      IO.print result.output
      IO.eprint result.errors
      return result.exitCode.toUInt32
