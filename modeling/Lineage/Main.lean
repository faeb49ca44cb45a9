import Lineage.Command.Run
import Lineage.Report.Duration

/-! # The command line

Reads the working directory, runs the command and carries out its effects. -/

namespace Lineage.Command

/-- The text files at and below an entry of a directory; directories nest no deeper than `depth`. -/
def readEntry (depth : Nat) (directory : List String) (entry : IO.FS.DirEntry) :
    IO (List (List String × String)) := do
  let path := directory ++ [entry.fileName]
  if ← entry.path.isDir then
    match depth with
    | 0 => return []
    | depth + 1 =>
      let inner ← try entry.path.readDir catch _ => pure #[]
      return (← inner.toList.mapM (readEntry depth path)).flatten
  else
    try return [(path, ← IO.FS.readFile entry.path)] catch _ => return []

/-- The text files of the working directory. -/
def readWorkingDirectory : IO Files := do
  let entries ← (← IO.currentDir).readDir
  return ⟨(← entries.toList.mapM (readEntry 64 [])).flatten⟩

/-- Writes the files that a command has changed. -/
def writeChanges (before after : Files) : IO Unit :=
  (after.changedSince before).toList.forM fun (path, contents) => IO.FS.writeFile path contents

end Lineage.Command

def main (args : List String) : IO UInt32 := do
  let stdout ← IO.getStdout
  let theme := Lineage.Report.Theme.forTerminal (← stdout.isTty)
  let files ← Lineage.Command.readWorkingDirectory
  let start ← IO.monoMsNow
  let outcome := Lineage.Command.run theme files args
  Lineage.Command.writeChanges files outcome.files
  let elapsed := Lineage.Report.duration ((← IO.monoMsNow) - start)
  stdout.putStr (outcome.outputText theme elapsed)
  (← IO.getStderr).putStr outcome.errors
  return outcome.code.toUInt32
