import Parley.Library.File

/-!
The command line. It checks the script in a file and prints an account of the dialogue in it, or the
errors.
-/
namespace Parley

/-- The name of what stands at a place, links followed, and what it is. -/
def readPlace (place : String) : IO (String × Entry) := do
  try
    let path ← IO.FS.realPath place
    let entry ← if ← path.isDir then pure .folder else .file <$> IO.FS.readBinFile path
    return ((Path.ofText path.toString).stem, entry)
  catch _ =>
    return ("", .nothing)

def checkFile (place : String) : IO UInt32 := do
  let (name, entry) ← readPlace place
  match Report.ofReading (Dialogue.ofEntry name entry) with
  | .ok report =>
      (← IO.getStdout).putStr report.out
      (← IO.getStderr).putStr report.err
      return report.code
  | .error _ =>
      IO.eprintln (place ++ " cannot be read as a script")
      return 1

end Parley

def main : List String → IO UInt32
  | [place] => Parley.checkFile place
  | _ => do
      IO.eprintln "usage: parley file"
      return 2
