import LiteralRecovery.CommandLine.Session

/-! The command on a real file system. -/
namespace LiteralRecovery.CommandLine

/-- Reads a file, if it is one. -/
def readFileOf (path : String) : IO (Except ReadFault Bytes) := do
  match ← (IO.FS.readBinFile path).toBaseIO with
  | .ok data => return .ok data.toList
  | .error (.noFileOrDirectory ..) | .error (.permissionDenied ..) => return .error .cannotOpen
  | .error _ => return .error .cannotRead

/-- Whether there is something at a path. -/
def pathExistsAt (path : String) : IO Bool := do
  match ← (IO.FS.readBinFile path).toBaseIO with
  | .error (.noFileOrDirectory ..) => return false
  | _ => return true

def writeFileTo (path : String) (data : Bytes) : IO Bool := do
  match ← (IO.FS.writeBinFile path ⟨data.toArray⟩).toBaseIO with
  | .ok () => return true
  | .error _ => return false

/-- The system that the process runs on. -/
def systemHost (started : Nat) : Host IO where
  pathExists := pathExistsAt
  readFile := readFileOf
  writeFile := writeFileTo
  print text := IO.print text
  complain text := IO.eprint text
  elapsed := do return toString ((← IO.monoMsNow) - started)
  unpacker := Zip.noUnpacker

end LiteralRecovery.CommandLine

open LiteralRecovery.CommandLine in
/-- Runs the command on the process's arguments. -/
def main (arguments : List String) : IO UInt32 := do
  let started ← IO.monoMsNow
  command (systemHost started) arguments (← IO.getEnv "RUST_LOG")
