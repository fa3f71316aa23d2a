import ReactiveFrames.CommandLine.Report

/-!
# The command line program

Reads the files of the machine, prints the report of the command line and ends with its status.
-/

namespace ReactiveFrames.CommandLine

/-- Fault of a failed file operation. A file that is opened as a directory is named in the failure,
a directory that is read as a file is not. -/
def faultOf (e : IO.Error) : ReadFault :=
  match e with
  | .noFileOrDirectory .. => .missing
  | .noSuchThing .. => .missing
  | .permissionDenied .. => .denied
  | .inappropriateType none .. => .isADirectory
  | .inappropriateType (some _) .. => .notADirectory
  | e => .other (toString e)

/-- Text of a file. -/
def readText (path : String) : IO (Except ReadFault String) := do
  match ← (IO.FS.readBinFile path).toBaseIO with
  | .error e => pure (.error (faultOf e))
  | .ok bytes =>
    match String.fromUTF8? bytes with
    | some text => pure (.ok text)
    | none => pure (.error .notText)

/-- Names of what is in a directory; none if it cannot be read. -/
def listNames (path : String) : IO (List String) := do
  match ← (System.mkFilePath [if path.isEmpty then "." else path]).readDir.toBaseIO with
  | .ok entries => pure (entries.toList.map (·.fileName))
  | .error _ => pure []

/-- The files of the machine. -/
def machineFiles : FileAccess IO := ⟨readText, listNames⟩

end ReactiveFrames.CommandLine

/-- Runs the command line. -/
def main (arguments : List String) : IO UInt32 := do
  let report ← ReactiveFrames.CommandLine.respond ReactiveFrames.CommandLine.machineFiles arguments
  IO.print report.output
  (report.notices ++ report.errors).forM IO.eprintln
  pure (UInt32.ofNat report.status)
