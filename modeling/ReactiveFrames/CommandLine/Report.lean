import ReactiveFrames.CommandLine.Arguments
import ReactiveFrames.Files
import ReactiveFrames.Frame.Exchange
import ReactiveFrames.Frame.Printer
import ReactiveFrames.Program
import ReactiveFrames.Text.Lines

/-!
# Running a command

What a command writes and the status that it ends with. Lines that scripts write to the console come
before the results of the command, and are written even if it fails in the end. So do the notices
that are given on the way, before the messages about failures.

## Main definitions

* `Report`: the output, the notices, the messages and the status of a command.
* `Report.errorLines`: the lines of the notices and messages.
* `respond`: the report of a command line.
-/

namespace ReactiveFrames.CommandLine

/-- What a command line leaves. -/
structure Report where
  status : Nat := 0
  output : String := ""
  /-- Notices that were given on the way. -/
  notices : List String := []
  /-- Messages about failures. -/
  errors : List String := []
  deriving DecidableEq, Repr

/-- Lines of the notices and then of the messages. The first line of a notice belongs to a log, and
is left out; a notice may have more. -/
def Report.errorLines (r : Report) : List String :=
  r.notices.flatMap (fun n ↦ (Text.lines (n ++ "\n")).drop 1) ++
    r.errors.flatMap fun e ↦ Text.lines (e ++ "\n")

/-- Name and version of the program. -/
def versionLine : String := "amberc 0.1.0"

/-- Report of a command that ends with a message. -/
def failed (message : String) : Report := { status := 1, errors := [message] }

/-- Text with a line for each of some texts. -/
def unlines (texts : List String) : String := String.join (texts.map (· ++ "\n"))

/-- Adds what was written to the console and noticed in a world to the report of what came of it. -/
def Report.after (verbose : Bool) (w : World) (r : Report) : Report :=
  { r with
    output := unlines w.console.toList ++ r.output
    notices := (w.notices.toList.filter fun n ↦ verbose || !n.detail).map (·.text) }

/-- Report on a run that may not come to an end. -/
def ofOutcome {α : Type} (verbose : Bool) (describe : ProgramError → String)
    (report : α → World → Report) : Outcome World ProgramError α → Report
  | .ok a w => (report a w).after verbose w
  | .error e w => (failed (describe e)).after verbose w
  | .exhausted w => (failed "out of steps").after verbose w

/-- Report of the command `parse`. -/
def reportParse (c : Config) (input source : String) (json : Bool) : Report :=
  match Frame.parse c.enumTable source with
  | .error e => failed ("Error: " ++ input ++ ": " ++ e.message)
  | .ok frame =>
    { output := if json then frame.toJson.pretty 0 ++ "\n" else frame.source }

/-- Warnings about the failures of observers. -/
def warnings (d : Diagnostics) : List String :=
  d.errors.map (fun e ↦ "Warning: " ++ e.message) ++
    if d.reported = 0 then [] else [toString d.reported ++ " observer error(s)"]

/-- Report of the command `compile`. -/
def reportCompile (verbose : Bool) (c : Config) (resources : Option Resources)
    (input source : String) : Report :=
  ofOutcome verbose (fun e ↦ "Error: " ++ input ++ ": " ++ e.message)
    (fun program w ↦
      { output := (program.component.dump w).getD ""
        errors := warnings w.host.diagnostics })
    (compileSource c resources source c.world)

/-- Name of a program that is read from a path. -/
def programName (input : String) : String := (Path.stem? input).getD "main"

/-- Report of the command `run`. -/
def reportRun (verbose : Bool) (c : Config) (resources : Option Resources) (input source : String)
    (scripts : List String) (argument : Option String) : Report :=
  let name := programName input
  ofOutcome verbose (fun e ↦ name ++ ": " ++ e.message)
    (fun results _ ↦ { output := unlines results })
    (runScripts c resources name source argument scripts c.world)

section Files

variable {m : Type → Type} [Monad m]

/-- Configuration of a file, or the message about why there is none. -/
def loadConfig (access : FileAccess m) (path : String) :
    m (Except (ReadFault ⊕ ConfigError) Config) := do
  match ← access.read path with
  | .error fault => pure (.error (.inl fault))
  | .ok text =>
    match Config.ofToml text with
    | .error e => pure (.error (.inr e))
    | .ok c => pure (.ok (c.relativeTo path))

/-- Wording of why there is no configuration. -/
def configFailure : ReadFault ⊕ ConfigError → String
  | .inl fault => "Failed to read config: " ++ fault.message
  | .inr e => "Failed to parse config: " ++ e.message

/-- Reads the source of a command and reports on it. -/
def onSource (access : FileAccess m) (input : String) (report : String → m Report) : m Report := do
  match ← access.read input with
  | .error fault => pure (failed ("Error: failed to read " ++ input ++ ": " ++ fault.message))
  | .ok source => report source

/-- The data frames that the scripts of a configuration can read. -/
def configuredResources (access : FileAccess m) (c : Config) : m (Option Resources) :=
  match c.resourceDir with
  | some dir => do pure (some (← access.resources dir))
  | none => pure none

/-- Report of a command with its configuration. -/
def perform (access : FileAccess m) (verbose : Bool) (c : Config) : Command → m Report
  | .version => pure { output := versionLine ++ "\n" }
  | .parse input json => onSource access input fun source ↦ pure (reportParse c input source json)
  | .compile input => onSource access input fun source ↦ do
    pure (reportCompile verbose c (← configuredResources access c) input source)
  | .run input scripts argument => onSource access input fun source ↦ do
    pure (reportRun verbose c (← configuredResources access c) input source scripts argument)

/-- Report of a command line. Arguments of no command end with status two. -/
def respond (access : FileAccess m) (arguments : List String) : m Report := do
  match Invocation.ofArguments? arguments with
  | none => pure { status := 2 }
  | some invocation =>
    match invocation.config with
    | none => perform access invocation.verbose {} invocation.command
    | some path =>
      match ← loadConfig access path with
      | .error e => pure (failed ("Error: " ++ configFailure e))
      | .ok c =>
        let report ← perform access invocation.verbose c invocation.command
        let loaded := if invocation.verbose then ["loaded config from " ++ path] else []
        pure { report with notices := loaded ++ report.notices }

end Files

end ReactiveFrames.CommandLine
