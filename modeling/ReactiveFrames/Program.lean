import ReactiveFrames.Config
import ReactiveFrames.Execute

/-!
# From source to program

Parsing, compiling and executing a source in one world, with the argument of the init functions and
further scripts. The first error of any of them ends it.

## Main definitions

* `ProgramError`: the errors of all steps.
* `World.create`: a world in which nothing has happened.
* `compileSource`, `executeSource`: a source as a compiled and as an executed program.
* `runScripts`: an executed program and the values of further scripts.
-/

namespace ReactiveFrames

open Script (Value)

/-- Why a source does not become a running program. -/
inductive ProgramError where
  | parse (e : ParseError)
  | compile (e : CompileError)
  | execute (e : ExecuteError)
  /-- A script beside the program failed. -/
  | script (e : Script.ScriptError)
  deriving DecidableEq, Repr

/-- Wording of an error. -/
def ProgramError.message : ProgramError → String
  | parse e => "Parse error: " ++ e.message
  | compile e => "Compile error: " ++ e.message
  | execute e => "Execute error: " ++ e.message
  | script e => e.message

/-- A world in which nothing has happened. -/
def World.create (maxDepth capacity : Nat) : World :=
  Script.Machine.initial maxDepth { diagnostics := { capacity := capacity } }

/-- World of a configuration. -/
def Config.world (c : Config) : World :=
  World.create c.maxCallDepth Diagnostics.defaultCapacity

/-- Name of the function by which scripts read data frames. -/
def readDataName : String := "readData"

/-- Lets scripts read data frames. -/
def World.installReader (reader : DataReader) (w : World) : World :=
  w.defineForeign readDataName (.readData reader)

/-- Frame of a source. -/
def parseSource (c : Config) (source : String) : Effect ProgramError Frame :=
  Run.ofExcept ((Frame.parse c.enumTable source).mapError ProgramError.parse)

/-- Compiles a source. Scripts can read the given resources, if there are any. -/
def compileSource (c : Config) (resources : Option Resources) (source : String) :
    Effect ProgramError Program := do
  let frame ← parseSource c source
  match resources with
  | some resources => Run.update (World.installReader ⟨resources, c.enumTable⟩)
  | none => pure ()
  (compile c.registry frame).mapError ProgramError.compile

/-- Compiles a source with components for the given classes only. -/
def compileFor (c : Config) (classes : List String) (source : String) :
    Effect ProgramError Program := do
  let frame ← parseSource c source
  (compile ⟨classes, false⟩ frame).mapError ProgramError.compile

/-- Compiles and executes a source. -/
def executeSource (c : Config) (resources : Option Resources) (source : String)
    (argument : Option Value) : Effect ProgramError Program := do
  let program ← compileSource c resources source
  (execute argument program.component).mapError ProgramError.execute
  pure program

/-- Evaluates the script of the argument of a program, if there is one. -/
def evaluateArgument (argument : Option String) : Effect ProgramError (Option Value) :=
  match argument with
  | some script => do
    pure (some (← (World.evaluate script).mapError ProgramError.script))
  | none => pure none

/-- Evaluates a script and describes its value. -/
def describeScript (script : String) : Effect ProgramError String := do
  let v ← (World.evaluate script).mapError ProgramError.script
  fun w ↦ Run.ofOption (w.heap.description? v) w

/-- Gives notice of how many failures have been collected for a program, if there are any. -/
def World.noteFailures (name : String) (w : World) : World :=
  let reported := w.host.diagnostics.reported
  if reported = 0 then w
  else w.note ⟨name ++ ": " ++ toString reported ++ " observer errors", false⟩

/-- Compiles and executes a source, and then evaluates scripts. The argument is evaluated before
anything else. -/
def runScripts (c : Config) (resources : Option Resources) (name source : String)
    (argument : Option String) (scripts : List String) : Effect ProgramError (List String) := do
  let argument ← evaluateArgument argument
  let _ ← executeSource c resources source argument
  Run.update (World.noteFailures name)
  scripts.mapM describeScript

end ReactiveFrames
