import ReactiveFrames.Compile

/-!
# Executing programs

A compiled program is executed once: every init function is called, those of the children of an
object before its own, and afterwards all listeners are seeded once more. What an init function
returns becomes a property of its object.
-/

namespace ReactiveFrames

open Script (Value)
open Script.Machine (pinningValues)

/-- An init function that failed. -/
structure ExecuteError where
  object : String
  function : String
  error : Script.ScriptError
  deriving DecidableEq, Repr

/-- Wording of a failed init function. -/
def ExecuteError.message (e : ExecuteError) : String :=
  "Init function " ++ e.object ++ "." ++ e.function ++ " failed: " ++ e.error.message

/-- Calls an init function with its object and an argument, if there is one, and stores what it
returns. -/
def runInit (o : ObjectRef) (argument : Option Value) (init : String × Value) :
    Effect ExecuteError Unit := do
  let w ← Run.state
  let result ← (World.call init.2 (World.toValue w o :: argument.toList)).attempt
  Script.resetFailures
  match result with
  | .error e => Run.fail ⟨(World.object w o).path, init.1, e⟩
  | .ok .undefined => pure ()
  | .ok v => reporting (World.set o init.1 v)

/-- Calls the init functions of an object in their order. -/
def runInits (o : ObjectRef) (argument : Option Value) : Effect ExecuteError Unit := do
  let inits := (World.object (← Run.state) o).inits
  inits.forM (runInit o argument)

mutual

/-- Calls the init functions of a component, after those of the components below it. -/
def Component.runInitTree (argument : Option Value) : Component → Effect ExecuteError Unit
  | .mk object children => do
    Component.runInitForest argument children
    runInits object argument

/-- Calls the init functions of components one after the other. -/
def Component.runInitForest (argument : Option Value) :
    List Component → Effect ExecuteError Unit
  | [] => pure ()
  | c :: cs => do
    c.runInitTree argument
    Component.runInitForest argument cs

end

/-- Calls all init functions of a component tree, and then seeds all listeners. The argument stays
pinned to the end. -/
def execute (argument : Option Value) (c : Component) : Effect ExecuteError Unit :=
  pinningValues argument.toList do
    c.runInitTree argument
    World.seedTree c.object

end ReactiveFrames
