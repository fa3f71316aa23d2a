import ReactiveFrames.Program
import ReactiveFrames.Text.Quoted

/-!
# Sessions

A session is a world with names for some of its objects. It starts empty, or with a program, whose
objects are named by their paths. A name keeps its object alive; so does the program, for those that
belong to it.

## Main definitions

* `Launch`: how the program of a session is started.
* `Session.empty`, `Session.start`: the two ways in which a session begins.
* `Session.name`, `Session.drop`: names of objects.
-/

namespace ReactiveFrames

open Script (Value)

/-- A world with names for some of its objects. -/
structure Session where
  world : World
  objects : Table ObjectRef := Table.empty
  program : Option Program := none
  /-- Objects that the program keeps. -/
  kept : List ObjectRef := []

/-- How the program of a session is started. -/
inductive Launch where
  /-- Compiled with components for the given classes. -/
  | restricted (classes : List String)
  | compiled
  /-- Compiled and executed with the value of a script as the argument. -/
  | executed (argument : Option String)

/-- Starts a program. -/
def launch (c : Config) (resources : Option Resources) (source : String) :
    Launch → Effect ProgramError Program
  | .restricted classes => compileFor c classes source
  | .compiled => compileSource c resources source
  | .executed argument => do
    executeSource c resources source (← evaluateArgument argument)

namespace Session

/-- World of a session in which scripts can read data frames, if any are given. -/
def openWorld (c : Config) (capacity : Nat) (data : Option (Table String)) : World :=
  let w := World.create c.maxCallDepth capacity
  match data with
  | some texts => w.installReader ⟨.memory texts, c.enumTable⟩
  | none => w

/-- A session without a program. -/
def empty (w : World) : Session := { world := w }

/-- A session with a program. -/
def ofProgram (w : World) (p : Program) : Session :=
  let objects := collectPaths w w.treeDepth p.root Table.empty
  { world := w, objects := objects, program := some p, kept := objects.values }

/-- A session with a program that is started in a world. -/
def start (c : Config) (resources : Option Resources) (source : String) (l : Launch) (w : World) :
    Outcome World ProgramError Session :=
  match launch c resources source l w with
  | .ok p w => .ok (ofProgram w p) w
  | .error e w => .error e w
  | .exhausted w => .exhausted w

/-- Lets go of an object, unless the program or a name keeps it. -/
def release (o : ObjectRef) (s : Session) : Session :=
  if s.kept.contains o || s.objects.values.contains o then s
  else { s with world := s.world.letGo o }

/-- Object of a name. -/
def find? (s : Session) (name : String) : Option ObjectRef := s.objects.find? name

/-- Names a new object, in place of an earlier one. -/
def name (id : String) (object : ReactiveObject) (s : Session) : Session :=
  let (o, w) := s.world.addObject object
  let named := { s with world := w, objects := s.objects.insert id o }
  match s.find? id with
  | some earlier => named.release earlier
  | none => named

/-- Takes a name away. -/
def drop (id : String) (s : Session) : Session :=
  match s.find? id with
  | some o => { s with objects := s.objects.erase id }.release o
  | none => s

end Session

end ReactiveFrames
