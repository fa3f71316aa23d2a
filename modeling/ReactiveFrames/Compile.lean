import ReactiveFrames.Component
import ReactiveFrames.Reactive.Wiring

/-!
# Compiling frames

A frame is compiled in five passes. Objects are built, one for each frame, with literals as values
and function bodies as callables; then the paths of listener arguments are resolved to objects, the
listeners are linked and seeded, and the objects are given components. The first fault ends the
compile. At its end the root object becomes a global variable of the scripts.

The callable of a function member is what its source evaluates to when it is assigned to a variable
of its own. The variables are numbered through, and they remain.

## Main definitions

* `CompileError`: why there are no objects for a frame.
* `pathTarget`: what a path in a listener argument means.
* `assemble`, `compileObject`, `compile`: the first three passes, the first four, and all of them.
-/

namespace ReactiveFrames

open Script (Value)

/-- Why a frame does not compile. Objects are named by their paths. -/
inductive CompileError where
  | duplicateMember (object name : String)
  /-- A path without an object or without a property. -/
  | invalidPath (segments : List String)
  /-- No object is at the path of a listener argument. -/
  | unresolvedPath (listener path : String)
  | script (object member : String) (error : Script.ScriptError)
  | unknownClass (name : String)
  /-- The source of a function member evaluates to something else. -/
  | notAFunction (object member : String)
  deriving DecidableEq, Repr

/-- Wording of a compile error. -/
def CompileError.message : CompileError → String
  | duplicateMember object name => "Multi defined property names: " ++ name ++ " in " ++ object
  | invalidPath segments => "Too short path expression: " ++ ".".intercalate segments
  | unresolvedPath listener path =>
    "No object at path " ++ path ++ " (listener " ++ listener ++ ")"
  | script object member error =>
    "Failed to compile " ++ object ++ "." ++ member ++ ": " ++ error.message
  | unknownClass name => "Unknown class name: " ++ name
  | notAFunction object member =>
    "Internal error: " ++ object ++ "." ++ member ++ " did not evaluate to a function"

/-! ## Paths -/

/-- Path of an object and name of its property that the segments of a path stand for, inside the
object at `selfPath`. The first segment `self` is that object. -/
def pathTarget (selfPath : String) (segments : List String) :
    Except CompileError (String × String) :=
  match segments.dropLast, segments.getLast? with
  | first :: inner, some property =>
    .ok (".".intercalate ((if first = "self" then selfPath else first) :: inner), property)
  | _, _ => .error (.invalidPath segments)

/-- Objects of a tree by their paths. -/
def collectPaths (w : World) : Nat → ObjectRef → Table ObjectRef → Table ObjectRef
  | 0, _, objects => objects
  | depth + 1, o, objects =>
    (World.object w o).children.foldl (fun objects c ↦ collectPaths w depth c objects)
      (objects.insert (World.object w o).path o)

/-- Pointers of the arguments of a listener. -/
def pointersOf (objects : Table ObjectRef) (selfPath listener : String) :
    List PathArgument → Except CompileError (List Pointer)
  | [] => .ok []
  | a :: rest => do
    let (path, property) ← pathTarget selfPath a.path
    match objects.find? path with
    | none => throw (.unresolvedPath (selfPath ++ "." ++ listener) path)
    | some target =>
      pure (⟨a.name, target, property⟩ :: (← pointersOf objects selfPath listener rest))

/-! ## Passes -/

section Passes

/-- Name of the variable that a function member is assigned to. -/
def functionVariable (n : Nat) : String := "_amber_temp_var" ++ toString n

/-- Evaluates a function member, the `n`th one of a compile, into a callable. -/
def compileFunction (path name : String) (f : Function) (n : Nat) :
    Effect CompileError Value := do
  Script.resetFailures
  let result ← (World.evaluate (functionVariable n ++ " = " ++ f.source)).attempt
  let failed := (← Run.state).failures != 0
  Script.resetFailures
  match result with
  | .error e => Run.fail (.script path name e)
  | .ok callable =>
    if failed || !callable.isCallable then Run.fail (.notAFunction path name) else pure callable

/-- Records a member name of an object. -/
def recordMember (o : ObjectRef) (path name : String) : Effect CompileError Unit := fun w ↦
  match (World.object w o).addMemberName? name with
  | some object => .ok () (World.modify w o fun _ ↦ object)
  | none => .error (.duplicateMember path name) w

/-- Stores the callable of a function member. -/
def storeFunction (o : ObjectRef) (name : String) (f : Function) (callable : Value) :
    World → World :=
  match f with
  | .init .. => fun w ↦ World.modify w o (·.addInit name callable)
  | .listener .. => fun w ↦ World.modify w o (·.setListener name callable)
  | .event .. | .procedure .. => World.define o name callable

/-- Stores the value of a literal. -/
def storeLiteral (o : ObjectRef) (name : String) (value : Literal) (w : World) : World :=
  let (v, h) := value.toValue w.heap
  World.define o name v { w with heap := h }

mutual

/-- Builds the object of a frame, of whose functions `n` have been compiled before. -/
def buildMember (o : ObjectRef) (path : String) (n : Nat) : Member → Effect CompileError Nat
  | .property name _ _ value => do
    recordMember o path name
    Run.update (storeLiteral o name value)
    pure n
  | .function name _ f => do
    recordMember o path name
    let callable ← compileFunction path name f n
    Run.update (storeFunction o name f callable)
    pure (n + 1)
  | .frame name _ className members => do
    recordMember o path name
    let childPath := path ++ "." ++ name
    let child ← Run.step (World.addObject (.ofFrame ⟨className, name, members⟩ childPath))
    let n ← buildMembers child childPath n members
    Run.update (World.addChild o child)
    pure n

/-- Builds members one after the other. -/
def buildMembers (o : ObjectRef) (path : String) (n : Nat) : List Member → Effect CompileError Nat
  | [] => pure n
  | m :: ms => do
    let n ← buildMember o path n m
    buildMembers o path n ms

end

/-- Builds the objects of a frame and of all frames in it. -/
def build (f : Frame) : Effect CompileError ObjectRef := do
  let root ← Run.step (World.addObject (.ofFrame f f.instanceName))
  let _ ← buildMembers root f.instanceName 0 f.members
  pure root

/-- Resolves the listener arguments of an object. -/
def resolveListeners (objects : Table ObjectRef) (o : ObjectRef) :
    List Member → Effect CompileError Unit
  | [] => pure ()
  | .function name _ (.listener arguments ..) :: ms => do
    let path := (World.object (← Run.state) o).path
    let pointers ← Run.ofExcept (pointersOf objects path name arguments)
    Run.update fun w ↦ World.modify w o (·.setPointers name pointers)
    resolveListeners objects o ms
  | _ :: ms => resolveListeners objects o ms

/-- Resolves the listener arguments of an object and of all below it, each object before its
children. -/
def resolve (objects : Table ObjectRef) : Nat → ObjectRef → Effect CompileError Unit
  | 0, _ => Run.exhaust
  | depth + 1, o => do
    let object := World.object (← Run.state) o
    resolveListeners objects o object.frame.members
    object.children.forM (resolve objects depth)

/-- Builds the objects of a frame and links their listeners, none of which has run yet. -/
def assemble (f : Frame) : Effect CompileError ObjectRef := do
  let root ← build f
  let w ← Run.state
  resolve (collectPaths w (World.treeDepth w) root Table.empty) (World.treeDepth w) root
  World.linkTree root
  pure root

/-- Compiles a frame to reactive objects, and yields the root. -/
def compileObject (f : Frame) : Effect CompileError ObjectRef := do
  let root ← assemble f
  World.seedTree root
  pure root

/-- A compiled frame. -/
structure Program where
  root : ObjectRef
  component : Component

/-- Compiles a frame, and makes its root a global variable. -/
def compile (registry : ComponentRegistry) (f : Frame) : Effect CompileError Program := do
  let root ← compileObject f
  let component ← fun w ↦
    Run.ofExcept ((Component.ofObject registry w root).mapError CompileError.unknownClass) w
  Run.update fun w : World ↦ w.mapHeap (·.bindGlobal f.instanceName (World.toValue w root))
  pure ⟨root, component⟩

end Passes

end ReactiveFrames
