import ReactiveFrames.Data
import ReactiveFrames.Diagnostics
import ReactiveFrames.Script.Machine
import ReactiveFrames.Text.Quoted

/-!
# Reactive objects

A reactive object is made from a frame. Its properties are observed: the observers of a property run
whenever it is set. A listener is an observer that belongs to an object; it holds pointers to the
properties that its arguments are bound to, and its result becomes a property of its owner.

Objects refer to each other by number. The graph of all objects is the state outside the heap of the
script machine, and the two together are the world in which everything happens.

## Main definitions

* `ReactiveObject`, `Pointer`, `Observer`: one object and what it knows of others.
* `ObjectGraph`, `World`: all objects, and the machine around them.
-/

namespace ReactiveFrames

open Script (Value HostRef Machine)

/-- Number of a reactive object. -/
structure ObjectRef where
  index : Nat
  deriving DecidableEq, Repr

/-- Binding of a listener argument to a property of an object. -/
structure Pointer where
  /-- Name of the argument. -/
  argument : String
  object : ObjectRef
  property : String
  deriving DecidableEq, Repr

/-- A write that an observer makes when it runs. -/
structure FollowUp where
  object : ObjectRef
  property : String
  value : Value

/-- What runs when a property is set. -/
inductive Observer where
  /-- Runs a listener of its owner. -/
  | listener (owner : ObjectRef) (name : String)
  /-- Writes the new value to the console under a tag, and may write a property. -/
  | watcher (tag : String) (followUp : Option FollowUp)

/-- An object with observed properties. -/
structure ReactiveObject where
  frame : Frame
  /-- Instance names from the root to the object, joined by points. -/
  path : String
  properties : Table Value
  /-- Names of members, in order. -/
  memberNames : List String := []
  /-- Callables of the listeners, in order. -/
  listeners : List (String × Value) := []
  /-- What the arguments of a listener are bound to. -/
  pointers : Table (List Pointer) := Table.empty
  /-- Callables of the init functions, in order. -/
  inits : List (String × Value) := []
  observers : Table (List Observer) := Table.empty
  children : List ObjectRef := []
  /-- Properties whose observers are running. -/
  notifying : List String := []

/-- Functions outside scripts that scripts may call. -/
inductive Foreign where
  /-- Reads a data frame by its identifier. -/
  | readData (reader : DataReader)
  /-- Yields an array of its arguments. -/
  | echo
  /-- Fails with a text. -/
  | failing (text : String)

/-- All objects, and what is outside scripts besides them. -/
structure ObjectGraph where
  objects : Array ReactiveObject := #[]
  /-- Objects that are kept from outside, such as those of a compiled program. -/
  held : List ObjectRef := []
  foreigns : Array Foreign := #[]
  diagnostics : Diagnostics

/-- The script machine with its objects. -/
abbrev World := Machine ObjectGraph

/-- A computation on a world. -/
abbrev Effect (ε α : Type) := Run World ε α

namespace ReactiveObject

/-- Object of a frame at a path, without the members of the frame. -/
def ofFrame (frame : Frame) (path : String) : ReactiveObject :=
  { frame := frame
    path := path
    properties := initialProperties frame.className frame.instanceName }

/-- An object without a frame of its own. -/
def blank : ReactiveObject := ofFrame ⟨"", "", []⟩ ""

instance : Inhabited ReactiveObject := ⟨blank⟩

/-- Name of an object within its parent. -/
def instanceName (o : ReactiveObject) : String := o.frame.instanceName

/-- Class of an object. -/
def className (o : ReactiveObject) : String := o.frame.className

/-- Names of the properties in ascending order. -/
def propertyNames (o : ReactiveObject) : List String := o.properties.names

/-- Text that shows an object by its path, its class and the names of its properties. -/
def summary (o : ReactiveObject) : String :=
  "ReactiveObject \x7b path: " ++ Text.quoted o.path ++ ", class_name: " ++
    Text.quoted o.className ++ ", properties: [" ++
    ", ".intercalate (o.propertyNames.map Text.quoted) ++ "] \x7d"

/-- Observers of a property in the order in which they were added. -/
def observersOf (o : ReactiveObject) (property : String) : List Observer :=
  (o.observers.find? property).getD []

/-- Callable of a listener. -/
def listener? (o : ReactiveObject) (name : String) : Option Value :=
  (o.listeners.find? fun l ↦ l.1 = name).map (·.2)

/-- Names of the listeners in order. -/
def listenerNames (o : ReactiveObject) : List String := o.listeners.map (·.1)

/-- Stores a value without running observers. -/
def define (o : ReactiveObject) (property : String) (value : Value) : ReactiveObject :=
  { o with properties := o.properties.insert property value }

/-- Adds an observer of a property after its other ones. -/
def addObserver (o : ReactiveObject) (property : String) (observer : Observer) : ReactiveObject :=
  { o with observers := o.observers.insert property (o.observersOf property ++ [observer]) }

/-- Records a member name, unless it is recorded already. -/
def addMemberName? (o : ReactiveObject) (name : String) : Option ReactiveObject :=
  if name ∈ o.memberNames then none else some { o with memberNames := o.memberNames ++ [name] }

/-- Stores the callable of a listener, in place of an earlier one. -/
def setListener (o : ReactiveObject) (name : String) (callable : Value) : ReactiveObject :=
  { o with
    listeners :=
      if o.listeners.any fun l ↦ l.1 == name then
        o.listeners.map fun l ↦ if l.1 = name then (name, callable) else l
      else o.listeners ++ [(name, callable)] }

/-- Adds an init function after the other ones. -/
def addInit (o : ReactiveObject) (name : String) (callable : Value) : ReactiveObject :=
  { o with inits := o.inits ++ [(name, callable)] }

/-- Binds the arguments of a listener. -/
def setPointers (o : ReactiveObject) (name : String) (pointers : List Pointer) : ReactiveObject :=
  { o with pointers := o.pointers.insert name pointers }

end ReactiveObject

namespace ObjectGraph

/-- Object of a number. -/
def object (g : ObjectGraph) (o : ObjectRef) : ReactiveObject := (g.objects[o.index]?).getD default

/-- Changes an object. -/
def modify (g : ObjectGraph) (o : ObjectRef) (f : ReactiveObject → ReactiveObject) : ObjectGraph :=
  { g with objects := g.objects.modify o.index f }

end ObjectGraph

namespace World

/-- Object of a number. -/
def object (w : World) (o : ObjectRef) : ReactiveObject := w.host.object o

/-- Changes the object graph. -/
@[inline]
def mapGraph (f : ObjectGraph → ObjectGraph) (w : World) : World := { w with host := f w.host }

/-- Changes an object. -/
def modify (w : World) (o : ObjectRef) (f : ReactiveObject → ReactiveObject) : World :=
  w.mapGraph (·.modify o f)

/-- Value by which scripts refer to an object. -/
def toValue (w : World) (o : ObjectRef) : Value := .host ⟨o.index, (w.object o).className⟩

/-- Adds an object that is kept from outside. -/
def addObject (object : ReactiveObject) (w : World) : ObjectRef × World :=
  let o : ObjectRef := ⟨w.host.objects.size⟩
  (o, w.mapGraph fun g ↦ { g with objects := g.objects.push object, held := o :: g.held })

/-- Stops keeping an object from outside. -/
def letGo (o : ObjectRef) (w : World) : World :=
  w.mapGraph fun g ↦ { g with held := g.held.filter (· != o) }

/-- Collects a failure, and gives notice of it. -/
def report (e : ObserverError) (w : World) : World :=
  (w.mapGraph fun g ↦ { g with diagnostics := g.diagnostics.report e }).note ⟨e.message, false⟩

/-- Value of a property, if it is there. -/
def get? (w : World) (o : ObjectRef) (property : String) : Option Value :=
  (w.object o).properties.find? property

/-- Stores a value without running observers. -/
def define (o : ObjectRef) (property : String) (value : Value) (w : World) : World :=
  w.modify o (·.define property value)

/-- Makes an object the child of another one, which also holds it as a property. -/
def addChild (parent child : ObjectRef) (w : World) : World :=
  (w.define parent (w.object child).instanceName (w.toValue child)).modify parent fun o ↦
    { o with children := o.children ++ [child] }

/-- First child with an instance name. -/
def child? (w : World) (parent : ObjectRef) (name : String) : Option ObjectRef :=
  (w.object parent).children.find? fun c ↦ (w.object c).instanceName = name

/-- Defines a function outside scripts as a global variable. -/
def defineForeign (name : String) (f : Foreign) (w : World) : World :=
  let value := Value.foreign ⟨w.host.foreigns.size, name⟩
  let w := w.mapGraph fun g ↦ { g with foreigns := g.foreigns.push f }
  w.mapHeap (·.bindGlobal name value)

end World

end ReactiveFrames
