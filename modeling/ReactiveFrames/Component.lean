import ReactiveFrames.Reactive.Object

/-!
# Components

A component stands for one object towards an application. The components of a program form a tree of
the shape of the objects, provided that the class of every object is registered.

## Main definitions

* `ComponentRegistry`: the classes for which there are components.
* `Component.ofObject`: the components of a tree of objects.
* `Component.dump`: a listing of a tree with the values of all properties.
-/

namespace ReactiveFrames

/-- Classes for which there are components. -/
structure ComponentRegistry where
  classes : List String
  /-- All other classes have components too. -/
  openToAll : Bool := false
  deriving DecidableEq, Repr

/-- The class of frames that every registry has at first. -/
def baseClass : String := "Object"

namespace ComponentRegistry

/-- There are components for a class. -/
def allows (r : ComponentRegistry) (className : String) : Bool :=
  r.openToAll || r.classes.contains className

end ComponentRegistry

/-- A component of an object and those of its children. -/
inductive Component where
  | mk (object : ObjectRef) (children : List Component)

namespace Component

/-- Object of a component. -/
def object : Component → ObjectRef
  | mk object _ => object

/-- Components of the children, in their order. -/
def children : Component → List Component
  | mk _ children => children

instance : Inhabited Component := ⟨.mk ⟨0⟩ []⟩

/-- Components of an object and all below it, of which there are less than `depth` levels. The error
is the first class without components. -/
def ofObjectWithin (registry : ComponentRegistry) (w : World) :
    Nat → ObjectRef → Except String Component
  | 0, o => .error (World.object w o).className
  | depth + 1, o => do
    let object := World.object w o
    if !registry.allows object.className then throw object.className
    pure (.mk o (← object.children.mapM (ofObjectWithin registry w depth)))

/-- Components of an object and all below it, or the first class without components. -/
def ofObject (registry : ComponentRegistry) (w : World) (o : ObjectRef) :
    Except String Component :=
  ofObjectWithin registry w (w.host.objects.size + 1) o

/-- First child with an instance name. -/
def child? (w : World) (c : Component) (name : String) : Option Component :=
  c.children.find? fun d ↦ (World.object w d.object).instanceName = name

/-- Component that is reached by instance names. -/
def search? (w : World) : Component → List String → Option Component
  | c, [] => some c
  | c, name :: names => (c.child? w name).bind fun d ↦ search? w d names

/-! ## Listings -/

/-- Line of the listing for a member that is no frame. -/
def dumpMember (w : World) (o : ReactiveObject) (pad : String) (m : Member) : Option String :=
  let header := pad ++ "  " ++ m.name ++ ": " ++ m.declared.display
  match m.function? with
  | some (.init ..) => some (header ++ " <init>\n")
  | _ =>
    match o.properties.find? m.name with
    | some v => (w.heap.description? v).map fun text ↦ header ++ " " ++ text ++ "\n"
    | none => some (header ++ " <undefined>\n")

/-- Lines of the listing for a member, given those of the children by their instance names. -/
def dumpEntry (w : World) (o : ReactiveObject) (pad : String)
    (children : List (String × Option String)) (m : Member) : Option String :=
  match m with
  | .frame name .. =>
    match children.find? fun c ↦ c.1 = name with
    | some c => c.2
    | none => some (pad ++ "  <Error: No frame: " ++ name ++ ">\n")
  | m => dumpMember w o pad m

/-- Lines of the listing of an object, given those of its children. -/
def dumpObject (w : World) (o : ReactiveObject) (level : Nat)
    (children : List (String × Option String)) : Option String :=
  let pad := String.ofList (List.replicate (2 * level) ' ')
  (o.frame.members.mapM (dumpEntry w o pad children)).map fun entries ↦
    pad ++ o.instanceName ++ ": " ++ o.className ++ " \x7b\n" ++
      pad ++ "  propertyName: [" ++ " ".intercalate o.propertyNames ++ "]\n" ++
      String.join entries ++ pad ++ "\x7d\n"

mutual

/-- Listing of a component at a level of indentation. -/
def dumpAt (w : World) (level : Nat) : Component → Option String
  | .mk object children =>
    dumpObject w (World.object w object) level (dumpChildren w (level + 1) children)

/-- Listings of components by the instance names of their objects. -/
def dumpChildren (w : World) (level : Nat) : List Component → List (String × Option String)
  | [] => []
  | c :: cs =>
    ((World.object w c.object).instanceName, dumpAt w level c) :: dumpChildren w level cs

end

/-- Listing of a component and all below it, unless a value contains itself. -/
def dump (w : World) (c : Component) : Option String := c.dumpAt w 0

end Component

end ReactiveFrames
