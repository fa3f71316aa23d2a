import ReactiveFrames.Reactive.Object

/-!
# Liveness of objects

A pointer does not keep its object alive, and neither does a watcher the object that it writes. An
object lives as long as it is kept from outside or pinned by a computation that is under way, or as
something refers to it that lives itself: a global variable, a variable of a pinned scope, a cell of
the heap, a property of an object, the value that a watcher is going to write. Cells that refer to
each other keep each other alive.

So the living cells are the greatest set of which each member is referred to by a root or by a
member. It is reached from all cells by dropping, again and again, those that nothing refers to.
-/

namespace ReactiveFrames

open Script (Value ArrayRef RecordRef ClosureRef FrameRef Pin)

/-- What a value can refer to. -/
inductive Cell where
  | array (ref : ArrayRef)
  | record (ref : RecordRef)
  | closure (ref : ClosureRef)
  | frame (ref : FrameRef)
  | object (o : ObjectRef)
  deriving DecidableEq

/-- Cell that a value refers to. -/
def Cell.ofValue? : Value → Option Cell
  | .array ref => some (.array ref)
  | .record ref => some (.record ref)
  | .closure ref => some (.closure ref)
  | .host ref => some (.object ⟨ref.index⟩)
  | _ => none

/-- Cells that a pin keeps. -/
def Cell.ofPin : Pin → List Cell
  | .value v => (Cell.ofValue? v).toList
  | .scope s => s.map Cell.frame

/-- Value that an observer holds. -/
def Observer.value? : Observer → Option Value
  | .watcher _ (some f) => some f.value
  | _ => none

namespace World

/-- All cells of a world. -/
def cells (w : World) : List Cell :=
  (List.range w.heap.arrays.size).map (fun n ↦ .array ⟨n⟩) ++
    (List.range w.heap.records.size).map (fun n ↦ .record ⟨n⟩) ++
    (List.range w.heap.closures.size).map (fun n ↦ .closure ⟨n⟩) ++
    (List.range w.heap.frames.size).map (fun n ↦ .frame ⟨n⟩) ++
    (List.range w.host.objects.size).map (fun n ↦ .object ⟨n⟩)

/-- Cells that a cell refers to. -/
def references (w : World) : Cell → List Cell
  | .array ref => (w.heap.items ref).toList.filterMap Cell.ofValue?
  | .record ref => (w.heap.entries ref).values.filterMap Cell.ofValue?
  | .closure ref => ((w.heap.closures[ref.index]?).elim [] (·.scope)).map Cell.frame
  | .frame ref => (w.heap.locals ref).values.filterMap Cell.ofValue?
  | .object o =>
    let object := w.object o
    object.properties.values.filterMap Cell.ofValue? ++
      (object.listeners ++ object.inits).filterMap (fun l ↦ Cell.ofValue? l.2) ++
      (object.observers.values.flatMap id).filterMap (fun o ↦ o.value?.bind Cell.ofValue?) ++
      object.children.map Cell.object

/-- Cells that live without being referred to by another cell. -/
def roots (w : World) : List Cell :=
  w.host.held.map Cell.object ++ w.heap.globals.values.filterMap Cell.ofValue? ++
    w.pins.flatMap Cell.ofPin

/-- Drops the cells to which no other one and no root refers, at most `rounds` times. -/
def settle (w : World) : Nat → List Cell → List Cell
  | 0, cells => cells
  | rounds + 1, cells =>
    let referred := w.roots ++ cells.flatMap w.references
    let rest := cells.filter (· ∈ referred)
    if rest.length = cells.length then cells else settle w rounds rest

/-- The cells that live. -/
def living (w : World) : List Cell := w.settle w.cells.length w.cells

/-- An object has not been released. -/
def isAlive (w : World) (o : ObjectRef) : Bool :=
  w.host.held.contains o || w.living.contains (.object o)

/-- Path of the object that a pointer leads to, if it lives. -/
def targetPath? (w : World) (p : Pointer) : Option String :=
  if w.isAlive p.object then some (w.object p.object).path else none

/-- Text that shows a pointer. -/
def pointerText (w : World) (p : Pointer) : String :=
  p.argument ++ " -> " ++ (w.targetPath? p).getD "<released>" ++ "." ++ p.property

end World

end ReactiveFrames
