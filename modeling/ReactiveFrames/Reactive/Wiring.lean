import ReactiveFrames.Reactive.Notify

/-!
# Wiring listeners

A listener is linked by making it an observer of every property that it points at, and seeded by
running it once. A tree of objects is linked and seeded with the children of an object before the
object itself, and the listeners of an object in their order.
-/

namespace ReactiveFrames

namespace World

/-- Makes a listener an observer of what one of its arguments points at. -/
def linkPointer (owner : ObjectRef) (listener : String) (w : World) (p : Pointer) : World :=
  if w.isAlive p.object then w.modify p.object (·.addObserver p.property (.listener owner listener))
  else w.report (.released listener)

/-- Makes a listener an observer of everything that it points at. -/
def link (owner : ObjectRef) (listener : String) (w : World) : World :=
  (((w.object owner).pointers.find? listener).getD []).foldl (linkPointer owner listener) w

/-- Nesting that a tree of objects can have. -/
def treeDepth (w : World) : Nat := w.host.objects.size + 1

theorem size_le_add_treeDepth (w : World) (n : Nat) : w.host.objects.size ≤ n + w.treeDepth := by
  rw [treeDepth]
  omega

/-- Does something for an object and all below it, of which there are less than `depth` levels:
children come before their parent. -/
def visit {ε : Type} (act : ObjectRef → Effect ε Unit) : Nat → ObjectRef → Effect ε Unit
  | 0, _ => Run.exhaust
  | depth + 1, o => do
    let children := (World.object (← Run.state) o).children
    children.forM (visit act depth)
    act o

/-- Links the listeners of an object. -/
def linkListeners {ε : Type} (o : ObjectRef) : Effect ε Unit := do
  let names := (World.object (← Run.state) o).listenerNames
  names.forM fun name ↦ Run.update (World.link o name)

/-- Runs the listeners of an object. -/
def seedListeners {ε : Type} (o : ObjectRef) : Effect ε Unit := do
  let names := (World.object (← Run.state) o).listenerNames
  names.forM (World.fire o)

/-- Links every listener of a tree. -/
def linkTree {ε : Type} (o : ObjectRef) : Effect ε Unit := fun w ↦
  visit linkListeners w.treeDepth o w

/-- Runs every listener of a tree once. -/
def seedTree {ε : Type} (o : ObjectRef) : Effect ε Unit := fun w ↦
  visit seedListeners w.treeDepth o w

end World

end ReactiveFrames
