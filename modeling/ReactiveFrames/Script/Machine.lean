import ReactiveFrames.Run
import ReactiveFrames.Script.Error
import ReactiveFrames.Script.Render

/-!
# The script machine

The state that scripts run on: the heap, what the computations that are under way keep, the lines
written to the console, and the state of whatever objects lie outside the heap. What those objects
are is left open. A `Host` says how they are read, written and called, and a write may run further
scripts on the machine.

A value can be out of reach of all variables and still be needed, such as the left side of a sum
while the right one is evaluated. A computation pins such values, and the scopes that it opens, and
they stay pinned until it has ended, in whatever way it ends.

## Main definitions

* `Machine`: the state, with a parameter for the state outside the heap.
* `Machine.pinning`, `Machine.nested`: computations during which something is kept, or which count
  as a call.
* `Notice`: what is told to whoever runs the scripts.
* `Host`: access to what lies outside the heap.
* `Builtin.apply`: the functions that every script can call.
-/

namespace ReactiveFrames.Script

/-- What a computation keeps while it is under way: a value that it has not used up yet, or the
scopes that it runs in. -/
inductive Pin where
  | value (v : Value)
  | scope (s : Scope)

/-- A message to whoever runs the scripts. -/
structure Notice where
  text : String
  /-- Only of interest to who asks for details. -/
  detail : Bool

/-- State of scripts; `σ` is the state of the objects outside the heap. -/
structure Machine (σ : Type) where
  heap : Heap
  /-- What the computations that are under way keep, innermost first. -/
  pins : List Pin := []
  /-- Closures that are being called. -/
  depth : Nat := 0
  /-- Closures that may be called at once. -/
  maxDepth : Nat
  /-- Evaluations and calls that have failed since the count was reset. -/
  failures : Nat := 0
  /-- Lines written to the console, in order. -/
  console : Array String := #[]
  /-- Notices that were given, in order. -/
  notices : Array Notice := #[]
  host : σ

/-- A computation on a machine that may fail as a script does. -/
abbrev Action (σ α : Type) := Run (Machine σ) ScriptError α

/-- Access to what lies outside the heap. -/
structure Host (σ : Type) where
  /-- Value of a property of an object. -/
  read : HostRef → String → Machine σ → Value
  /-- Writes a property of an object. -/
  write : HostRef → String → Value → Action σ Unit
  /-- Calls a function that no script defines. -/
  call : ForeignRef → List Value → Action σ Value

namespace Machine

variable {σ ε α : Type}

/-- Changes the heap. -/
@[inline]
def mapHeap (f : Heap → Heap) (m : Machine σ) : Machine σ := { m with heap := f m.heap }

/-- Writes a line to the console. -/
def log (line : String) (m : Machine σ) : Machine σ := { m with console := m.console.push line }

/-- Gives a notice. -/
def note (n : Notice) (m : Machine σ) : Machine σ := { m with notices := m.notices.push n }

/-- Keeps values and scopes until a computation has ended. -/
@[inline]
def pinning (pins : List Pin) (x : Run (Machine σ) ε α) : Run (Machine σ) ε α := fun m ↦
  let outer := m.pins
  (x { m with pins := pins ++ outer }).mapState fun m' ↦ { m' with pins := outer }

/-- Keeps a value until a computation has ended. -/
@[inline]
def pinningValue (v : Value) (x : Run (Machine σ) ε α) : Run (Machine σ) ε α :=
  pinning [.value v] x

/-- Keeps values until a computation has ended. -/
@[inline]
def pinningValues (vs : List Value) (x : Run (Machine σ) ε α) : Run (Machine σ) ε α :=
  pinning (vs.map .value) x

/-- Counts a computation as the call of a closure until it has ended. -/
@[inline]
def nested (x : Run (Machine σ) ε α) : Run (Machine σ) ε α := fun m ↦
  let outer := m.depth
  (x { m with depth := outer + 1 }).mapState fun m' ↦ { m' with depth := outer }

/-- However a computation ends, what it has pinned is pinned no longer, and nothing else is taken
back. -/
theorem state_pinning (pins : List Pin) (x : Run (Machine σ) ε α) (m : Machine σ) :
    (pinning pins x m).state
      = { (x { m with pins := pins ++ m.pins }).state with pins := m.pins } :=
  Outcome.state_mapState _ _

/-- However a call ends, it is counted no longer, and nothing else is taken back. -/
theorem state_nested (x : Run (Machine σ) ε α) (m : Machine σ) :
    (nested x m).state = { (x { m with depth := m.depth + 1 }).state with depth := m.depth } :=
  Outcome.state_mapState _ _

end Machine

namespace Action

variable {σ α : Type}

/-- Changes the heap. -/
@[inline]
def onHeap (f : Heap → Heap) : Action σ Unit := Run.update (Machine.mapHeap f)

/-- Changes the heap and yields a value of it. -/
@[inline]
def allocate (f : Heap → α × Heap) : Action σ α :=
  Run.step fun m ↦ let r := f m.heap; (r.1, { m with heap := r.2 })

/-- A part of the heap. -/
@[inline]
def ofHeap (f : Heap → α) : Action σ α := fun m ↦ .ok (f m.heap) m

/-- Plain text of a value. -/
def text (v : Value) : Action σ String := fun m ↦ Run.ofOption (m.heap.text? v) m

/-- Description of a value. -/
def description (v : Value) : Action σ String := fun m ↦ Run.ofOption (m.heap.description? v) m

end Action

/-! ## Built-in functions -/

/-- Number of an argument; a missing one is no number. -/
def numberArgument (arguments : List Value) (n : Nat) : Float :=
  (arguments[n]?.map Value.toNumber).getD nan

/-- Joins the numbers of all arguments; one that is no number spoils the result. -/
def foldNumbers (f : Float → Float → Float) (start : Float) (arguments : List Value) : Float :=
  arguments.foldl (fun acc v ↦
    let x := v.toNumber
    if acc.isNaN || x.isNaN then nan else f acc x) start

/-- Calls a built-in function. -/
def Builtin.apply {σ : Type} (f : Builtin) (arguments : List Value) : Action σ Value :=
  let onFirst (g : Float → Float) : Action σ Value :=
    pure (.number (g (numberArgument arguments 0)))
  match f with
  | log => do
    let parts ← arguments.mapM Action.text
    Run.update (Machine.log (" ".intercalate parts))
    pure .undefined
  | string =>
    match arguments with
    | v :: _ => do pure (.string (← Action.text v))
    | [] => pure (.string "")
  | number =>
    match arguments with
    | v :: _ => pure (.number v.toNumber)
    | [] => pure (.number 0.0)
  | abs => onFirst Float.abs
  | floor => onFirst Float.floor
  | ceil => onFirst Float.ceil
  | round => onFirst fun x ↦ (x + 0.5).floor
  | sqrt => onFirst Float.sqrt
  | min =>
    pure (.number (foldNumbers (fun a x ↦ if x < a then x else a) (1.0 / 0.0) arguments))
  | max =>
    pure (.number (foldNumbers (fun a x ↦ if a < x then x else a) (-1.0 / 0.0) arguments))
  | pow => pure (.number (numberArgument arguments 0 ^ numberArgument arguments 1))

/-- Ratio of the circumference of a circle to its diameter. -/
def pi : Float := Float.ofBits 0x400921FB54442D18

/-- The record `Math`. -/
def mathEntries : Table Value :=
  Table.ofList <|
    ([.abs, .floor, .ceil, .round, .sqrt, .min, .max, .pow] : List Builtin).map
      (fun f ↦ (f.name, Value.builtin f)) ++ [("PI", .number pi)]

/-- Heap with the global variables that every script finds. -/
def Heap.initial : Heap :=
  let (console, h) := ({} : Heap).newRecord (Table.ofList [("log", .builtin .log)])
  let (math, h) := h.newRecord mathEntries
  { h with
    globals := Table.ofList
      [("console", console), ("Math", math), ("String", .builtin .string),
        ("Number", .builtin .number), ("NaN", .number nan), ("Infinity", .number (1.0 / 0.0))] }

/-- Closures that may be called at once, unless another limit is set. -/
def defaultMaxDepth : Nat := 256

/-- Machine that has run nothing. -/
def Machine.initial {σ : Type} (maxDepth : Nat) (host : σ) : Machine σ :=
  { heap := Heap.initial, maxDepth := maxDepth, host := host }

end ReactiveFrames.Script
