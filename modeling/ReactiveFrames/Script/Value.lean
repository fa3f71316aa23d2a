import ReactiveFrames.Decimal.Notation
import ReactiveFrames.Decimal.Reading
import ReactiveFrames.Script.Syntax
import ReactiveFrames.Table
import ReactiveFrames.Text.Blank

/-!
# Values of scripts

Arrays, records and closures live in a heap, and a value refers to them by number: copying a value
shares what it refers to, and two references are the same exactly if their numbers are. A reference
to an object outside the heap carries the name of its class, which is all that a script sees of it
without asking.

## Main definitions

* `Value`, with the conversions `Value.isTruthy` and `Value.toNumber`.
* `Value.strictEquals`, `Value.looseEquals`: the two equalities.
* `Heap`: the cells that values refer to.
-/

namespace ReactiveFrames.Script

/-- Number of an array. -/
structure ArrayRef where
  index : Nat
  deriving DecidableEq, Repr

/-- Number of a record. -/
structure RecordRef where
  index : Nat
  deriving DecidableEq, Repr

/-- Number of a closure. -/
structure ClosureRef where
  index : Nat
  deriving DecidableEq, Repr

/-- Number of a table of local variables. -/
structure FrameRef where
  index : Nat
  deriving DecidableEq, Repr

/-- Number of an object outside the heap, with the name of its class. -/
structure HostRef where
  index : Nat
  className : String
  deriving DecidableEq, Repr

/-- Number of a function that is defined outside scripts, with its name. -/
structure ForeignRef where
  index : Nat
  name : String
  deriving DecidableEq, Repr

/-- Functions that every script can call. -/
inductive Builtin where
  | log
  | string
  | number
  | abs
  | floor
  | ceil
  | round
  | sqrt
  | min
  | max
  | pow
  deriving DecidableEq, Repr

/-- Name of a function that every script can call. -/
def Builtin.name : Builtin → String
  | log => "log"
  | string => "String"
  | number => "Number"
  | abs => "abs"
  | floor => "floor"
  | ceil => "ceil"
  | round => "round"
  | sqrt => "sqrt"
  | min => "min"
  | max => "max"
  | pow => "pow"

/-- A value of a script. -/
inductive Value where
  | undefined
  | null
  | bool (b : Bool)
  | number (x : Float)
  | string (s : String)
  | array (ref : ArrayRef)
  | record (ref : RecordRef)
  | closure (ref : ClosureRef)
  | builtin (f : Builtin)
  | foreign (ref : ForeignRef)
  | host (ref : HostRef)
  deriving Inhabited

/-- The scopes that a name is looked up in before the global one, innermost first. -/
abbrev Scope := List FrameRef

/-- A function with the scopes it was created in. -/
structure Closure where
  function : FunctionDecl
  scope : Scope

/-- The cells that values refer to, and the variables. -/
structure Heap where
  /-- Variables of the global scope. -/
  globals : Table Value := Table.empty
  /-- Variables of all other scopes. -/
  frames : Array (Table Value) := #[]
  arrays : Array (Array Value) := #[]
  records : Array (Table Value) := #[]
  closures : Array Closure := #[]

/-- A number that is no number. -/
def nan : Float := 0.0 / 0.0

namespace Value

/-- The value is missing. -/
def isUndefined : Value → Bool
  | undefined => true
  | _ => false

/-- The value stands for nothing. -/
def isNullish : Value → Bool
  | undefined | null => true
  | _ => false

/-- The value can be called. -/
def isCallable : Value → Bool
  | closure _ | builtin _ | foreign _ => true
  | _ => false

/-- The value counts as true in a condition. -/
def isTruthy : Value → Bool
  | undefined | null => false
  | bool b => b
  | number x => x != 0.0 && !x.isNaN
  | string s => !s.isEmpty
  | _ => true

/-- The value has no text of its own in a sum. -/
def isArithmetic : Value → Bool
  | undefined | null | bool _ | number _ => true
  | _ => false

/-- Text without the blanks at its ends. -/
def trimmed (s : String) : List Char :=
  ((s.toList.dropWhile Text.isBlank).reverse.dropWhile Text.isBlank).reverse

/-- Number that a value stands for in arithmetic. -/
def toNumber : Value → Float
  | null => 0.0
  | bool b => if b then 1.0 else 0.0
  | number x => x
  | string s =>
    let text := trimmed s
    if text.isEmpty then 0.0 else (Decimal.float? text).getD nan
  | _ => nan

/-- Name of the type of a value. -/
def typeName : Value → String
  | undefined => "undefined"
  | bool _ => "boolean"
  | number _ => "number"
  | string _ => "string"
  | closure _ | builtin _ | foreign _ => "function"
  | null | array _ | record _ | host _ => "object"

/-- Equality of values of one type; references are equal if they refer to the same cell. -/
def strictEquals : Value → Value → Bool
  | undefined, undefined => true
  | null, null => true
  | bool a, bool b => a == b
  | number a, number b => a == b
  | string a, string b => a == b
  | array a, array b => a == b
  | record a, record b => a == b
  | closure a, closure b => a == b
  | builtin a, builtin b => a == b
  | foreign a, foreign b => a.index == b.index
  | host a, host b => a.index == b.index
  | _, _ => false

/-- Two values are compared as numbers by the loose equality. -/
def comparesAsNumbers : Value → Value → Bool
  | number _, string _ | string _, number _ | bool _, _ | _, bool _ => true
  | _, _ => false

/-- Equality after conversion: `undefined` and `null` are equal to each other alone, a boolean
counts as a number, and so does a string next to a number. -/
def looseEquals (a b : Value) : Bool :=
  if a.isNullish && b.isNullish then true
  else if a.comparesAsNumbers b then !a.isNullish && !b.isNullish && a.toNumber == b.toNumber
  else a.strictEquals b

end Value

/-- Ordering operator on two values: strings by code point, all else as numbers. -/
def compareValues (strings : String → String → Bool) (numbers : Float → Float → Bool)
    (a b : Value) : Bool :=
  match a, b with
  | .string s, .string t => strings s t
  | a, b => numbers a.toNumber b.toNumber

namespace Heap

/-- Items of an array. -/
def items (h : Heap) (ref : ArrayRef) : Array Value := (h.arrays[ref.index]?).getD #[]

/-- Entries of a record. -/
def entries (h : Heap) (ref : RecordRef) : Table Value := (h.records[ref.index]?).getD Table.empty

/-- Cells whose contents can refer to other cells. -/
def size (h : Heap) : Nat := h.arrays.size + h.records.size

/-- Puts an array into the heap. -/
def newArray (h : Heap) (items : Array Value) : Value × Heap :=
  (.array ⟨h.arrays.size⟩, { h with arrays := h.arrays.push items })

/-- Puts a record into the heap. -/
def newRecord (h : Heap) (entries : Table Value) : Value × Heap :=
  (.record ⟨h.records.size⟩, { h with records := h.records.push entries })

/-- Puts a closure into the heap. -/
def newClosure (h : Heap) (c : Closure) : Value × Heap :=
  (.closure ⟨h.closures.size⟩, { h with closures := h.closures.push c })

/-- Changes the items of an array. -/
def setItems (h : Heap) (ref : ArrayRef) (f : Array Value → Array Value) : Heap :=
  { h with arrays := h.arrays.modify ref.index f }

/-- Binds a name in a record. -/
def setEntry (h : Heap) (ref : RecordRef) (name : String) (value : Value) : Heap :=
  { h with records := h.records.modify ref.index (·.insert name value) }

/-! ## Variables -/

/-- Variables of a local scope. -/
def locals (h : Heap) (ref : FrameRef) : Table Value := (h.frames[ref.index]?).getD Table.empty

/-- Opens a scope inside another one. -/
def openScope (h : Heap) (scope : Scope) : Scope × Heap :=
  (⟨h.frames.size⟩ :: scope, { h with frames := h.frames.push Table.empty })

/-- Value of the innermost variable of a name. -/
def lookup (h : Heap) (name : String) : Scope → Option Value
  | [] => h.globals.find? name
  | ref :: outer =>
    match (h.locals ref).find? name with
    | some v => some v
    | none => h.lookup name outer

/-- Binds a variable of a local scope. -/
def bindLocal (h : Heap) (ref : FrameRef) (name : String) (value : Value) : Heap :=
  { h with frames := h.frames.modify ref.index (·.insert name value) }

/-- Binds a variable of the global scope. -/
def bindGlobal (h : Heap) (name : String) (value : Value) : Heap :=
  { h with globals := h.globals.insert name value }

/-- Declares a variable of the innermost scope. -/
def declare (h : Heap) (name : String) (value : Value) : Scope → Heap
  | [] => h.bindGlobal name value
  | ref :: _ => h.bindLocal ref name value

/-- Assigns to the innermost variable of a name, or to a new global one if there is none. -/
def assign (h : Heap) (name : String) (value : Value) : Scope → Heap
  | [] => h.bindGlobal name value
  | ref :: outer =>
    if ((h.locals ref).find? name).isSome then h.bindLocal ref name value
    else h.assign name value outer

end Heap

end ReactiveFrames.Script
