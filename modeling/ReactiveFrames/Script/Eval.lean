import ReactiveFrames.Decimal.Binary
import ReactiveFrames.Script.Machine
import ReactiveFrames.Script.Parser

/-!
# Evaluation of scripts

Expressions and statements are evaluated by recursion on a bound, which every step into a
subexpression, a statement, a call or another round of a loop makes smaller by one. The bound has no
meaning to scripts: a run that ends within it ends in the same way within any larger one. The depth
of calls is something else, a limit that scripts can hit and whose failure they report.

A value that is still needed is pinned while the next part of its expression is evaluated, and so
are a function and its arguments while it is called, the scope of a block while it is executed, and
the last value of a program while its next statement is.

## Main definitions

* `eval`, `exec`, `call`: expressions, statements and calls.
* `runProgram`, `evaluate`, `callValue`: entry points for a text and for a function.
-/

namespace ReactiveFrames.Script

open Machine (nested pinning pinningValue pinningValues)

/-! ## Operators -/

/-- Applies a binary operator to two values. A sum is a text unless both sides are arithmetic. -/
def binaryValue {σ : Type} (op : BinaryOp) (a b : Value) : Action σ Value :=
  match op with
  | .add =>
    if a.isArithmetic && b.isArithmetic then pure (.number (a.toNumber + b.toNumber))
    else do
      let s ← Action.text a
      let t ← Action.text b
      pure (.string (s ++ t))
  | .sub => pure (.number (a.toNumber - b.toNumber))
  | .mul => pure (.number (a.toNumber * b.toNumber))
  | .div => pure (.number (a.toNumber / b.toNumber))
  | .rem => pure (.number (Decimal.remainder a.toNumber b.toNumber))
  | .eq => pure (.bool (a.looseEquals b))
  | .notEq => pure (.bool (!a.looseEquals b))
  | .strictEq => pure (.bool (a.strictEquals b))
  | .strictNotEq => pure (.bool (!a.strictEquals b))
  | .less => pure (.bool (compareValues (fun s t ↦ s < t) (fun x y ↦ x < y) a b))
  | .lessEq => pure (.bool (compareValues (fun s t ↦ s ≤ t) (fun x y ↦ x ≤ y) a b))
  | .greater => pure (.bool (compareValues (fun s t ↦ t < s) (fun x y ↦ y < x) a b))
  | .greaterEq => pure (.bool (compareValues (fun s t ↦ t ≤ s) (fun x y ↦ y ≤ x) a b))

/-- Applies a unary operator to a value. -/
def unaryValue (op : UnaryOp) (v : Value) : Value :=
  match op with
  | .not => .bool (!v.isTruthy)
  | .neg => .number (-v.toNumber)
  | .plus => .number v.toNumber
  | .typeOf => .string v.typeName

/-! ## Properties and positions -/

/-- How far past its end a write may extend an array. -/
def maxGrowth : Nat := 65536

section Access

variable {σ : Type} (host : Host σ)

/-- Value of a property. -/
def readMember (object : Value) (property : String) : Action σ Value :=
  match object with
  | .undefined => Run.fail (.unreadable property "undefined")
  | .null => Run.fail (.unreadable property "null")
  | .string s =>
    pure (if property = "length" then .number (Float.ofNat s.length) else .undefined)
  | .array ref =>
    if property = "length" then Action.ofHeap fun h ↦ .number (Float.ofNat (h.items ref).size)
    else pure .undefined
  | .record ref => Action.ofHeap fun h ↦ ((h.entries ref).find? property).getD .undefined
  | .host ref => fun m ↦ .ok (host.read ref property m) m
  | _ => pure .undefined

/-- Item of an array at a position that a number names exactly. -/
def itemAt (items : Array Value) (x : Float) : Value :=
  ((Decimal.toNat? x).bind fun n ↦ items[n]?).getD .undefined

/-- Character of a text at the position to which a number is cut. -/
def characterAt (s : String) (x : Float) : Value :=
  (((Decimal.toPosition? x).bind fun n ↦ s.toList[n]?).map
    fun c ↦ .string (String.ofList [c])).getD .undefined

/-- Value at an index: an item of an array, a character of a text, or a property. -/
def readIndex (object index : Value) : Action σ Value :=
  match object, index with
  | .array ref, .number x => Action.ofHeap fun h ↦ itemAt (h.items ref) x
  | .string s, .number x => pure (characterAt s x)
  | object, index => do readMember host object (← Action.text index)

/-- Writes a property. -/
def writeMember (object : Value) (property : String) (value : Value) : Action σ Unit :=
  match object with
  | .record ref => Action.onHeap fun h ↦ h.setEntry ref property value
  | .host ref => host.write ref property value
  | object => do Run.fail (.unwritable property (← Action.description object))

/-- Items with the one at a position replaced; missing positions before it are filled up. -/
def putItem (items : Array Value) (n : Nat) (value : Value) : Array Value :=
  if h : n < items.size then items.set n value
  else (items ++ Array.replicate (n - items.size) Value.undefined).push value

/-- Writes an item of an array. The position is a natural number not too far past the end. -/
def writeItem (ref : ArrayRef) (x : Float) (value : Value) : Action σ Unit := fun m ↦
  match Decimal.toNat? x with
  | some n =>
    if n < (m.heap.items ref).size + maxGrowth then
      .ok () (m.mapHeap fun h ↦ h.setItems ref fun items ↦ putItem items n value)
    else .error (.arrayIndex (Decimal.plain x)) m
  | none => .error (.arrayIndex (Decimal.plain x)) m

/-- Writes at an index. -/
def writeIndex (object index value : Value) : Action σ Unit :=
  match object, index with
  | .array ref, .number x => writeItem ref x value
  | object, index => do writeMember host object (← Action.text index) value

/-- Method that arrays have of their own. -/
def arrayMethod? (method : String) (ref : ArrayRef) (arguments : List Value) :
    Option (Action σ Value) :=
  match method with
  | "push" => some <| Action.allocate fun h ↦
    let h := h.setItems ref fun items ↦ items ++ arguments.toArray
    (.number (Float.ofNat (h.items ref).size), h)
  | "pop" => some <| Action.allocate fun h ↦
    ((h.items ref).back?.getD .undefined, h.setItems ref fun items ↦ items.pop)
  | _ => none

/-- Value of a variable. -/
def readVariable (name : String) (scope : Scope) : Action σ Value := fun m ↦
  match m.heap.lookup name scope with
  | some v => .ok v m
  | none => .error (.undefinedVariable name) m

/-- Declares the functions of a statement list in its scope. -/
def hoist (body : List Stmt) (scope : Scope) : Action σ Unit :=
  Action.onHeap fun h ↦ body.foldl (fun h s ↦
    match s with
    | .function f =>
      let (closure, h) := h.newClosure ⟨f, scope⟩
      h.declare (f.name.getD "") closure scope
    | _ => h) h

/-- Binds parameters to arguments; a parameter without an argument is undefined. -/
def bindParameters (scope : Scope) : List String → List Value → Heap → Heap
  | [], _, h => h
  | p :: ps, [], h => bindParameters scope ps [] (h.declare p .undefined scope)
  | p :: ps, v :: vs, h => bindParameters scope ps vs (h.declare p v scope)

end Access

/-! ## Evaluation -/

/-- How a statement ends. -/
inductive Completion where
  | normal
  | returned (v : Value)
  | broke
  | continued

/-- What a call yields whose body ends so. -/
def Completion.result : Completion → Value
  | returned v => v
  | _ => .undefined

section Evaluation

variable {σ : Type} (host : Host σ)

mutual

/-- Evaluates an expression. -/
def eval (bound : Nat) (scope : Scope) (e : Expr) : Action σ Value :=
  match bound with
  | 0 => Run.exhaust
  | n + 1 =>
    match e with
    | .number x => pure (.number x)
    | .string s => pure (.string s)
    | .bool b => pure (.bool b)
    | .null => pure .null
    | .undefined => pure .undefined
    | .variable name => readVariable name scope
    | .array items => do
      let items ← evalAll n scope items
      Action.allocate fun h ↦ h.newArray items.toArray
    | .object entries => do
      let entries ← evalEntries n scope Table.empty entries
      Action.allocate fun h ↦ h.newRecord entries
    | .function f => Action.allocate fun h ↦ h.newClosure ⟨f, scope⟩
    | .unary op operand =>
      match op, operand with
      | .typeOf, .variable name => Action.ofHeap fun h ↦
        .string ((h.lookup name scope).getD .undefined).typeName
      | op, operand => do pure (unaryValue op (← eval n scope operand))
    | .binary op left right => do
      let a ← eval n scope left
      let b ← pinningValue a (eval n scope right)
      binaryValue op a b
    | .logical op left right => do
      let a ← eval n scope left
      match op, a.isTruthy with
      | .and, false => pure a
      | .or, true => pure a
      | _, _ => pinningValue a (eval n scope right)
    | .conditional test consequent alternate => do
      if (← eval n scope test).isTruthy then eval n scope consequent else eval n scope alternate
    | .assign none target value => do
      let v ← eval n scope value
      pinningValue v (writeTarget n scope target v)
      pure v
    | .assign (some op) target value => do
      let current ← readTarget n scope target
      let operand ← pinningValue current (eval n scope value)
      let v ← binaryValue op current operand
      writeTarget n scope target v
      pure v
    | .update increment before target => do
      let old := (← readTarget n scope target).toNumber
      let new := if increment then old + 1.0 else old - 1.0
      writeTarget n scope target (.number new)
      pure (.number (if before then new else old))
    | .member object property => do readMember host (← eval n scope object) property
    | .index object index => do
      let o ← eval n scope object
      let i ← pinningValue o (eval n scope index)
      readIndex host o i
    | .call (.member object property) arguments => do
      let receiver ← eval n scope object
      pinningValue receiver do
        let arguments ← evalAll n scope arguments
        callMethod n receiver property arguments
    | .call callee arguments => do
      let f ← eval n scope callee
      let arguments ← pinningValue f (evalAll n scope arguments)
      call n f arguments

/-- Evaluates expressions one after the other. -/
def evalAll (bound : Nat) (scope : Scope) (es : List Expr) : Action σ (List Value) :=
  match bound with
  | 0 => Run.exhaust
  | n + 1 =>
    match es with
    | [] => pure []
    | e :: rest => do
      let v ← eval n scope e
      let vs ← pinningValue v (evalAll n scope rest)
      pure (v :: vs)

/-- Evaluates the entries of a record one after the other, and puts them to those that are done. -/
def evalEntries (bound : Nat) (scope : Scope) (done : Table Value)
    (entries : List (String × Expr)) : Action σ (Table Value) :=
  match bound with
  | 0 => Run.exhaust
  | n + 1 =>
    match entries with
    | [] => pure done
    | (name, e) :: rest => do
      let v ← pinningValues done.values (eval n scope e)
      evalEntries n scope (done.insert name v) rest

/-- Value of the place that a target names. -/
def readTarget (bound : Nat) (scope : Scope) (target : Target) : Action σ Value :=
  match bound with
  | 0 => Run.exhaust
  | n + 1 =>
    match target with
    | .variable name => readVariable name scope
    | .member object property => do readMember host (← eval n scope object) property
    | .index object index => do
      let o ← eval n scope object
      let i ← pinningValue o (eval n scope index)
      readIndex host o i

/-- Writes the place that a target names. -/
def writeTarget (bound : Nat) (scope : Scope) (target : Target) (v : Value) : Action σ Unit :=
  match bound with
  | 0 => Run.exhaust
  | n + 1 =>
    match target with
    | .variable name => Action.onHeap fun h ↦ h.assign name v scope
    | .member object property => do writeMember host (← eval n scope object) property v
    | .index object index => do
      let o ← eval n scope object
      pinningValue o do
        let i ← eval n scope index
        pinningValue i (writeIndex host o i v)

/-- Calls a method of a receiver. -/
def callMethod (bound : Nat) (receiver : Value) (method : String) (arguments : List Value) :
    Action σ Value :=
  match bound with
  | 0 => Run.exhaust
  | n + 1 =>
    let own := match receiver with
      | .array ref => arrayMethod? method ref arguments
      | _ => none
    match own with
    | some result => result
    | none => do
      let f ← readMember host receiver method
      call n f arguments

/-- Calls a value. -/
def call (bound : Nat) (f : Value) (arguments : List Value) : Action σ Value :=
  match bound with
  | 0 => Run.exhaust
  | n + 1 =>
    match f with
    | .closure ref => pinningValues (f :: arguments) (callClosure n ref arguments)
    | .builtin f => f.apply arguments
    | .foreign ref => host.call ref arguments
    | f => do Run.fail (.notAFunction (← Action.description f))

/-- Calls a closure, unless too many are being called. However the call ends, it is no longer
under way afterwards. -/
def callClosure (bound : Nat) (ref : ClosureRef) (arguments : List Value) : Action σ Value :=
  match bound with
  | 0 => Run.exhaust
  | n + 1 => fun m ↦
    if m.maxDepth ≤ m.depth then .error .callDepth m
    else
      match m.heap.closures[ref.index]? with
      | none => .ok .undefined m
      | some c =>
        let (scope, h) := m.heap.openScope c.scope
        let h := bindParameters scope c.function.parameters arguments h
        let body := nested (pinning [.scope scope] (execBlock n scope c.function.body))
        (Completion.result <$> body) { m with heap := h }

/-- Executes the statements of a block in their scope, after its functions are declared. -/
def execBlock (bound : Nat) (scope : Scope) (body : List Stmt) : Action σ Completion :=
  match bound with
  | 0 => Run.exhaust
  | n + 1 => do
    hoist body scope
    execAll n scope body

/-- Executes statements until one does not end normally. -/
def execAll (bound : Nat) (scope : Scope) (body : List Stmt) : Action σ Completion :=
  match bound with
  | 0 => Run.exhaust
  | n + 1 =>
    match body with
    | [] => pure .normal
    | s :: rest => do
      match ← exec n scope s with
      | .normal => execAll n scope rest
      | c => pure c

/-- Executes a statement. A function is declared with its block and does nothing here. -/
def exec (bound : Nat) (scope : Scope) (s : Stmt) : Action σ Completion :=
  match bound with
  | 0 => Run.exhaust
  | n + 1 =>
    match s with
    | .expression e => do
      let _ ← eval n scope e
      pure .normal
    | .declare declared => do
      declareAll n scope declared
      pure .normal
    | .function _ => pure .normal
    | .returnValue none => pure (.returned .undefined)
    | .returnValue (some e) => do pure (.returned (← eval n scope e))
    | .branch test consequent alternate => do
      if (← eval n scope test).isTruthy then exec n scope consequent
      else match alternate with
        | some s => exec n scope s
        | none => pure .normal
    | .whileLoop test body => loop n scope (some test) none body
    | .forLoop init test update body => do
      let scope ← Action.allocate fun h ↦ h.openScope scope
      pinning [.scope scope] do
        match init with
        | some s =>
          let _ ← exec n scope s
          loop n scope test update body
        | none => loop n scope test update body
    | .block body => do
      let scope ← Action.allocate fun h ↦ h.openScope scope
      pinning [.scope scope] (execBlock n scope body)
    | .breakLoop => pure .broke
    | .continueLoop => pure .continued
    | .throwValue e => do
      let v ← eval n scope e
      Run.fail (.thrown (← Action.text v))
    | .empty => pure .normal

/-- Declares variables one after the other. -/
def declareAll (bound : Nat) (scope : Scope) (declared : List (String × Option Expr)) :
    Action σ Unit :=
  match bound with
  | 0 => Run.exhaust
  | n + 1 =>
    match declared with
    | [] => pure ()
    | (name, initial) :: rest => do
      let v ← match initial with
        | some e => eval n scope e
        | none => pure .undefined
      Action.onHeap fun h ↦ h.declare name v scope
      declareAll n scope rest

/-- Executes the rounds of a loop. -/
def loop (bound : Nat) (scope : Scope) (test update : Option Expr) (body : Stmt) :
    Action σ Completion :=
  match bound with
  | 0 => Run.exhaust
  | n + 1 => do
    let goes ← match test with
      | some e => do pure (← eval n scope e).isTruthy
      | none => pure true
    if goes then
      match ← exec n scope body with
      | .broke => pure .normal
      | .returned v => pure (.returned v)
      | _ =>
        match update with
        | some e =>
          let _ ← eval n scope e
          loop n scope test update body
        | none => loop n scope test update body
    else pure .normal

end

/-- Executes the statements of a program. Its value is that of the last expression statement, or
what a `return` statement yields. -/
def runStatements (bound : Nat) (last : Value) : List Stmt → Action σ Value
  | [] => pure last
  | .expression e :: rest => do
    runStatements bound (← pinningValue last (eval host bound [] e)) rest
  | s :: rest => do
    match ← pinningValue last (exec host bound [] s) with
    | .returned v => pure v
    | _ => runStatements bound last rest

/-- Runs the text of a program in the global scope. -/
def runProgram (bound : Nat) (source : String) : Action σ Value :=
  match parse source with
  | .error e => Run.fail (.malformed e)
  | .ok body => do
    hoist body []
    runStatements host bound .undefined body

/-- Counts a failure of an action, and gives notice of it. -/
def counted {α : Type} (notice : String) (x : Action σ α) : Action σ α := fun m ↦
  match x m with
  | .error e m' =>
    .error e ({ m' with failures := m'.failures + 1 }.note ⟨notice ++ ": " ++ e.message, true⟩)
  | outcome => outcome

/-- Forgets the failures that were counted. -/
def resetFailures {ε : Type} : Run (Machine σ) ε Unit :=
  Run.update fun m ↦ { m with failures := 0 }

/-- Runs the text of a program; a failure is counted. -/
def evaluate (bound : Nat) (source : String) : Action σ Value :=
  counted "script evaluation failed" (runProgram host bound source)

/-- Calls a value from outside a script; a failure is counted. -/
def callValue (bound : Nat) (f : Value) (arguments : List Value) : Action σ Value :=
  counted "script call failed" (call host bound f arguments)

end Evaluation

end ReactiveFrames.Script
