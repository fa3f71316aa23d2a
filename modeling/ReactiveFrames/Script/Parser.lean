import ReactiveFrames.Decimal.Notation
import ReactiveFrames.Reading
import ReactiveFrames.Script.Lexer
import ReactiveFrames.Script.Syntax

/-!
# Statements of a script

Recursive descent over a list of tokens. Binary operators are read by climbing their precedences:
`binary m` reads operators of precedence at least `m`, and the right operand of an operator only
those that bind more strongly. A semicolon may be left out.

Every reader uses up a token before it calls itself again, and the readers of expressions call each
other in the order of how strongly they bind. The measure of the recursion counts both.
-/

namespace ReactiveFrames.Script

namespace Parser

/-- A reading of a script of which fewer than `n` tokens remain. -/
abbrev Reads (n : Nat) (α : Type) := Reading LocatedToken n α

/-- A fault of a script and the tokens before which it was found. -/
abbrev Stops := Stop LocatedToken Fault

/-! ## Single tokens -/

/-- The first token is the punctuator. -/
def atPunct (p : Punct) : List LocatedToken → Bool
  | ⟨.punct q, _⟩ :: _ => q == p
  | _ => false

/-- Reads a required punctuator. -/
def punct (p : Punct) (ts : List LocatedToken) : Except Stops (Reads ts.length Unit) :=
  match ts with
  | ⟨.punct q, line⟩ :: rest =>
    if q = p then .ok ⟨(), rest, by simp⟩ else .error ⟨.punct p, ⟨.punct q, line⟩ :: rest⟩
  | ts => .error ⟨.punct p, ts⟩

/-- Reads a punctuator if it is there, and tells whether it was. -/
def punct? (p : Punct) (ts : List LocatedToken) : Reads (ts.length + 1) Bool :=
  match ts with
  | ⟨.punct q, line⟩ :: rest =>
    if q = p then ⟨true, rest, by simp only [List.length_cons]; omega⟩
    else ⟨false, ⟨.punct q, line⟩ :: rest, by simp⟩
  | ts => ⟨false, ts, by simp⟩

/-- Reads a required identifier. -/
def word (ts : List LocatedToken) : Except Stops (Reads ts.length String) :=
  match ts with
  | ⟨.word name, _⟩ :: rest => .ok ⟨name, rest, by simp⟩
  | ts => .error ⟨.identifier, ts⟩

/-- Reads a keyword if it is there, and tells whether it was. -/
def keyword? (keywords : List String) (ts : List LocatedToken) : Reads (ts.length + 1) Bool :=
  match ts with
  | ⟨.word name, line⟩ :: rest =>
    if name ∈ keywords then ⟨true, rest, by simp only [List.length_cons]; omega⟩
    else ⟨false, ⟨.word name, line⟩ :: rest, by simp⟩
  | ts => ⟨false, ts, by simp⟩

/-- Reads an identifier if it is there. -/
def word? (ts : List LocatedToken) : Reads (ts.length + 1) (Option String) :=
  match ts with
  | ⟨.word name, _⟩ :: rest => ⟨some name, rest, by simp only [List.length_cons]; omega⟩
  | ts => ⟨none, ts, by simp⟩

/-- Reads the name of a property in an object literal. -/
def propertyName (ts : List LocatedToken) : Except Stops (Reads ts.length String) :=
  match ts with
  | ⟨.word name, _⟩ :: rest => .ok ⟨name, rest, by simp⟩
  | ⟨.string name, _⟩ :: rest => .ok ⟨name, rest, by simp⟩
  | ⟨.number x, _⟩ :: rest => .ok ⟨Decimal.ofScript x, rest, by simp⟩
  | ts => .error ⟨.propertyName, ts⟩

/-- Words that declare variables. -/
def declarators : List String := ["let", "const", "var"]

/-- Place that an expression names; `ts` are the tokens that were reached. -/
def targetOf (e : Expr) (ts : List LocatedToken) : Except Stops Target :=
  match e with
  | .variable name => .ok (.variable name)
  | .member object property => .ok (.member object property)
  | .index object index => .ok (.index object index)
  | _ => .error ⟨.target, ts⟩

/-- Binary operator that a punctuator stands for. -/
def binaryOp? : Punct → Option BinaryOp
  | .eq => some .eq
  | .notEq => some .notEq
  | .strictEq => some .strictEq
  | .strictNotEq => some .strictNotEq
  | .less => some .less
  | .lessEq => some .lessEq
  | .greater => some .greater
  | .greaterEq => some .greaterEq
  | .plus => some .add
  | .minus => some .sub
  | .star => some .mul
  | .slash => some .div
  | .percent => some .rem
  | _ => none

/-- Assignment that a punctuator stands for, with the operator of a compound one. -/
def assignOp? : Punct → Option (Option BinaryOp)
  | .assign => some none
  | .addAssign => some (some .add)
  | .subAssign => some (some .sub)
  | .mulAssign => some (some .mul)
  | .divAssign => some (some .div)
  | .remAssign => some (some .rem)
  | _ => none

/-- Unary operator that a token stands for. -/
def unaryOp? : Token → Option UnaryOp
  | .punct .bang => some .not
  | .punct .minus => some .neg
  | .punct .plus => some .plus
  | .word "typeof" => some .typeOf
  | _ => none

/-- Whether a token is `++` or `--`; `true` for the former. -/
def updateOp? : Token → Option Bool
  | .punct .increment => some true
  | .punct .decrement => some false
  | _ => none

/-- Expression that a word stands for on its own. -/
def wordExpr (name : String) : Expr :=
  match name with
  | "true" => .bool true
  | "false" => .bool false
  | "null" => .null
  | "undefined" => .undefined
  | name => .variable name

/-- Reads the parameters of a function after another parameter. -/
def moreParameters (ts : List LocatedToken) : Except Stops (Reads ts.length (List String)) :=
  match ts with
  | ⟨.punct .closeParen, _⟩ :: rest => .ok ⟨[], rest, by simp⟩
  | ts => do
    let ⟨_, rest, h⟩ ← punct .comma ts
    let ⟨name, rest', h'⟩ ← word rest
    let ⟨more, rest'', h''⟩ ← moreParameters rest'
    pure ⟨name :: more, rest'', by omega⟩
  termination_by ts.length

/-- Reads the parameters of a function after the opening parenthesis. -/
def parameters (ts : List LocatedToken) : Except Stops (Reads ts.length (List String)) :=
  match ts with
  | ⟨.punct .closeParen, _⟩ :: rest => .ok ⟨[], rest, by simp⟩
  | ts => do
    let ⟨name, rest, h⟩ ← word ts
    let ⟨more, rest', h'⟩ ← moreParameters rest
    pure ⟨name :: more, rest', by omega⟩

/-! ## Expressions and statements -/

mutual

/-- Reads a literal, a variable, a function or an expression in parentheses. -/
def primary (ts : List LocatedToken) : Except Stops (Reads ts.length Expr) :=
  match ts with
  | [] => .error ⟨.endOfScript, []⟩
  | ⟨.number x, _⟩ :: rest => .ok ⟨.number x, rest, by simp⟩
  | ⟨.string s, _⟩ :: rest => .ok ⟨.string s, rest, by simp⟩
  | ⟨.word "function", _⟩ :: rest => do
    let ⟨f, rest', h⟩ ← functionRest rest
    pure ⟨.function f, rest', by simp only [List.length_cons]; omega⟩
  | ⟨.word name, _⟩ :: rest => .ok ⟨wordExpr name, rest, by simp⟩
  | ⟨.punct .openParen, _⟩ :: rest => do
    let ⟨e, rest', h⟩ ← assignment rest
    let ⟨_, rest'', h'⟩ ← punct .closeParen rest'
    pure ⟨e, rest'', by simp only [List.length_cons]; omega⟩
  | ⟨.punct .openBracket, _⟩ :: rest => do
    let ⟨items, rest', h⟩ ← arrayItems rest
    pure ⟨.array items, rest', by simp only [List.length_cons]; omega⟩
  | ⟨.punct .openBrace, _⟩ :: rest => do
    let ⟨entries, rest', h⟩ ← objectEntries rest
    pure ⟨.object entries, rest', by simp only [List.length_cons]; omega⟩
  | ⟨.punct p, line⟩ :: rest => .error ⟨.token p, ⟨.punct p, line⟩ :: rest⟩
  termination_by 16 * ts.length

/-- Reads the items of an array literal, whose last one may be followed by a comma. -/
def arrayItems (ts : List LocatedToken) : Except Stops (Reads ts.length (List Expr)) :=
  match ts with
  | ⟨.punct .closeBracket, _⟩ :: rest => .ok ⟨[], rest, by simp⟩
  | ts => do
    let ⟨item, rest, h⟩ ← assignment ts
    if atPunct .closeBracket rest then
      let ⟨_, rest', h'⟩ ← punct .closeBracket rest
      pure ⟨[item], rest', by omega⟩
    else
      let ⟨_, rest', h'⟩ ← punct .comma rest
      let ⟨more, rest'', h''⟩ ← arrayItems rest'
      pure ⟨item :: more, rest'', by omega⟩
  termination_by 16 * ts.length + 8

/-- Reads the entries of an object literal, whose last one may be followed by a comma. -/
def objectEntries (ts : List LocatedToken) :
    Except Stops (Reads ts.length (List (String × Expr))) :=
  match ts with
  | ⟨.punct .closeBrace, _⟩ :: rest => .ok ⟨[], rest, by simp⟩
  | ts => do
    let ⟨name, rest, h⟩ ← propertyName ts
    let ⟨_, rest', h'⟩ ← punct .colon rest
    let ⟨value, rest'', h''⟩ ← assignment rest'
    if atPunct .closeBrace rest'' then
      let ⟨_, last, h'''⟩ ← punct .closeBrace rest''
      pure ⟨[(name, value)], last, by omega⟩
    else
      let ⟨_, next, h'''⟩ ← punct .comma rest''
      let ⟨more, last, h₄⟩ ← objectEntries next
      pure ⟨(name, value) :: more, last, by omega⟩
  termination_by 16 * ts.length

/-- Reads the arguments of a call after the opening parenthesis. -/
def arguments (ts : List LocatedToken) : Except Stops (Reads ts.length (List Expr)) :=
  match ts with
  | ⟨.punct .closeParen, _⟩ :: rest => .ok ⟨[], rest, by simp⟩
  | ts => do
    let ⟨e, rest, h⟩ ← assignment ts
    let ⟨more, rest', h'⟩ ← moreArguments rest
    pure ⟨e :: more, rest', by omega⟩
  termination_by 16 * ts.length + 8

/-- Reads the arguments of a call after another argument. -/
def moreArguments (ts : List LocatedToken) : Except Stops (Reads ts.length (List Expr)) :=
  match ts with
  | ⟨.punct .closeParen, _⟩ :: rest => .ok ⟨[], rest, by simp⟩
  | ts => do
    let ⟨_, rest, h⟩ ← punct .comma ts
    let ⟨e, rest', h'⟩ ← assignment rest
    let ⟨more, rest'', h''⟩ ← moreArguments rest'
    pure ⟨e :: more, rest'', by omega⟩
  termination_by 16 * ts.length

/-- Reads the members, indices, calls and updates that follow an expression. -/
def postfixRest (left : Expr) (ts : List LocatedToken) :
    Except Stops (Reads (ts.length + 1) Expr) :=
  match ts with
  | ⟨.punct .dot, _⟩ :: rest => do
    let ⟨property, rest', h⟩ ← word rest
    let ⟨e, rest'', h'⟩ ← postfixRest (.member left property) rest'
    pure ⟨e, rest'', by simp only [List.length_cons]; omega⟩
  | ⟨.punct .openBracket, _⟩ :: rest => do
    let ⟨index, rest', h⟩ ← assignment rest
    let ⟨_, rest'', h'⟩ ← punct .closeBracket rest'
    let ⟨e, rest''', h''⟩ ← postfixRest (.index left index) rest''
    pure ⟨e, rest''', by simp only [List.length_cons]; omega⟩
  | ⟨.punct .openParen, _⟩ :: rest => do
    let ⟨es, rest', h⟩ ← arguments rest
    let ⟨e, rest'', h'⟩ ← postfixRest (.call left es) rest'
    pure ⟨e, rest'', by simp only [List.length_cons]; omega⟩
  | ⟨.punct .increment, _⟩ :: rest => do
    let target ← targetOf left rest
    let ⟨e, rest', h⟩ ← postfixRest (.update true false target) rest
    pure ⟨e, rest', by simp only [List.length_cons]; omega⟩
  | ⟨.punct .decrement, _⟩ :: rest => do
    let target ← targetOf left rest
    let ⟨e, rest', h⟩ ← postfixRest (.update false false target) rest
    pure ⟨e, rest', by simp only [List.length_cons]; omega⟩
  | ts => .ok ⟨left, ts, by simp⟩
  termination_by 16 * ts.length

/-- Reads an expression that starts with a primary one. -/
def postfixExpr (ts : List LocatedToken) : Except Stops (Reads ts.length Expr) := do
  let ⟨e, rest, h⟩ ← primary ts
  let ⟨e', rest', h'⟩ ← postfixRest e rest
  pure ⟨e', rest', by omega⟩
  termination_by 16 * ts.length + 1

/-- Reads an operand of a binary operator. -/
def unary (ts : List LocatedToken) : Except Stops (Reads ts.length Expr) :=
  match ts with
  | [] => postfixExpr []
  | t :: rest =>
    match unaryOp? t.token, updateOp? t.token with
    | some op, _ => do
      let ⟨e, rest', h⟩ ← unary rest
      pure ⟨.unary op e, rest', by simp only [List.length_cons]; omega⟩
    | none, some increment => do
      let ⟨e, rest', h⟩ ← unary rest
      let target ← targetOf e rest'
      pure ⟨.update increment true target, rest', by simp only [List.length_cons]; omega⟩
    | none, none => postfixExpr (t :: rest)
  termination_by 16 * ts.length + 2

/-- Reads operands joined by operators of precedence at least `least`. -/
def binary (least : Nat) (ts : List LocatedToken) : Except Stops (Reads ts.length Expr) := do
  let ⟨left, rest, h⟩ ← unary ts
  let ⟨e, rest', h'⟩ ← binaryRest least left rest
  pure ⟨e, rest', by omega⟩
  termination_by 16 * ts.length + 3

/-- Reads the operators of precedence at least `least` that follow an operand. -/
def binaryRest (least : Nat) (left : Expr) (ts : List LocatedToken) :
    Except Stops (Reads (ts.length + 1) Expr) :=
  match ts with
  | ⟨.punct p, line⟩ :: rest =>
    match binaryOp? p with
    | some op =>
      if op.precedence < least then .ok ⟨left, ⟨.punct p, line⟩ :: rest, by simp⟩
      else do
        let ⟨right, rest', h⟩ ← binary (op.precedence + 1) rest
        let ⟨e, rest'', h'⟩ ← binaryRest least (.binary op left right) rest'
        pure ⟨e, rest'', by simp only [List.length_cons]; omega⟩
    | none => .ok ⟨left, ⟨.punct p, line⟩ :: rest, by simp⟩
  | ts => .ok ⟨left, ts, by simp⟩
  termination_by 16 * ts.length

/-- Reads operands joined by `&&`. -/
def conjunction (ts : List LocatedToken) : Except Stops (Reads ts.length Expr) := do
  let ⟨left, rest, h⟩ ← binary 0 ts
  let ⟨e, rest', h'⟩ ← conjunctionRest left rest
  pure ⟨e, rest', by omega⟩
  termination_by 16 * ts.length + 4

/-- Reads what `&&` joins to an operand. -/
def conjunctionRest (left : Expr) (ts : List LocatedToken) :
    Except Stops (Reads (ts.length + 1) Expr) :=
  match ts with
  | ⟨.punct .and, _⟩ :: rest => do
    let ⟨right, rest', h⟩ ← binary 0 rest
    let ⟨e, rest'', h'⟩ ← conjunctionRest (.logical .and left right) rest'
    pure ⟨e, rest'', by simp only [List.length_cons]; omega⟩
  | ts => .ok ⟨left, ts, by simp⟩
  termination_by 16 * ts.length

/-- Reads operands joined by `||`. -/
def disjunction (ts : List LocatedToken) : Except Stops (Reads ts.length Expr) := do
  let ⟨left, rest, h⟩ ← conjunction ts
  let ⟨e, rest', h'⟩ ← disjunctionRest left rest
  pure ⟨e, rest', by omega⟩
  termination_by 16 * ts.length + 5

/-- Reads what `||` joins to an operand. -/
def disjunctionRest (left : Expr) (ts : List LocatedToken) :
    Except Stops (Reads (ts.length + 1) Expr) :=
  match ts with
  | ⟨.punct .or, _⟩ :: rest => do
    let ⟨right, rest', h⟩ ← conjunction rest
    let ⟨e, rest'', h'⟩ ← disjunctionRest (.logical .or left right) rest'
    pure ⟨e, rest'', by simp only [List.length_cons]; omega⟩
  | ts => .ok ⟨left, ts, by simp⟩
  termination_by 16 * ts.length

/-- Reads an expression with two alternatives, or one that binds more strongly. -/
def conditional (ts : List LocatedToken) : Except Stops (Reads ts.length Expr) := do
  let ⟨test, rest, h⟩ ← disjunction ts
  let ⟨question, rest', h'⟩ := punct? .question rest
  if question then
    let ⟨consequent, rest'', h''⟩ ← assignment rest'
    let ⟨_, rest''', h'''⟩ ← punct .colon rest''
    let ⟨alternate, rest₄, h₄⟩ ← assignment rest'''
    pure ⟨.conditional test consequent alternate, rest₄, by omega⟩
  else pure ⟨test, rest', by omega⟩
  termination_by 16 * ts.length + 6

/-- Reads an expression. -/
def assignment (ts : List LocatedToken) : Except Stops (Reads ts.length Expr) := do
  let ⟨e, rest, h⟩ ← conditional ts
  let ⟨e', rest', h'⟩ ← assignmentRest e rest
  pure ⟨e', rest', by omega⟩
  termination_by 16 * ts.length + 7

/-- Reads an assignment operator and its right side after an expression. -/
def assignmentRest (left : Expr) (ts : List LocatedToken) :
    Except Stops (Reads (ts.length + 1) Expr) :=
  match ts with
  | ⟨.punct p, line⟩ :: rest =>
    match assignOp? p with
    | some op => do
      let target ← targetOf left rest
      let ⟨value, rest', h⟩ ← assignment rest
      pure ⟨.assign op target value, rest', by simp only [List.length_cons]; omega⟩
    | none => .ok ⟨left, ⟨.punct p, line⟩ :: rest, by simp⟩
  | ts => .ok ⟨left, ts, by simp⟩
  termination_by 16 * ts.length

/-- Reads a function after its keyword. -/
def functionRest (ts : List LocatedToken) : Except Stops (Reads ts.length FunctionDecl) := do
  let ⟨name, rest, h⟩ := word? ts
  let ⟨_, rest', h'⟩ ← punct .openParen rest
  let ⟨names, rest'', h''⟩ ← parameters rest'
  let ⟨_, rest''', h'''⟩ ← punct .openBrace rest''
  let ⟨body, rest₄, h₄⟩ ← blockBody rest'''
  pure ⟨.mk name names body, rest₄, by omega⟩
  termination_by 16 * ts.length

/-- Reads the statements of a block after its opening brace. -/
def blockBody (ts : List LocatedToken) : Except Stops (Reads ts.length (List Stmt)) :=
  match ts with
  | [] => .error ⟨.openBlock, []⟩
  | ⟨.punct .closeBrace, _⟩ :: rest => .ok ⟨[], rest, by simp⟩
  | ts => do
    let ⟨s, rest, h⟩ ← statement ts
    let ⟨more, rest', h'⟩ ← blockBody rest
    pure ⟨s :: more, rest', by omega⟩
  termination_by 16 * ts.length + 10

/-- Reads the variables of a declaration. -/
def declarations (ts : List LocatedToken) :
    Except Stops (Reads ts.length (List (String × Option Expr))) := do
  let ⟨name, rest, h⟩ ← word ts
  let ⟨initial, rest', h'⟩ ← initializer rest
  let ⟨comma, rest'', h''⟩ := punct? .comma rest'
  if comma then
    let ⟨more, rest''', h'''⟩ ← declarations rest''
    pure ⟨(name, initial) :: more, rest''', by omega⟩
  else pure ⟨[(name, initial)], rest'', by omega⟩
  termination_by 16 * ts.length

/-- Reads the first value of a variable, if one is given. -/
def initializer (ts : List LocatedToken) :
    Except Stops (Reads (ts.length + 1) (Option Expr)) :=
  match ts with
  | ⟨.punct .assign, _⟩ :: rest => do
    let ⟨e, rest', h⟩ ← assignment rest
    pure ⟨some e, rest', by simp only [List.length_cons]; omega⟩
  | ts => .ok ⟨none, ts, by simp⟩
  termination_by 16 * ts.length

/-- Reads an expression in parentheses. -/
def test (ts : List LocatedToken) : Except Stops (Reads ts.length Expr) := do
  let ⟨_, rest, h⟩ ← punct .openParen ts
  let ⟨e, rest', h'⟩ ← assignment rest
  let ⟨_, rest'', h''⟩ ← punct .closeParen rest'
  pure ⟨e, rest'', by omega⟩
  termination_by 16 * ts.length

/-- Reads an expression unless a punctuator stands in its place. -/
def optional (p : Punct) (ts : List LocatedToken) :
    Except Stops (Reads (ts.length + 1) (Option Expr)) :=
  if atPunct p ts then .ok ⟨none, ts, by simp⟩
  else do
    let ⟨e, rest, h⟩ ← assignment ts
    pure ⟨some e, rest, by omega⟩
  termination_by 16 * ts.length + 8

/-- Reads the first part of a loop head up to its semicolon. -/
def loopInit (ts : List LocatedToken) : Except Stops (Reads ts.length (Option Stmt)) :=
  match ts with
  | ⟨.punct .semicolon, _⟩ :: rest => .ok ⟨none, rest, by simp⟩
  | ts => do
    let ⟨declares, rest, h⟩ := keyword? declarators ts
    if declares then
      let ⟨declared, rest', h'⟩ ← declarations rest
      let ⟨_, rest'', h''⟩ ← punct .semicolon rest'
      pure ⟨some (.declare declared), rest'', by omega⟩
    else
      let ⟨e, rest', h'⟩ ← assignment rest
      let ⟨_, rest'', h''⟩ ← punct .semicolon rest'
      pure ⟨some (.expression e), rest'', by omega⟩
  termination_by 16 * ts.length + 8

/-- Reads a loop with a head of three parts after its keyword. -/
def forRest (ts : List LocatedToken) : Except Stops (Reads ts.length Stmt) := do
  let ⟨_, rest, h⟩ ← punct .openParen ts
  let ⟨init, rest', h'⟩ ← loopInit rest
  let ⟨test, rest'', h''⟩ ← optional .semicolon rest'
  let ⟨_, rest''', h'''⟩ ← punct .semicolon rest''
  let ⟨update, rest₄, h₄⟩ ← optional .closeParen rest'''
  let ⟨_, rest₅, h₅⟩ ← punct .closeParen rest₄
  let ⟨body, rest₆, h₆⟩ ← statement rest₅
  pure ⟨.forLoop init test update body, rest₆, by omega⟩
  termination_by 16 * ts.length

/-- Reads the alternative of a branch, if there is one. -/
def alternative (ts : List LocatedToken) :
    Except Stops (Reads (ts.length + 1) (Option Stmt)) :=
  match ts with
  | ⟨.word "else", _⟩ :: rest => do
    let ⟨s, rest', h⟩ ← statement rest
    pure ⟨some s, rest', by simp only [List.length_cons]; omega⟩
  | ts => .ok ⟨none, ts, by simp⟩
  termination_by 16 * ts.length

/-- Reads the value of a `return` statement, if one is given. -/
def returned (ts : List LocatedToken) :
    Except Stops (Reads (ts.length + 1) (Option Expr)) :=
  if ts.isEmpty || atPunct .semicolon ts || atPunct .closeBrace ts then .ok ⟨none, ts, by simp⟩
  else do
    let ⟨e, rest, h⟩ ← assignment ts
    pure ⟨some e, rest, by omega⟩
  termination_by 16 * ts.length + 8

/-- Reads a statement after its keyword. -/
def keywordStatement (keyword : String) (ts : List LocatedToken) :
    Except Stops (Reads (ts.length + 1) Stmt) :=
  match keyword with
  | "return" => do
    let ⟨value, rest, h⟩ ← returned ts
    let ⟨_, rest', h'⟩ := punct? .semicolon rest
    pure ⟨.returnValue value, rest', by omega⟩
  | "if" => do
    let ⟨test, rest, h⟩ ← test ts
    let ⟨consequent, rest', h'⟩ ← statement rest
    let ⟨alternate, rest'', h''⟩ ← alternative rest'
    pure ⟨.branch test consequent alternate, rest'', by omega⟩
  | "while" => do
    let ⟨test, rest, h⟩ ← test ts
    let ⟨body, rest', h'⟩ ← statement rest
    pure ⟨.whileLoop test body, rest', by omega⟩
  | "for" => do
    let ⟨s, rest, h⟩ ← forRest ts
    pure ⟨s, rest, by omega⟩
  | "break" =>
    let ⟨_, rest, h⟩ := punct? .semicolon ts
    pure ⟨.breakLoop, rest, h⟩
  | "continue" =>
    let ⟨_, rest, h⟩ := punct? .semicolon ts
    pure ⟨.continueLoop, rest, h⟩
  | "throw" => do
    let ⟨e, rest, h⟩ ← assignment ts
    let ⟨_, rest', h'⟩ := punct? .semicolon rest
    pure ⟨.throwValue e, rest', by omega⟩
  | _ => do
    let ⟨declared, rest, h⟩ ← declarations ts
    let ⟨_, rest', h'⟩ := punct? .semicolon rest
    pure ⟨.declare declared, rest', by omega⟩
  termination_by 16 * ts.length + 9

/-- Reads an expression as a statement. -/
def expressionStatement (ts : List LocatedToken) : Except Stops (Reads ts.length Stmt) := do
  let ⟨e, rest, h⟩ ← assignment ts
  let ⟨_, rest', h'⟩ := punct? .semicolon rest
  pure ⟨.expression e, rest', by omega⟩
  termination_by 16 * ts.length + 8

/-- Reads a statement. The word `function` starts a declaration only before a name. -/
def statement (ts : List LocatedToken) : Except Stops (Reads ts.length Stmt) :=
  match ts with
  | ⟨.punct .semicolon, _⟩ :: rest => .ok ⟨.empty, rest, by simp⟩
  | ⟨.punct .openBrace, _⟩ :: rest => do
    let ⟨body, rest', h⟩ ← blockBody rest
    pure ⟨.block body, rest', by simp only [List.length_cons]; omega⟩
  | ⟨.word "function", line⟩ :: ⟨.word name, line'⟩ :: rest => do
    let ⟨f, rest', h⟩ ← functionRest (⟨.word name, line'⟩ :: rest)
    pure ⟨.function f, rest', by simp only [List.length_cons] at *; omega⟩
  | ⟨.word name, line⟩ :: rest =>
    if name ∈ ["return", "if", "while", "for", "break", "continue", "throw"] ∨
        name ∈ declarators then do
      let ⟨s, rest', h⟩ ← keywordStatement name rest
      pure ⟨s, rest', by simp only [List.length_cons]; omega⟩
    else expressionStatement (⟨.word name, line⟩ :: rest)
  | ts => expressionStatement ts
  termination_by 16 * ts.length + 9

end

/-- Reads statements to the end of the tokens. -/
def program (ts : List LocatedToken) : Except Stops (List Stmt) :=
  match ts with
  | [] => .ok []
  | t :: rest => do
    let ⟨s, rest', _h⟩ ← statement (t :: rest)
    let more ← program rest'
    pure (s :: more)
  termination_by ts.length
  decreasing_by exact _h

end Parser

/-- The error of a stop: the line of the tokens before which it happened. -/
def SyntaxError.ofStop (lastLine : Nat) : Parser.Stops → SyntaxError
  | ⟨fault, t :: _⟩ => ⟨fault, t.line⟩
  | ⟨fault, []⟩ => ⟨fault, lastLine⟩

/-- Statements of a list of tokens. -/
def ofTokens (tokens : Tokens) : Except SyntaxError (List Stmt) :=
  (Parser.program tokens.tokens).mapError (SyntaxError.ofStop tokens.lastLine)

/-- Statements of a script. -/
def parse (source : String) : Except SyntaxError (List Stmt) := do
  ofTokens (← Tokens.ofSource source)

end ReactiveFrames.Script
