/-!
# Syntax of scripts

The bodies of function members are written in a small language of expressions and statements. Its
trees say nothing about layout, and a place that can be assigned to is a type of its own.
-/

namespace ReactiveFrames.Script

/-- Operators on two evaluated operands. -/
inductive BinaryOp where
  | add
  | sub
  | mul
  | div
  | rem
  | eq
  | notEq
  | strictEq
  | strictNotEq
  | less
  | lessEq
  | greater
  | greaterEq
  deriving DecidableEq, Repr

/-- Operators that may leave their right operand alone. -/
inductive LogicalOp where
  | and
  | or
  deriving DecidableEq, Repr

/-- Operators on one operand. -/
inductive UnaryOp where
  | not
  | neg
  | plus
  | typeOf
  deriving DecidableEq, Repr

/-- How strongly an operator binds: equality least, then order, sums and products. -/
def BinaryOp.precedence : BinaryOp → Nat
  | eq | notEq | strictEq | strictNotEq => 1
  | less | lessEq | greater | greaterEq => 2
  | add | sub => 3
  | mul | div | rem => 4

mutual

inductive Expr where
  | number (x : Float)
  | string (s : String)
  | bool (b : Bool)
  | null
  | undefined
  | variable (name : String)
  | array (items : List Expr)
  | object (entries : List (String × Expr))
  | function (f : FunctionDecl)
  | unary (op : UnaryOp) (operand : Expr)
  | binary (op : BinaryOp) (left right : Expr)
  | logical (op : LogicalOp) (left right : Expr)
  | conditional (test consequent alternate : Expr)
  /-- An assignment, compound if it has an operator. -/
  | assign (op : Option BinaryOp) (target : Target) (value : Expr)
  /-- One more or one less; its value is the new number if the operator stands `before`. -/
  | update (increment before : Bool) (target : Target)
  | member (object : Expr) (property : String)
  | index (object index : Expr)
  | call (callee : Expr) (arguments : List Expr)

/-- A place that can be assigned to. -/
inductive Target where
  | variable (name : String)
  | member (object : Expr) (property : String)
  | index (object index : Expr)

/-- A function literal or declaration. -/
inductive FunctionDecl where
  | mk (name : Option String) (parameters : List String) (body : List Stmt)

inductive Stmt where
  | expression (e : Expr)
  /-- Variables of the innermost scope, each with its first value. -/
  | declare (declared : List (String × Option Expr))
  | function (f : FunctionDecl)
  | returnValue (value : Option Expr)
  | branch (test : Expr) (consequent : Stmt) (alternate : Option Stmt)
  | whileLoop (test : Expr) (body : Stmt)
  | forLoop (init : Option Stmt) (test update : Option Expr) (body : Stmt)
  | block (body : List Stmt)
  | breakLoop
  | continueLoop
  | throwValue (value : Expr)
  | empty

end

namespace FunctionDecl

/-- Name of a function, if it has one. -/
def name : FunctionDecl → Option String
  | mk name _ _ => name

/-- Parameters in the order of the arguments. -/
def parameters : FunctionDecl → List String
  | mk _ parameters _ => parameters

/-- Statements of a function. -/
def body : FunctionDecl → List Stmt
  | mk _ _ body => body

end FunctionDecl

instance : Inhabited Expr := ⟨.undefined⟩

instance : Inhabited Stmt := ⟨.empty⟩

end ReactiveFrames.Script
