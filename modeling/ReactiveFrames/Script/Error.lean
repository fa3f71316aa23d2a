import ReactiveFrames.Script.Token

/-!
# Errors of scripts

Why a text is no script, and how the evaluation of a script fails. Every failure has a kind, which
its message starts with.
-/

namespace ReactiveFrames.Script

/-- Causes for which a text is refused as a script. -/
inductive Fault where
  | openComment
  | openString
  | number (text : String)
  | character (c : Char)
  /-- A punctuator is required. -/
  | punct (p : Punct)
  | identifier
  | propertyName
  | openBlock
  | target
  | endOfScript
  /-- A punctuator stands where an expression is required. -/
  | token (p : Punct)
  deriving DecidableEq, Repr

/-- Wording of a fault. -/
def Fault.message : Fault → String
  | openComment => "Unterminated comment"
  | openString => "Unterminated string"
  | number text => "Invalid number '" ++ text ++ "'"
  | character c => "Unexpected character '" ++ c.toString ++ "'"
  | punct p => "Expected '" ++ p.text ++ "'"
  | identifier => "Expected identifier"
  | propertyName => "Expected property name"
  | openBlock => "Expected '\x7d' before end of script"
  | target => "Invalid assignment target"
  | endOfScript => "Unexpected end of script"
  | token p => "Unexpected token '" ++ p.text ++ "'"

/-- A refused script. -/
structure SyntaxError where
  fault : Fault
  /-- Line of the fault, from zero. -/
  line : Nat
  deriving DecidableEq, Repr

/-- Failures of a script. -/
inductive ScriptError where
  /-- The text is no script. -/
  | malformed (e : SyntaxError)
  /-- Read of an undeclared variable. -/
  | undefinedVariable (name : String)
  /-- Read of a property of `undefined` or `null`, which is shown as `value`. -/
  | unreadable (property value : String)
  /-- Write of a property of a value that has none. -/
  | unwritable (property value : String)
  | notAFunction (value : String)
  | callDepth
  /-- Write of an array position that no array of this length can have. -/
  | arrayIndex (index : String)
  /-- Text of the value of a `throw` statement. -/
  | thrown (text : String)
  /-- Failure of a function that the script does not define. -/
  | foreign (text : String)
  deriving DecidableEq, Repr

namespace ScriptError

/-- Kind of a failure. -/
def kind : ScriptError → String
  | malformed _ => "SyntaxError"
  | undefinedVariable _ => "ReferenceError"
  | unreadable .. | unwritable .. | notAFunction _ => "TypeError"
  | callDepth | arrayIndex _ => "RangeError"
  | thrown _ => "Error"
  | foreign _ => "HostError"

/-- Wording of a failure after its kind. Lines are shown from one. -/
def detail : ScriptError → String
  | malformed e => e.fault.message ++ " at line " ++ toString (e.line + 1)
  | undefinedVariable name => name ++ " is not defined"
  | unreadable property value => "Cannot read property '" ++ property ++ "' of " ++ value
  | unwritable property value => "Cannot set property '" ++ property ++ "' of " ++ value
  | notAFunction value => value ++ " is not a function"
  | callDepth => "Maximum call stack size exceeded"
  | arrayIndex index => "Invalid array index " ++ index
  | thrown text => text
  | foreign text => text

/-- Wording of a failure. -/
def message (e : ScriptError) : String := e.kind ++ ": " ++ e.detail

end ScriptError

end ReactiveFrames.Script
