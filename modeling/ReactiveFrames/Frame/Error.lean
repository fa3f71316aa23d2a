import ReactiveFrames.Frame.Basic
import ReactiveFrames.Frame.Token

/-!
# Errors of frame source

Why a source is no frame, on which line, and at which token the reader stopped.
-/

namespace ReactiveFrames

/-- Parts of a frame that a source may lack. -/
inductive FramePart where
  | identifier
  | className
  | type
  | returnType
  | listenerReturnType
  | argumentName
  | argumentType
  | listenerArgumentName
  | path
  | pathElement
  | body (kind : FunctionKind)
  deriving DecidableEq, Repr

/-- Name of a part in a message. -/
def FramePart.label : FramePart → String
  | identifier => "Identifier"
  | className => "Class name"
  | type => "Type"
  | returnType => "Return type"
  | listenerReturnType => "Return type of Listner"
  | argumentName => "Argument name"
  | argumentType => "Argument type"
  | listenerArgumentName => "Listening argument name"
  | path => "Path expression"
  | pathElement => "Path expression element"
  | body .init => "Init function body"
  | body .event => "Event function body"
  | body .listener => "Listner function body"
  | body .procedure => "Procedure function body"

/-- Causes for which a source is refused. -/
inductive FrameFault where
  /-- A comment, a string or a script without its end. -/
  | openComment
  | openString
  | openText
  | number
  | character (c : Char)
  /-- A symbol is required. -/
  | symbol (s : FrameSymbol)
  /-- A part is required. -/
  | part (p : FramePart)
  /-- A word of another use stands for a class. -/
  | notAClass (name : String)
  /-- A word that names no value type stands for the type of an argument or a result. -/
  | notAValueType (p : FramePart) (name : String)
  /-- Tokens follow the root frame. -/
  | afterRoot
  | initArguments
  /-- Init and event functions return nothing. -/
  | returnType
  | returnTypeTwice
  | shortPath (path : List String)
  | arrayComma
  | dictionaryComma
  | dictionaryKey
  | dictionaryColon
  | repeatedKey (key : String)
  | endOfInput
  | enumMember (type : String)
  /-- An identifier stands for a literal. -/
  | identifier (name : String)
  /-- A literal of another type stands for one of the given type. -/
  | literal (expected : ScalarType)
  | token
  deriving DecidableEq, Repr

/-- Wording of a fault. -/
def FrameFault.message : FrameFault → String
  | openComment => "Unterminated comment"
  | openString => "Unterminated string literal"
  | openText => "Unterminated text block"
  | number => "Invalid number literal"
  | character c => "Unexpected character '" ++ c.toString ++ "'"
  | symbol s => "Symbol \"" ++ s.text ++ "\" is required but it is not given"
  | part p => p.label ++ " is required but it is not given"
  | notAClass name => "\"" ++ name ++ "\" can not be used as a class name"
  | notAValueType p name => p.label ++ " must be a value type, not \"" ++ name ++ "\""
  | afterRoot => "Unexpected token after the root frame"
  | initArguments => "Init function takes at most one argument"
  | returnType => "Event/Init function does not have return type"
  | returnTypeTwice => "Return type is declared twice"
  | shortPath path =>
    "Path expression \"" ++ ".".intercalate path ++ "\" needs an object and a property"
  | arrayComma => "\",\" is required between array elements"
  | dictionaryComma => "\",\" is required between dictionary elements"
  | dictionaryKey => "The key identifier of dictionary is required"
  | dictionaryColon => "\":\" is required between dictionary key and value"
  | repeatedKey key => "Multi defined dictionary key \"" ++ key ++ "\""
  | endOfInput => "Unexpected end of input stream"
  | enumMember type => "Unknown member of Enum \"" ++ type ++ "\" value"
  | identifier name => "Unexpected identifier: \"" ++ name ++ "\""
  | literal expected => expected.keyword ++ " value is expected"
  | token => "Unexpected token"

/-- A refused source. -/
structure ParseError where
  fault : FrameFault
  /-- Line of the fault, from zero. -/
  line : Nat
  /-- Text of the token that was read last, unless the source had ended or was no token at all. -/
  near : Option String
  deriving DecidableEq, Repr

/-- Wording of a refused source. Lines are shown from one. -/
def ParseError.message (e : ParseError) : String :=
  let place := match e.near with
    | some token => " near token " ++ token
    | none => ""
  e.fault.message ++ place ++ " at line " ++ toString (e.line + 1)

end ReactiveFrames
