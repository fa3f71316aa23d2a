import ReactiveFrames.Decimal.Notation
import ReactiveFrames.Frame.Basic

/-!
# Canonical source of a frame

Every frame has one canonical source: one member to a line, two blanks of indentation to a level, a
function with its type before the keyword, and a collection of a leaf type introduced by that type.
-/

namespace ReactiveFrames

/-- A character of a string literal. -/
def literalChar (c : Char) : List Char :=
  match c with
  | '\n' => ['\\', 'n']
  | '\t' => ['\\', 't']
  | '"' => ['\\', '"']
  | '\\' => ['\\', '\\']
  | c => [c]

/-- A text as a string literal of frame source. -/
def stringLiteral (s : String) : String :=
  String.ofList ('"' :: s.toList.flatMap literalChar ++ ['"'])

/-- Source of a scalar. -/
def Scalar.source : Scalar → String
  | bool b => toString b
  | int i => toString i
  | float x => Decimal.literal x
  | string s => stringLiteral s
  | url s => stringLiteral s
  | enum _ member _ => member

mutual

/-- Source of a literal. -/
def Literal.source : Literal → String
  | .scalar s => s.source
  | .array items => "[" ++ ", ".intercalate (Literal.itemSources items) ++ "]"
  | .dictionary entries => "\x7b" ++ ", ".intercalate (Literal.entrySources entries) ++ "\x7d"

/-- Sources of the items of an array. -/
def Literal.itemSources : List Literal → List String
  | [] => []
  | item :: items => item.source :: Literal.itemSources items

/-- Sources of the entries of a dictionary. -/
def Literal.entrySources : List (String × Literal) → List String
  | [] => []
  | (key, value) :: entries => (key ++ ": " ++ value.source) :: Literal.entrySources entries

end

/-- Source of an argument. -/
def Argument.source (a : Argument) : String :=
  match a.annotation with
  | some type => a.name ++ ": " ++ type.keyword
  | none => a.name

/-- Source of an argument of a listener. -/
def PathArgument.source (a : PathArgument) : String := a.name ++ ": " ++ ".".intercalate a.path

/-- Source of a list of arguments. -/
def argumentList (arguments : List String) : String := "(" ++ ", ".intercalate arguments ++ ")"

/-- Source of the body of a function. -/
def bodySource (script : String) : String := " %\x7b" ++ script ++ "%\x7d"

/-- Declaration of a function after its name. -/
def Function.declaration : Function → String
  | init none script => "Init" ++ bodySource script
  | init (some a) script => "Init" ++ argumentList [a.source] ++ bodySource script
  | event arguments script =>
    "Event" ++ argumentList (arguments.map Argument.source) ++ bodySource script
  | listener arguments returns script =>
    returns.keyword ++ " Listner" ++ argumentList (arguments.map PathArgument.source) ++
      bodySource script
  | procedure arguments none script =>
    "Func" ++ argumentList (arguments.map Argument.source) ++ bodySource script
  | procedure arguments (some returns) script =>
    returns.keyword ++ " Func" ++ argumentList (arguments.map Argument.source) ++ bodySource script

/-- Indentation of a level. -/
def indentation (level : Nat) : String := String.ofList (List.replicate (2 * level) ' ')

mutual

/-- Source of a member at a level of indentation. -/
def Member.source (level : Nat) : Member → String
  | .property name _ type value =>
    indentation level ++ name ++ ": " ++ type.keyword ++ " " ++ value.source ++ "\n"
  | .function name _ f => indentation level ++ name ++ ": " ++ f.declaration ++ "\n"
  | .frame name _ className members =>
    indentation level ++ name ++ ": " ++ className ++ " \x7b\n" ++
      Member.listSource (level + 1) members ++ indentation level ++ "\x7d\n"

/-- Source of the members of a frame. -/
def Member.listSource (level : Nat) : List Member → String
  | [] => ""
  | m :: ms => m.source level ++ Member.listSource level ms

end

/-- Canonical source of a frame. -/
def Frame.source (f : Frame) : String :=
  f.instanceName ++ ": " ++ f.className ++ " \x7b\n" ++ Member.listSource 1 f.members ++ "\x7d\n"

end ReactiveFrames
