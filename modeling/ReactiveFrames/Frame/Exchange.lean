import ReactiveFrames.Decimal.Notation
import ReactiveFrames.Frame.Basic

/-!
# Exchange form of a frame

A frame as a JSON document for other programs. A value of a type with several cases is written as an
object with one entry, named for the case; a case without data is written as its name alone.

## Main definitions

* `Json`: a document, with the writers `Json.compact` and `Json.pretty`.
* `Frame.toJson`: the document of a frame.
-/

namespace ReactiveFrames

/-- A JSON document. A number is kept as its text, an object in the order of its entries. -/
inductive Json where
  | null
  | bool (b : Bool)
  | number (text : String)
  | string (s : String)
  | array (items : List Json)
  | object (entries : List (String × Json))

namespace Json

/-- Number of a control character, in four hexadecimal digits. -/
def controlEscape (c : Char) : List Char :=
  let digits := Nat.toDigits 16 c.toNat
  '\\' :: 'u' :: List.replicate (4 - digits.length) '0' ++ digits

/-- A character of a string. -/
def stringChar (c : Char) : List Char :=
  match c with
  | '"' => ['\\', '"']
  | '\\' => ['\\', '\\']
  | '\n' => ['\\', 'n']
  | '\r' => ['\\', 'r']
  | '\t' => ['\\', 't']
  | '\x08' => ['\\', 'b']
  | '\x0c' => ['\\', 'f']
  | c => if c.toNat < 32 then controlEscape c else [c]

/-- Text of a string. -/
def quoted (s : String) : String := String.ofList ('"' :: s.toList.flatMap stringChar ++ ['"'])

mutual

/-- Text of a document on one line, without blanks. -/
def compact : Json → String
  | .null => "null"
  | .bool b => toString b
  | .number text => text
  | .string s => quoted s
  | .array items => "[" ++ ",".intercalate (compactItems items) ++ "]"
  | .object entries => "\x7b" ++ ",".intercalate (compactEntries entries) ++ "\x7d"

/-- Texts of the items of an array. -/
def compactItems : List Json → List String
  | [] => []
  | item :: items => item.compact :: compactItems items

/-- Texts of the entries of an object. -/
def compactEntries : List (String × Json) → List String
  | [] => []
  | (name, value) :: entries => (quoted name ++ ":" ++ value.compact) :: compactEntries entries

end

/-- Line feed and indentation of a level. -/
def lineBreak (level : Nat) : String := "\n" ++ String.ofList (List.replicate (2 * level) ' ')

/-- Texts between brackets, each on a line of its own. -/
def block (level : Nat) (opening closing : String) (parts : List String) : String :=
  if parts.isEmpty then opening ++ closing
  else
    opening ++ lineBreak (level + 1) ++ ("," ++ lineBreak (level + 1)).intercalate parts ++
      lineBreak level ++ closing

mutual

/-- Text of a document, one item or entry to a line. -/
def pretty (level : Nat) : Json → String
  | .null => "null"
  | .bool b => toString b
  | .number text => text
  | .string s => quoted s
  | .array items => block level "[" "]" (prettyItems (level + 1) items)
  | .object entries => block level "\x7b" "\x7d" (prettyEntries (level + 1) entries)

/-- Texts of the items of an array. -/
def prettyItems (level : Nat) : List Json → List String
  | [] => []
  | item :: items => item.pretty level :: prettyItems level items

/-- Texts of the entries of an object. -/
def prettyEntries (level : Nat) : List (String × Json) → List String
  | [] => []
  | (name, value) :: entries =>
    (quoted name ++ ": " ++ value.pretty level) :: prettyEntries level entries

end

/-- A case with its data. -/
def case (name : String) (data : Json) : Json := .object [(name, data)]

/-- A value that may be absent. -/
def ofOption {α : Type} (toJson : α → Json) : Option α → Json
  | none => .null
  | some a => toJson a

end Json

/-- Document of a scalar type. -/
def ScalarType.toJson : ScalarType → Json
  | bool => .string "Bool"
  | int => .string "Int"
  | float => .string "Float"
  | string => .string "String"
  | url => .string "Url"
  | enum name => .case "Enum" (.string name)

/-- Document of a value type. -/
def ValueType.toJson : ValueType → Json
  | scalar type => type.toJson
  | array => .case "Array" .null
  | dictionary => .case "Dictionary" .null

/-- Document of a property type. -/
def PropertyType.toJson : PropertyType → Json
  | scalar type => type.toJson
  | array leaf => .case "Array" (.ofOption ScalarType.toJson leaf)
  | dictionary leaf => .case "Dictionary" (.ofOption ScalarType.toJson leaf)

/-- Document of a declared type. -/
def DeclaredType.toJson : DeclaredType → Json
  | property type => type.toJson
  | frame className => .case "Frame" (.string className)
  | function .init => .string "InitFunction"
  | function .event => .string "EventFunction"
  | function .listener => .string "ListenerFunction"
  | function .procedure => .string "ProcedureFunction"

/-- Document of a scalar. -/
def Scalar.toJson : Scalar → Json
  | bool b => .case "Bool" (.bool b)
  | int i => .case "Int" (.number (toString i))
  | float x => .case "Float" (.number (Decimal.json x))
  | string s => .case "String" (.string s)
  | url s => .case "Url" (.string s)
  | enum type member value =>
    .case "Enum" (.object
      [("type_name", .string type), ("member", .string member),
        ("value", .number (toString value))])

mutual

/-- Document of a literal. -/
def Literal.toJson : Literal → Json
  | .scalar s => .case "Scalar" s.toJson
  | .array items => .case "Array" (.array (Literal.itemsToJson items))
  | .dictionary entries => .case "Dictionary" (.object (Literal.entriesToJson entries))

/-- Documents of the items of an array. -/
def Literal.itemsToJson : List Literal → List Json
  | [] => []
  | item :: items => item.toJson :: Literal.itemsToJson items

/-- Documents of the entries of a dictionary. -/
def Literal.entriesToJson : List (String × Literal) → List (String × Json)
  | [] => []
  | (key, value) :: entries => (key, value.toJson) :: Literal.entriesToJson entries

end

/-- Document of an argument. -/
def Argument.toJson (a : Argument) : Json :=
  .object [("name", .string a.name), ("annotation", .ofOption ValueType.toJson a.annotation)]

/-- Document of an argument of a listener. -/
def PathArgument.toJson (a : PathArgument) : Json :=
  .object
    [("name", .string a.name), ("path", .case "elements" (.array (a.path.map Json.string)))]

/-- Document of a function. -/
def Function.toJson : Function → Json
  | init argument script =>
    .case "Init" (.object
      [("argument", .ofOption Argument.toJson argument), ("script", .string script)])
  | event arguments script =>
    .case "Event" (.object
      [("arguments", .array (arguments.map Argument.toJson)), ("script", .string script)])
  | listener arguments returns script =>
    .case "Listener" (.object
      [("arguments", .array (arguments.map PathArgument.toJson)),
        ("return_type", returns.toJson), ("script", .string script)])
  | procedure arguments returns script =>
    .case "Procedure" (.object
      [("arguments", .array (arguments.map Argument.toJson)),
        ("return_type", .ofOption ValueType.toJson returns), ("script", .string script)])

/-- Document of a frame with documents of its members. -/
def frameJson (className instanceName : String) (members : List Json) : Json :=
  .object
    [("class_name", .string className), ("instance_name", .string instanceName),
      ("members", .array members)]

/-- Document of a member with the document of its value. -/
def memberJson (name : String) (declared : DeclaredType) (value : Json) : Json :=
  .object [("identifier", .string name), ("declared_type", declared.toJson), ("value", value)]

mutual

/-- Document of a member. -/
def Member.toJson : Member → Json
  | .property name _ type value => memberJson name (.property type) value.toJson
  | .function name _ f => memberJson name (.function f.kind) f.toJson
  | .frame name _ className members =>
    memberJson name (.frame className)
      (.case "Frame" (frameJson className name (Member.listToJson members)))

/-- Documents of the members of a frame. -/
def Member.listToJson : List Member → List Json
  | [] => []
  | m :: ms => m.toJson :: Member.listToJson ms

end

/-- Document of a frame. -/
def Frame.toJson (f : Frame) : Json :=
  frameJson f.className f.instanceName (Member.listToJson f.members)

end ReactiveFrames
