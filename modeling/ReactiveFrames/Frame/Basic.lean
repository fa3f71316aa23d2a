import ReactiveFrames.Table

/-!
# Frames

A frame declares one object: its class, its name and its members. A member is a property with a
literal value, a function whose body is a script, or a nested frame. The types keep what the reader
of frame source guarantees: a literal holds no function and no frame, the leaf type of a collection
is a scalar type, and a nested frame is named by its member.

## Main definitions

* `Literal`, `Function`, `Member`, `Frame`: the declarations.
* `DeclaredType`: what a member was declared as, with the keyword that introduces it.
* `Function.parameters`, `Function.source`: the script function of a function member.
-/

namespace ReactiveFrames

/-- Type of a value that is no collection. -/
inductive ScalarType where
  | bool
  | int
  | float
  | string
  | url
  /-- A registered enum type. -/
  | enum (name : String)
  deriving DecidableEq, Repr

/-- Word that names a scalar type. -/
def ScalarType.keyword : ScalarType → String
  | bool => "Bool"
  | int => "Int"
  | float => "Float"
  | string => "String"
  | url => "URL"
  | enum name => name

/-- Type of a value, as an annotation or a return type names it. -/
inductive ValueType where
  | scalar (type : ScalarType)
  | array
  | dictionary
  deriving DecidableEq, Repr

/-- Word that names a value type. -/
def ValueType.keyword : ValueType → String
  | scalar type => type.keyword
  | array => "Array"
  | dictionary => "Dictionary"

/-- Type of a property. A collection may fix the type of its leaves. -/
inductive PropertyType where
  | scalar (type : ScalarType)
  | array (leaf : Option ScalarType)
  | dictionary (leaf : Option ScalarType)
  deriving DecidableEq, Repr

/-- Word that introduces a property of a type. -/
def PropertyType.keyword : PropertyType → String
  | scalar type => type.keyword
  | array none => "Array"
  | dictionary none => "Dictionary"
  | array (some leaf) => leaf.keyword
  | dictionary (some leaf) => leaf.keyword

/-- The four kinds of function members. -/
inductive FunctionKind where
  | init
  | event
  | listener
  | procedure
  deriving DecidableEq, Repr

namespace FunctionKind

/-- Word that introduces a function of a kind. -/
def keyword : FunctionKind → String
  | init => "Init"
  | event => "Event"
  | listener => "Listner"
  | procedure => "Func"

/-- Kind that a word introduces. A listener has two spellings. -/
def ofKeyword? : String → Option FunctionKind
  | "Init" => some init
  | "Event" => some event
  | "Listner" => some listener
  | "Listener" => some listener
  | "Func" => some procedure
  | _ => none

end FunctionKind

/-- What a member is declared as. -/
inductive DeclaredType where
  | property (type : PropertyType)
  | frame (className : String)
  | function (kind : FunctionKind)
  deriving DecidableEq, Repr

namespace DeclaredType

/-- Word that introduces a member. -/
def keyword : DeclaredType → String
  | property type => type.keyword
  | frame className => className
  | function kind => kind.keyword

/-- Text of a declared type, which tells a collection of a leaf type from the leaf type. -/
def display : DeclaredType → String
  | property (.array (some leaf)) => leaf.keyword ++ "[]"
  | property (.dictionary (some leaf)) => leaf.keyword ++ "\x7b\x7d"
  | type => type.keyword

end DeclaredType

/-- A value that is no collection. -/
inductive Scalar where
  | bool (b : Bool)
  | int (i : Int)
  | float (x : Float)
  | string (s : String)
  | url (s : String)
  /-- A member of a registered enum type, with the value it was registered with. -/
  | enum (type member : String) (value : Int)

/-- Type of a scalar. -/
def Scalar.type : Scalar → ScalarType
  | bool _ => .bool
  | int _ => .int
  | float _ => .float
  | string _ => .string
  | url _ => .url
  | enum type .. => .enum type

/-- A literal value. The entries of a dictionary are in ascending order of their keys. -/
inductive Literal where
  | scalar (s : Scalar)
  | array (items : List Literal)
  | dictionary (entries : List (String × Literal))

/-- Type that a literal shows on its own. -/
def Literal.type : Literal → PropertyType
  | scalar s => .scalar s.type
  | array _ => .array none
  | dictionary _ => .dictionary none

/-- A parameter of a function, which may be annotated with a type. -/
structure Argument where
  name : String
  annotation : Option ValueType
  deriving DecidableEq, Repr

/-- A parameter of a listener, bound to a dotted path. -/
structure PathArgument where
  name : String
  /-- Segments of the path. The last one names a property. -/
  path : List String
  deriving DecidableEq, Repr

/-- A function member. -/
inductive Function where
  /-- Runs once; it may take one argument from the caller. -/
  | init (argument : Option Argument) (script : String)
  | event (arguments : List Argument) (script : String)
  /-- Runs again whenever a property on one of its paths changes. -/
  | listener (arguments : List PathArgument) (returns : ValueType) (script : String)
  | procedure (arguments : List Argument) (returns : Option ValueType) (script : String)
  deriving DecidableEq, Repr

namespace Function

/-- Kind of a function. -/
def kind : Function → FunctionKind
  | init .. => .init
  | event .. => .event
  | listener .. => .listener
  | procedure .. => .procedure

/-- Body of a function. -/
def script : Function → String
  | init _ script => script
  | event _ script => script
  | listener _ _ script => script
  | procedure _ _ script => script

/-- Parameters of the script function. Every kind but a procedure takes its owner first, under the
name `self`. -/
def parameters : Function → List String
  | init argument _ => "self" :: argument.toList.map (·.name)
  | event arguments _ => "self" :: arguments.map (·.name)
  | listener arguments _ _ => "self" :: arguments.map (·.name)
  | procedure arguments _ _ => arguments.map (·.name)

/-- A function as a function expression of a script. The body stands on lines of its own. -/
def source (f : Function) : String :=
  "function(" ++ ", ".intercalate f.parameters ++ ") \x7b\n" ++ f.script ++ "\n\x7d\n"

end Function

/-- A declaration inside a frame. -/
inductive Member where
  | property (name : String) (line : Nat) (type : PropertyType) (value : Literal)
  | function (name : String) (line : Nat) (function : Function)
  /-- A nested frame, which is called by the name of the member. -/
  | frame (name : String) (line : Nat) (className : String) (members : List Member)

/-- One declared object. -/
structure Frame where
  className : String
  instanceName : String
  members : List Member

namespace Member

/-- Identifier of a member. -/
def name : Member → String
  | property name .. => name
  | function name .. => name
  | frame name .. => name

/-- Line of the source on which a member starts, from zero. -/
def line : Member → Nat
  | property _ line .. => line
  | function _ line _ => line
  | frame _ line .. => line

/-- What a member is declared as. -/
def declared : Member → DeclaredType
  | property _ _ type _ => .property type
  | function _ _ f => .function f.kind
  | frame _ _ className _ => .frame className

/-- What the value of a member shows itself to be. -/
def actual : Member → DeclaredType
  | property _ _ _ value => .property value.type
  | function _ _ f => .function f.kind
  | frame _ _ className _ => .frame className

/-- Function of a function member. -/
def function? : Member → Option Function
  | function _ _ f => some f
  | _ => none

/-- Frame of a nested frame. -/
def frame? : Member → Option Frame
  | frame name _ className members => some ⟨className, name, members⟩
  | _ => none

end Member

namespace Frame

/-- First member with a name. -/
def member? (f : Frame) (name : String) : Option Member :=
  f.members.find? fun m ↦ m.name = name

/-- Nested frames in declaration order. -/
def children (f : Frame) : List Frame := f.members.filterMap Member.frame?

end Frame

mutual

/-- A member at a dotted path, followed by the members below it. -/
def Member.preorder (path : String) : Member → List (String × Member)
  | .property name line type value => [(path ++ "." ++ name, .property name line type value)]
  | .function name line f => [(path ++ "." ++ name, .function name line f)]
  | .frame name line className members =>
    (path ++ "." ++ name, .frame name line className members) ::
      Member.preorderList (path ++ "." ++ name) members

/-- Members below a dotted path, each followed by the members below it. -/
def Member.preorderList (path : String) : List Member → List (String × Member)
  | [] => []
  | m :: ms => Member.preorder path m ++ Member.preorderList path ms

end

/-- All members of a frame with their dotted paths, each before the members below it. -/
def Frame.preorder (f : Frame) : List (String × Member) :=
  Member.preorderList f.instanceName f.members

end ReactiveFrames
