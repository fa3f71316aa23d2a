import ReactiveFrames.Table

/-!
# Enum types

An enum type names some integers. Its members are listed in ascending order of value, and members
of one value in the order in which they were last added. A table of enum types tells the reader of
frame source which words are types and which words are members of them.

## Main definitions

* `EnumType.add`, `EnumType.valueOf?`, `EnumType.nameOf?`: members of a type.
* `EnumTable`: types by name.
* `EnumTable.ofDefinitions`: the table of a set of definitions.
-/

namespace ReactiveFrames

/-- Named integers. -/
structure EnumType where
  name : String
  /-- Members in ascending order of value. -/
  members : List (String × Int) := []
  deriving DecidableEq, Repr

namespace EnumType

/-- Lists a member after those whose value is no greater. -/
def place (member : String) (value : Int) (members : List (String × Int)) : List (String × Int) :=
  members.takeWhile (fun m ↦ m.2 ≤ value) ++ (member, value) ::
    members.dropWhile (fun m ↦ m.2 ≤ value)

/-- Adds a member, in place of one with the same name. -/
def add (t : EnumType) (member : String) (value : Int) : EnumType :=
  { t with members := place member value (t.members.filter fun m ↦ m.1 ≠ member) }

/-- Value of a member. -/
def valueOf? (t : EnumType) (member : String) : Option Int :=
  (t.members.find? fun m ↦ m.1 = member).map (·.2)

/-- First listed member with a value. -/
def nameOf? (t : EnumType) (value : Int) : Option String :=
  (t.members.find? fun m ↦ m.2 = value).map (·.1)

/-- Type with the given members, added one after the other. -/
def ofMembers (name : String) (members : List (String × Int)) : EnumType :=
  members.foldl (fun t m ↦ t.add m.1 m.2) ⟨name, []⟩

end EnumType

/-- Enum types by name. -/
abbrev EnumTable := Table EnumType

namespace EnumTable

/-- Registers a type under its own name. -/
def register (table : EnumTable) (type : EnumType) : EnumTable :=
  Table.insert table type.name type

/-- Type of a name. -/
def type? (table : EnumTable) (name : String) : Option EnumType := Table.find? table name

/-- Registers every defined type, with its members in the order of their names. -/
def ofDefinitions (definitions : Table (Table Int)) : EnumTable :=
  definitions.entries.foldl
    (fun table d ↦ register table (EnumType.ofMembers d.1 d.2.entries)) Table.empty

end EnumTable

end ReactiveFrames
