import ReactiveFrames.Frame.Parser
import ReactiveFrames.Path
import ReactiveFrames.Script.Value
import ReactiveFrames.Text.Alphabetic
import ReactiveFrames.Text.Numeric

/-!
# Data frames

A frame that declares only literals and further such frames is data, and scripts can read it by its
identifier as a record. The text of a data frame is a resource: an entry in memory, or a file in one
directory. An identifier names a file only if it cannot lead out of that directory.

## Main definitions

* `Resources`: where texts are found, with `Resources.load?`.
* `resourcePath?`: the file of an identifier.
* `Frame.toValue`: the record of a data frame.
-/

namespace ReactiveFrames

open Script (Value Heap)

/-! ## Literals as values -/

mutual

/-- Value of a literal. An enum member is its number. -/
def Literal.toValue : Literal → Heap → Value × Heap
  | .scalar (.bool b), h => (.bool b, h)
  | .scalar (.int i), h => (.number (Float.ofInt i), h)
  | .scalar (.float x), h => (.number x, h)
  | .scalar (.string s), h => (.string s, h)
  | .scalar (.url s), h => (.string s, h)
  | .scalar (.enum _ _ i), h => (.number (Float.ofInt i), h)
  | .array items, h =>
    let (values, h) := Literal.itemsToValues items h
    h.newArray values.toArray
  | .dictionary entries, h =>
    let (values, h) := Literal.entriesToValues entries h
    h.newRecord (Table.ofList values)

/-- Values of the items of an array. -/
def Literal.itemsToValues : List Literal → Heap → List Value × Heap
  | [], h => ([], h)
  | item :: items, h =>
    let (v, h) := item.toValue h
    let (vs, h) := Literal.itemsToValues items h
    (v :: vs, h)

/-- Values of the entries of a dictionary. -/
def Literal.entriesToValues : List (String × Literal) → Heap → List (String × Value) × Heap
  | [], h => ([], h)
  | (key, value) :: entries, h =>
    let (v, h) := value.toValue h
    let (vs, h) := Literal.entriesToValues entries h
    ((key, v) :: vs, h)

end

/-- Property that holds the name of an object. -/
def instanceNameProperty : String := "instanceName"

/-- Property that holds the class of an object. -/
def classNameProperty : String := "className"

/-- The two properties that every object starts with. -/
def initialProperties (className instanceName : String) : Table Value :=
  (Table.empty.insert instanceNameProperty (.string instanceName)).insert classNameProperty
    (.string className)

/-! ## Frames as values -/

/-- Why there is no data under an identifier. -/
inductive DataError where
  | notFound (identifier : String)
  | parse (e : ParseError)
  /-- A member is no data. -/
  | unsupported (property : String) (kind : FunctionKind)
  deriving DecidableEq, Repr

/-- Wording of a data error. -/
def DataError.message : DataError → String
  | notFound identifier => "No data named " ++ identifier
  | parse e => e.message
  | unsupported property kind =>
    "Unexpected value of property " ++ property ++ ": " ++ kind.keyword

mutual

/-- Value of a member, unless it or one below it is a function. -/
def Member.toValue : Member → Heap → Except DataError (Value × Heap)
  | .property _ _ _ value, h => .ok (value.toValue h)
  | .function name _ f, _ => .error (.unsupported name f.kind)
  | .frame name _ className members, h => do
    let (entries, h) ← Member.listToValues members (initialProperties className name) h
    pure (h.newRecord entries)

/-- Adds the values of members to the entries of a record. -/
def Member.listToValues : List Member → Table Value → Heap → Except DataError (Table Value × Heap)
  | [], entries, h => .ok (entries, h)
  | m :: ms, entries, h => do
    let (v, h) ← m.toValue h
    Member.listToValues ms (entries.insert m.name v) h

end

/-- Record of a data frame. -/
def Frame.toValue (f : Frame) (h : Heap) : Except DataError (Value × Heap) := do
  let (entries, h) ← Member.listToValues f.members (initialProperties f.className f.instanceName) h
  pure (h.newRecord entries)

/-! ## Resources -/

/-- An identifier holds letters, numerals, underscores and hyphens only. -/
def isResourceIdentifier (identifier : String) : Bool :=
  !identifier.isEmpty && identifier.toList.all fun c ↦
    Text.isAlphabetic c || Text.isNumeric c || c == '_' || c == '-'

/-- Path of the file that holds the data of an identifier. -/
def resourcePath? (dir identifier : String) : Option String :=
  if isResourceIdentifier identifier then some (Path.join dir (identifier ++ ".amb")) else none

/-- Where the texts of data frames are found. -/
inductive Resources where
  /-- Texts by identifier. -/
  | memory (texts : Table String)
  /-- Texts by path of the files of a directory. -/
  | directory (dir : String) (texts : Table String)

/-- Text of the data of an identifier. -/
def Resources.load? : Resources → String → Option String
  | memory texts, identifier => texts.find? identifier
  | directory dir texts, identifier => (resourcePath? dir identifier).bind texts.find?

/-- Reads data frames with a table of enum types. -/
structure DataReader where
  resources : Resources
  enums : EnumTable

/-- Record of the data of an identifier. -/
def DataReader.read (r : DataReader) (identifier : String) (h : Heap) :
    Except DataError (Value × Heap) := do
  let text ← match r.resources.load? identifier with
    | some text => pure text
    | none => throw (.notFound identifier)
  let frame ← (Frame.parse r.enums text).mapError DataError.parse
  frame.toValue h

/-- A record is made of a frame. -/
theorem DataReader.exists_toValue_of_read {r : DataReader} {identifier : String} {h : Heap}
    {v : Value × Heap} (hv : r.read identifier h = .ok v) :
    ∃ frame : Frame, frame.toValue h = .ok v := by
  unfold DataReader.read at hv
  split at hv
  · simp only [bind, Except.bind, pure, Except.pure] at hv
    split at hv
    · cases hv
    · exact ⟨_, hv⟩
  · cases hv

end ReactiveFrames
