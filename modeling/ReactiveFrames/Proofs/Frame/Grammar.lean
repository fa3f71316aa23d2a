import ReactiveFrames.Frame.Parser

/-!
# Grammar of frame source

The phrases of frame source, as lists of tokens together with the values that they stand for. Names
of nonterminals are capital, words in quotes are symbols, and `Ident`, `Text` and `Scalar` are
single tokens.

```text
Root       = Ident ':' Class Body
Body       = '{' (Member [','])* '}'
Member     = Ident ':' Class Body
           | Ident ':' Keyword Function
           | Ident ':' Type Keyword Function
           | Ident ':' Type Property
Function   = ['(' Args ')'] Text                     Init
           | '(' Args ')' Text                       Event, Func
           | '(' Args ')' '->' Type Text             Func
           | '(' PathArgs ')' Text                   Listner after a type
           | '(' PathArgs ')' '->' Type Text         Listner
Arg        = Ident [':' Type]
PathArg    = Ident ':' Ident ('.' Ident)+
Literal    = Scalar | '[' Literals ']' | '{' Entries '}'
Entry      = Ident ':' Literal
```

A list has commas between its items and none after the last one. What a word in the position of a
type means is settled in a fixed order, and a type before a keyword is the type of a result.

## Main definitions

* `FrameGrammar.Means`: what a word in the position of a type means.
* `FrameGrammar.LiteralPhrase`, `FrameGrammar.FunctionPhrase`, `FrameGrammar.MemberPhrase`.
* `FrameGrammar.RootPhrase`: the sources of a frame, as lists of tokens.
-/

namespace ReactiveFrames

/-- Lists of tokens that stand for a value. -/
abbrev Phrase (α : Type) := List LocatedToken → α → Prop

namespace FrameGrammar

variable {α : Type}

/-! ## Words in the position of a type -/

/-- Types that no table of enum types changes. -/
def builtIns : List ValueType :=
  [.scalar .bool, .scalar .int, .scalar .float, .scalar .string, .scalar .url, .array, .dictionary]

/-- The word names the built-in type. -/
def NamesBuiltIn (name : String) (type : ValueType) : Prop := type ∈ builtIns ∧ type.keyword = name

/-- The word is a keyword of the kind of functions. A listener has two spellings. -/
def NamesFunction (name : String) (kind : FunctionKind) : Prop :=
  name = kind.keyword ∨ name = "Listener" ∧ kind = .listener

/-- Meaning of a word in the position of a type: a built-in type before an enum type of the table,
an enum type before a keyword, and a class if it is nothing else. -/
inductive Means (enums : EnumTable) (name : String) : TypeWord → Prop
  | builtIn {type : ValueType} (h : NamesBuiltIn name type) : Means enums name (.value type)
  | enum (hbuiltIn : ∀ type, ¬NamesBuiltIn name type) {type : EnumType}
    (h : enums.type? name = some type) : Means enums name (.value (.scalar (.enum name)))
  | function (hbuiltIn : ∀ type, ¬NamesBuiltIn name type) (henum : enums.type? name = none)
    {kind : FunctionKind} (h : NamesFunction name kind) : Means enums name (.function kind)
  | class (hbuiltIn : ∀ type, ¬NamesBuiltIn name type) (henum : enums.type? name = none)
    (h : ∀ kind, ¬NamesFunction name kind) : Means enums name (.class name)

/-! ## Lists -/

/-- Items each of which follows a separator. -/
inductive Following (separator : FrameSymbol) (item : Phrase α) : Phrase (List α)
  | nil : Following separator item [] []
  | cons {p : Position} {ts us : List LocatedToken} {a : α} {as : List α} (h : item ts a)
    (hmore : Following separator item us as) :
    Following separator item (⟨.symbol separator, p⟩ :: ts ++ us) (a :: as)

/-- Items with a separator between them. -/
inductive Separated (separator : FrameSymbol) (item : Phrase α) : Phrase (List α)
  | nil : Separated separator item [] []
  | cons {ts us : List LocatedToken} {a : α} {as : List α} (h : item ts a)
    (hmore : Following separator item us as) : Separated separator item (ts ++ us) (a :: as)

/-- A phrase between two symbols. -/
def Enclosed (opening closing : FrameSymbol) (inner : Phrase α) : Phrase α := fun ts a ↦
  ∃ p q us, ts = ⟨.symbol opening, p⟩ :: us ++ [⟨.symbol closing, q⟩] ∧ inner us a

/-- A single identifier. -/
def IdentPhrase : Phrase String := fun ts name ↦ ∃ p, ts = [⟨.word name, p⟩]

/-! ## Literals -/

/-- The token stands for the scalar, where scalars of the given type or of any type may stand. An
enum member and a URL need their type, a script is a string where a string is asked for, and an
integer becomes a double where a double is asked for. -/
inductive ScalarToken (enums : EnumTable) (leaf : Option ScalarType) : FrameToken → Scalar → Prop
  | bool (h : leaf = none ∨ leaf = some .bool) (b : Bool) :
    ScalarToken enums leaf (.bool b) (.bool b)
  | int (h : leaf = none ∨ leaf = some .int) (i : Int) : ScalarToken enums leaf (.int i) (.int i)
  | float (h : leaf = none ∨ leaf = some .float) (x : Float) :
    ScalarToken enums leaf (.float x) (.float x)
  | promoted (h : leaf = some .float) (i : Int) :
    ScalarToken enums leaf (.int i) (.float (Float.ofInt i))
  | string (h : leaf = none ∨ leaf = some .string) (s : String) :
    ScalarToken enums leaf (.string s) (.string s)
  | script (h : leaf = some .string) (s : String) : ScalarToken enums leaf (.text s) (.string s)
  | url (h : leaf = some .url) (s : String) : ScalarToken enums leaf (.string s) (.url s)
  | enum {name member : String} {type : EnumType} {value : Int} (h : leaf = some (.enum name))
    (htype : enums.type? name = some type) (hvalue : type.valueOf? member = some value) :
    ScalarToken enums leaf (.word member) (.enum name member value)

mutual

/-- A literal. The keys of a dictionary differ, and its value lists them in ascending order. -/
inductive LiteralPhrase (enums : EnumTable) (leaf : Option ScalarType) :
    List LocatedToken → Literal → Prop
  | scalar {t : LocatedToken} {s : Scalar} (h : ScalarToken enums leaf t.token s) :
    LiteralPhrase enums leaf [t] (.scalar s)
  | array {p q : Position} {ts : List LocatedToken} {items : List Literal}
    (h : Separated .comma (LiteralPhrase enums leaf) ts items) :
    LiteralPhrase enums leaf (⟨.symbol .openBracket, p⟩ :: ts ++ [⟨.symbol .closeBracket, q⟩])
      (.array items)
  | dictionary {p q : Position} {ts : List LocatedToken} {written entries : List (String × Literal)}
    (h : Separated .comma (EntryPhrase enums leaf) ts written)
    (hkeys : (written.map (·.1)).Nodup) (hperm : entries.Perm written)
    (hascending : entries.Pairwise fun a b ↦ a.1 < b.1) :
    LiteralPhrase enums leaf (⟨.symbol .openBrace, p⟩ :: ts ++ [⟨.symbol .closeBrace, q⟩])
      (.dictionary entries)

/-- An entry of a dictionary. -/
inductive EntryPhrase (enums : EnumTable) (leaf : Option ScalarType) :
    List LocatedToken → String × Literal → Prop
  | mk {p q : Position} {key : String} {ts : List LocatedToken} {value : Literal}
    (h : LiteralPhrase enums leaf ts value) :
    EntryPhrase enums leaf (⟨.word key, p⟩ :: ⟨.symbol .colon, q⟩ :: ts) (key, value)

end

/-- What follows the type of a property. A collection after a scalar type has leaves of it. -/
inductive PropertyPhrase (enums : EnumTable) : ValueType → Phrase (PropertyType × Literal)
  | array {ts : List LocatedToken} {items : List Literal}
    (h : LiteralPhrase enums none ts (.array items)) :
    PropertyPhrase enums .array ts (.array none, .array items)
  | dictionary {ts : List LocatedToken} {entries : List (String × Literal)}
    (h : LiteralPhrase enums none ts (.dictionary entries)) :
    PropertyPhrase enums .dictionary ts (.dictionary none, .dictionary entries)
  | scalar {leaf : ScalarType} {ts : List LocatedToken} {s : Scalar}
    (h : LiteralPhrase enums (some leaf) ts (.scalar s)) :
    PropertyPhrase enums (.scalar leaf) ts (.scalar leaf, .scalar s)
  | leafArray {leaf : ScalarType} {ts : List LocatedToken} {items : List Literal}
    (h : LiteralPhrase enums (some leaf) ts (.array items)) :
    PropertyPhrase enums (.scalar leaf) ts (.array (some leaf), .array items)
  | leafDictionary {leaf : ScalarType} {ts : List LocatedToken} {entries : List (String × Literal)}
    (h : LiteralPhrase enums (some leaf) ts (.dictionary entries)) :
    PropertyPhrase enums (.scalar leaf) ts (.dictionary (some leaf), .dictionary entries)

/-! ## Functions -/

/-- An argument, which may be annotated with a type. -/
inductive ArgumentPhrase (enums : EnumTable) : Phrase Argument
  | plain {p : Position} {name : String} : ArgumentPhrase enums [⟨.word name, p⟩] ⟨name, none⟩
  | annotated {p q r : Position} {name word : String} {type : ValueType}
    (h : Means enums word (.value type)) :
    ArgumentPhrase enums [⟨.word name, p⟩, ⟨.symbol .colon, q⟩, ⟨.word word, r⟩] ⟨name, some type⟩

/-- An argument of a listener. Its path has an object and a property. -/
inductive PathArgumentPhrase : Phrase PathArgument
  | mk {p q : Position} {name : String} {ts : List LocatedToken} {path : List String}
    (h : Separated .dot IdentPhrase ts path) (hlength : 2 ≤ path.length) :
    PathArgumentPhrase (⟨.word name, p⟩ :: ⟨.symbol .colon, q⟩ :: ts) ⟨name, path⟩

/-- Arguments between parentheses. -/
abbrev Parenthesized (item : Phrase α) : Phrase (List α) :=
  Enclosed .openParen .closeParen (Separated .comma item)

/-- What follows the keyword of a function of the kind, where the type of a result may stand before
the keyword. An init function drops the arguments that are called `self`, and one may remain. -/
inductive FunctionPhrase (enums : EnumTable) : FunctionKind → Option ValueType → Phrase Function
  | init {p : Position} {ts : List LocatedToken} {arguments : List Argument}
    {argument : Option Argument} {script : String}
    (h : ts = [] ∧ arguments = [] ∨ Parenthesized (ArgumentPhrase enums) ts arguments)
    (hself : arguments.filter (·.name ≠ "self") = argument.toList) :
    FunctionPhrase enums .init none (ts ++ [⟨.text script, p⟩]) (.init argument script)
  | event {p : Position} {ts : List LocatedToken} {arguments : List Argument} {script : String}
    (h : Parenthesized (ArgumentPhrase enums) ts arguments) :
    FunctionPhrase enums .event none (ts ++ [⟨.text script, p⟩]) (.event arguments script)
  | listener {p q r : Position} {ts : List LocatedToken} {arguments : List PathArgument}
    {word script : String} {returns : ValueType} (h : Parenthesized PathArgumentPhrase ts arguments)
    (hreturns : Means enums word (.value returns)) :
    FunctionPhrase enums .listener none
      (ts ++ [⟨.symbol .arrow, p⟩, ⟨.word word, q⟩, ⟨.text script, r⟩])
      (.listener arguments returns script)
  | typedListener {p : Position} {ts : List LocatedToken} {arguments : List PathArgument}
    {script : String} {returns : ValueType} (h : Parenthesized PathArgumentPhrase ts arguments) :
    FunctionPhrase enums .listener (some returns) (ts ++ [⟨.text script, p⟩])
      (.listener arguments returns script)
  | procedure {p : Position} {before : Option ValueType} {ts : List LocatedToken}
    {arguments : List Argument} {script : String}
    (h : Parenthesized (ArgumentPhrase enums) ts arguments) :
    FunctionPhrase enums .procedure before (ts ++ [⟨.text script, p⟩])
      (.procedure arguments before script)
  | returningProcedure {p q r : Position} {ts : List LocatedToken} {arguments : List Argument}
    {word script : String} {returns : ValueType}
    (h : Parenthesized (ArgumentPhrase enums) ts arguments)
    (hreturns : Means enums word (.value returns)) :
    FunctionPhrase enums .procedure none
      (ts ++ [⟨.symbol .arrow, p⟩, ⟨.word word, q⟩, ⟨.text script, r⟩])
      (.procedure arguments (some returns) script)

/-! ## Members -/

/-- The first token is a keyword of functions. -/
def StartsFunction (ts : List LocatedToken) : Prop :=
  ∃ name p us kind, ts = ⟨.word name, p⟩ :: us ∧ NamesFunction name kind

mutual

/-- A member. It is on the line of its name. -/
inductive MemberPhrase (enums : EnumTable) : List LocatedToken → Member → Prop
  | frame {p q r : Position} {name className : String} {ts : List LocatedToken}
    {members : List Member} (hclass : Means enums className (.class className))
    (h : BodyPhrase enums ts members) :
    MemberPhrase enums (⟨.word name, p⟩ :: ⟨.symbol .colon, q⟩ :: ⟨.word className, r⟩ :: ts)
      (.frame name p.line className members)
  | function {p q r : Position} {name word : String} {kind : FunctionKind}
    {ts : List LocatedToken} {f : Function} (hkind : Means enums word (.function kind))
    (h : FunctionPhrase enums kind none ts f) :
    MemberPhrase enums (⟨.word name, p⟩ :: ⟨.symbol .colon, q⟩ :: ⟨.word word, r⟩ :: ts)
      (.function name p.line f)
  | typedFunction {p q r s : Position} {name word keyword : String} {type : ValueType}
    {kind : FunctionKind} {ts : List LocatedToken} {f : Function}
    (htype : Means enums word (.value type)) (hkind : NamesFunction keyword kind)
    (h : FunctionPhrase enums kind (some type) ts f) :
    MemberPhrase enums
      (⟨.word name, p⟩ :: ⟨.symbol .colon, q⟩ :: ⟨.word word, r⟩ :: ⟨.word keyword, s⟩ :: ts)
      (.function name p.line f)
  | property {p q r : Position} {name word : String} {type : ValueType} {ts : List LocatedToken}
    {declared : PropertyType} {value : Literal} (htype : Means enums word (.value type))
    (hfirst : ¬StartsFunction ts) (h : PropertyPhrase enums type ts (declared, value)) :
    MemberPhrase enums (⟨.word name, p⟩ :: ⟨.symbol .colon, q⟩ :: ⟨.word word, r⟩ :: ts)
      (.property name p.line declared value)

/-- Members one after the other. A comma may follow each of them. -/
inductive MembersPhrase (enums : EnumTable) : List LocatedToken → List Member → Prop
  | nil : MembersPhrase enums [] []
  | cons {ts us : List LocatedToken} {m : Member} {ms : List Member} (h : MemberPhrase enums ts m)
    (hmore : MembersPhrase enums us ms) : MembersPhrase enums (ts ++ us) (m :: ms)
  | consComma {p : Position} {ts us : List LocatedToken} {m : Member} {ms : List Member}
    (h : MemberPhrase enums ts m) (hmore : MembersPhrase enums us ms) :
    MembersPhrase enums (ts ++ ⟨.symbol .comma, p⟩ :: us) (m :: ms)

/-- Members between braces. -/
inductive BodyPhrase (enums : EnumTable) : List LocatedToken → List Member → Prop
  | mk {p q : Position} {ts : List LocatedToken} {members : List Member}
    (h : MembersPhrase enums ts members) :
    BodyPhrase enums (⟨.symbol .openBrace, p⟩ :: ts ++ [⟨.symbol .closeBrace, q⟩]) members

end

/-- A root frame with nothing after it. -/
inductive RootPhrase (enums : EnumTable) : List LocatedToken → Frame → Prop
  | mk {p q r : Position} {name className : String} {ts : List LocatedToken} {members : List Member}
    (hclass : Means enums className (.class className)) (h : BodyPhrase enums ts members) :
    RootPhrase enums (⟨.word name, p⟩ :: ⟨.symbol .colon, q⟩ :: ⟨.word className, r⟩ :: ts)
      ⟨className, name, members⟩

end FrameGrammar

end ReactiveFrames
