import ReactiveFrames.Enumeration
import ReactiveFrames.Frame.Lexer
import ReactiveFrames.Reading

/-!
# Frames of a source

Recursive descent over a list of tokens. A reader that fails says at which tokens it stopped, and
only `Frame.ofTokens` turns that into a line and a token text.

A word in the position of a type is a built-in type if it can be one, otherwise an enum type of the
given table, otherwise the keyword of a function kind, and otherwise a class.
-/

namespace ReactiveFrames

/-- A reading of frame source of which fewer than `n` tokens remain. -/
abbrev FrameReading (n : Nat) (α : Type) := Reading LocatedToken n α

/-- A fault of frame source and the tokens before which it was found. -/
abbrev FrameStop := Stop LocatedToken FrameFault

/-- Reads a value off the tokens of frame source. -/
abbrev FrameReader (α : Type) := Reader LocatedToken FrameFault α

/-- Meaning of a word in the position of a type. -/
inductive TypeWord where
  | value (type : ValueType)
  | function (kind : FunctionKind)
  | class (name : String)
  deriving DecidableEq, Repr

/-- Classifies a word. -/
def TypeWord.ofName (enums : EnumTable) (name : String) : TypeWord :=
  match name with
  | "Bool" => .value (.scalar .bool)
  | "Int" => .value (.scalar .int)
  | "Float" => .value (.scalar .float)
  | "String" => .value (.scalar .string)
  | "URL" => .value (.scalar .url)
  | "Array" => .value .array
  | "Dictionary" => .value .dictionary
  | name =>
    if (enums.type? name).isSome then .value (.scalar (.enum name))
    else match FunctionKind.ofKeyword? name with
      | some kind => .function kind
      | none => .class name

namespace FrameParser

variable {α : Type}

/-! ## Single tokens -/

/-- The first token is the symbol. -/
def atSymbol (s : FrameSymbol) : List LocatedToken → Bool
  | ⟨.symbol t, _⟩ :: _ => t == s
  | _ => false

/-- Reads a symbol, or fails with a given fault. -/
def symbolOr (fault : FrameFault) (s : FrameSymbol) (ts : List LocatedToken) :
    Except FrameStop (FrameReading ts.length Unit) :=
  match ts with
  | ⟨.symbol t, p⟩ :: rest =>
    if t = s then .ok ⟨(), rest, by simp⟩ else .error ⟨fault, ⟨.symbol t, p⟩ :: rest⟩
  | ts => .error ⟨fault, ts⟩

/-- Reads a required symbol. -/
def symbol (s : FrameSymbol) (ts : List LocatedToken) :
    Except FrameStop (FrameReading ts.length Unit) :=
  symbolOr (.symbol s) s ts

/-- Reads a symbol if it is there, and tells whether it was. -/
def symbol? (s : FrameSymbol) (ts : List LocatedToken) : FrameReading (ts.length + 1) Bool :=
  match ts with
  | ⟨.symbol t, p⟩ :: rest =>
    if t = s then ⟨true, rest, by simp only [List.length_cons]; omega⟩
    else ⟨false, ⟨.symbol t, p⟩ :: rest, by simp⟩
  | ts => ⟨false, ts, by simp⟩

/-- Reads a required identifier. -/
def word (part : FramePart) (ts : List LocatedToken) :
    Except FrameStop (FrameReading ts.length String) :=
  match ts with
  | ⟨.word name, _⟩ :: rest => .ok ⟨name, rest, by simp⟩
  | ts => .error ⟨.part part, ts⟩

/-- Reads the required body of a function. -/
def body (kind : FunctionKind) (ts : List LocatedToken) :
    Except FrameStop (FrameReading ts.length String) :=
  match ts with
  | ⟨.text s, _⟩ :: rest => .ok ⟨s, rest, by simp⟩
  | ts => .error ⟨.part (.body kind), ts⟩

/-- Reads a class name. -/
def className (enums : EnumTable) (ts : List LocatedToken) :
    Except FrameStop (FrameReading ts.length String) := do
  let ⟨name, rest, h⟩ ← word .className ts
  match TypeWord.ofName enums name with
  | .class name => pure ⟨name, rest, h⟩
  | _ => throw ⟨.notAClass name, ts⟩

/-- Reads the name of a value type. -/
def valueType (enums : EnumTable) (part : FramePart) (ts : List LocatedToken) :
    Except FrameStop (FrameReading ts.length ValueType) := do
  let ⟨name, rest, h⟩ ← word part ts
  match TypeWord.ofName enums name with
  | .value type => pure ⟨type, rest, h⟩
  | _ => throw ⟨.notAValueType part name, ts⟩

/-! ## Literals -/

/-- Scalar that a token stands for where a scalar of the given type is expected, or any scalar. -/
def scalarOf (enums : EnumTable) (expected : Option ScalarType) (token : FrameToken) :
    Except FrameFault Scalar :=
  match expected, token with
  | none, .bool b => .ok (.bool b)
  | some .bool, .bool b => .ok (.bool b)
  | none, .int i => .ok (.int i)
  | some .int, .int i => .ok (.int i)
  | some .float, .int i => .ok (.float (Float.ofInt i))
  | none, .float x => .ok (.float x)
  | some .float, .float x => .ok (.float x)
  | none, .string s => .ok (.string s)
  | some .string, .string s => .ok (.string s)
  | some .string, .text s => .ok (.string s)
  | some .url, .string s => .ok (.url s)
  | some (.enum type), .word member =>
    match (enums.type? type).bind (·.valueOf? member) with
    | some value => .ok (.enum type member value)
    | none => .error (.enumMember type)
  | none, .word name => .error (.identifier name)
  | some type, _ => .error (.literal type)
  | none, _ => .error .token

/-- Reads a scalar. -/
def scalar (enums : EnumTable) (expected : Option ScalarType) (ts : List LocatedToken) :
    Except FrameStop (FrameReading ts.length Scalar) :=
  match ts with
  | [] => .error ⟨.endOfInput, []⟩
  | t :: rest =>
    match scalarOf enums expected t.token with
    | .ok s => .ok ⟨s, rest, by simp⟩
    | .error fault => .error ⟨fault, t :: rest⟩

/-- Reads the key of a dictionary entry. Keys do not repeat. -/
def key (entries : List (String × Literal)) (ts : List LocatedToken) :
    Except FrameStop (FrameReading ts.length String) :=
  match ts with
  | ⟨.word name, p⟩ :: rest =>
    if entries.any (fun e ↦ e.1 == name) then .error ⟨.repeatedKey name, ⟨.word name, p⟩ :: rest⟩
    else .ok ⟨name, rest, by simp⟩
  | ts => .error ⟨.dictionaryKey, ts⟩

mutual

/-- Reads a literal whose leaves have the given type, if one is given. -/
def literal (enums : EnumTable) (leaf : Option ScalarType) (ts : List LocatedToken) :
    Except FrameStop (FrameReading ts.length Literal) :=
  match ts with
  | ⟨.symbol .openBracket, _⟩ :: rest => do
    let ⟨items, rest', h⟩ ← items enums leaf rest
    pure ⟨.array items, rest', by simp only [List.length_cons]; omega⟩
  | ⟨.symbol .openBrace, _⟩ :: rest => do
    let ⟨entries, rest', h⟩ ← entries enums leaf rest
    pure ⟨.dictionary entries, rest', by simp only [List.length_cons]; omega⟩
  | ts => do
    let ⟨s, rest, h⟩ ← scalar enums leaf ts
    pure ⟨.scalar s, rest, h⟩
  termination_by 4 * ts.length + 1

/-- Reads the items of an array after its opening bracket. -/
def items (enums : EnumTable) (leaf : Option ScalarType) (ts : List LocatedToken) :
    Except FrameStop (FrameReading ts.length (List Literal)) :=
  match ts with
  | ⟨.symbol .closeBracket, _⟩ :: rest => .ok ⟨[], rest, by simp⟩
  | ts => do
    let ⟨item, rest, h⟩ ← literal enums leaf ts
    let ⟨more, rest', h'⟩ ← moreItems enums leaf rest
    pure ⟨item :: more, rest', by omega⟩
  termination_by 4 * ts.length + 2

/-- Reads the items of an array after another item. -/
def moreItems (enums : EnumTable) (leaf : Option ScalarType) (ts : List LocatedToken) :
    Except FrameStop (FrameReading ts.length (List Literal)) :=
  match ts with
  | ⟨.symbol .closeBracket, _⟩ :: rest => .ok ⟨[], rest, by simp⟩
  | ts => do
    let ⟨_, rest, h⟩ ← symbolOr .arrayComma .comma ts
    let ⟨item, rest', h'⟩ ← literal enums leaf rest
    let ⟨more, rest'', h''⟩ ← moreItems enums leaf rest'
    pure ⟨item :: more, rest'', by omega⟩
  termination_by 4 * ts.length + 1

/-- Reads the entries of a dictionary after its opening brace. -/
def entries (enums : EnumTable) (leaf : Option ScalarType) (ts : List LocatedToken) :
    Except FrameStop (FrameReading ts.length (List (String × Literal))) :=
  match ts with
  | ⟨.symbol .closeBrace, _⟩ :: rest => .ok ⟨[], rest, by simp⟩
  | ts => entry enums leaf [] ts
  termination_by 4 * ts.length + 3

/-- Reads an entry of a dictionary and those after it. -/
def entry (enums : EnumTable) (leaf : Option ScalarType) (before : List (String × Literal))
    (ts : List LocatedToken) :
    Except FrameStop (FrameReading ts.length (List (String × Literal))) := do
  let ⟨name, rest, h⟩ ← key before ts
  let ⟨_, rest', h'⟩ ← symbolOr .dictionaryColon .colon rest
  let ⟨value, rest'', h''⟩ ← literal enums leaf rest'
  let ⟨all, rest''', h'''⟩ ← moreEntries enums leaf (Table.insertEntry name value before) rest''
  pure ⟨all, rest''', by omega⟩
  termination_by 4 * ts.length + 2

/-- Reads the entries of a dictionary after other entries. -/
def moreEntries (enums : EnumTable) (leaf : Option ScalarType) (before : List (String × Literal))
    (ts : List LocatedToken) :
    Except FrameStop (FrameReading ts.length (List (String × Literal))) :=
  match ts with
  | ⟨.symbol .closeBrace, _⟩ :: rest => .ok ⟨before, rest, by simp⟩
  | ts => do
    let ⟨_, rest, h⟩ ← symbolOr .dictionaryComma .comma ts
    let ⟨all, rest', h'⟩ ← entry enums leaf before rest
    pure ⟨all, rest', by omega⟩
  termination_by 4 * ts.length + 3

end

/-- Reads the literal of a property after the type that introduces it. A collection of a leaf type
is introduced by that type. -/
def property (enums : EnumTable) (type : ValueType) (ts : List LocatedToken) :
    Except FrameStop (FrameReading ts.length (PropertyType × Literal)) :=
  match type with
  | .array => do
    let ⟨_, rest, h⟩ ← symbol .openBracket ts
    let ⟨items, rest', h'⟩ ← items enums none rest
    pure ⟨(.array none, .array items), rest', by omega⟩
  | .dictionary => do
    let ⟨_, rest, h⟩ ← symbol .openBrace ts
    let ⟨entries, rest', h'⟩ ← entries enums none rest
    pure ⟨(.dictionary none, .dictionary entries), rest', by omega⟩
  | .scalar leaf => do
    let ⟨value, rest, h⟩ ← literal enums (some leaf) ts
    let type := match value with
      | .scalar _ => .scalar leaf
      | .array _ => .array (some leaf)
      | .dictionary _ => .dictionary (some leaf)
    pure ⟨(type, value), rest, h⟩

/-! ## Functions -/

/-- Reads items separated by commas up to a closing parenthesis, after another item. -/
def moreOf (item : FrameReader α) (ts : List LocatedToken) :
    Except FrameStop (FrameReading ts.length (List α)) :=
  match ts with
  | ⟨.symbol .closeParen, _⟩ :: rest => .ok ⟨[], rest, by simp⟩
  | ts => do
    let ⟨_, rest, h⟩ ← symbol .comma ts
    let ⟨a, rest', h'⟩ ← item rest
    let ⟨more, rest'', h''⟩ ← moreOf item rest'
    pure ⟨a :: more, rest'', by omega⟩
  termination_by ts.length

/-- Reads items separated by commas after an opening parenthesis. -/
def itemsOf (item : FrameReader α) (ts : List LocatedToken) :
    Except FrameStop (FrameReading ts.length (List α)) :=
  match ts with
  | ⟨.symbol .closeParen, _⟩ :: rest => .ok ⟨[], rest, by simp⟩
  | ts => do
    let ⟨a, rest, h⟩ ← item ts
    let ⟨more, rest', h'⟩ ← moreOf item rest
    pure ⟨a :: more, rest', by omega⟩

/-- Reads items separated by commas between parentheses. -/
def parenthesized (item : FrameReader α) (ts : List LocatedToken) :
    Except FrameStop (FrameReading ts.length (List α)) := do
  let ⟨_, rest, h⟩ ← symbol .openParen ts
  let ⟨items, rest', h'⟩ ← itemsOf item rest
  pure ⟨items, rest', by omega⟩

/-- Reads an argument. -/
def argument (enums : EnumTable) (ts : List LocatedToken) :
    Except FrameStop (FrameReading ts.length Argument) := do
  let ⟨name, rest, h⟩ ← word .argumentName ts
  let ⟨annotated, rest', h'⟩ := symbol? .colon rest
  if annotated then
    let ⟨type, rest'', h''⟩ ← valueType enums .argumentType rest'
    pure ⟨⟨name, some type⟩, rest'', by omega⟩
  else pure ⟨⟨name, none⟩, rest', by omega⟩

/-- Reads the segments of a path after another segment. -/
def moreSegments (ts : List LocatedToken) :
    Except FrameStop (FrameReading (ts.length + 1) (List String)) :=
  match ts with
  | ⟨.symbol .dot, _⟩ :: rest => do
    let ⟨segment, rest', h⟩ ← word .pathElement rest
    let ⟨more, rest'', h'⟩ ← moreSegments rest'
    pure ⟨segment :: more, rest'', by simp only [List.length_cons]; omega⟩
  | ts => .ok ⟨[], ts, by simp⟩
  termination_by ts.length
  decreasing_by simp; omega

/-- Reads a path of at least two segments. -/
def path (ts : List LocatedToken) : Except FrameStop (FrameReading ts.length (List String)) := do
  let ⟨first, rest, h⟩ ← word .path ts
  let ⟨more, rest', h'⟩ ← moreSegments rest
  if more.isEmpty then throw ⟨.shortPath (first :: more), rest'⟩
  else pure ⟨first :: more, rest', by omega⟩

/-- Reads an argument of a listener. -/
def pathArgument (ts : List LocatedToken) :
    Except FrameStop (FrameReading ts.length PathArgument) := do
  let ⟨name, rest, h⟩ ← word .listenerArgumentName ts
  let ⟨_, rest', h'⟩ ← symbol .colon rest
  let ⟨path, rest'', h''⟩ ← path rest'
  pure ⟨⟨name, path⟩, rest'', by omega⟩

/-- Reads the type of a result after the arguments, unless it stands before the keyword. -/
def returnType (enums : EnumTable) (before : Option ValueType) (ts : List LocatedToken) :
    Except FrameStop (FrameReading (ts.length + 1) (Option ValueType)) := do
  let ⟨arrow, rest, h⟩ := symbol? .arrow ts
  if arrow then
    if before.isSome then throw ⟨.returnTypeTwice, rest⟩
    else
      let ⟨type, rest', h'⟩ ← valueType enums .returnType rest
      pure ⟨some type, rest', by omega⟩
  else pure ⟨before, rest, h⟩

/-- Fails if a type of a result stands before or after the keyword of an init or event function. -/
def noReturnType (before : Option ValueType) (ts : List LocatedToken) : Except FrameStop Unit :=
  if before.isSome || atSymbol .arrow ts then throw ⟨.returnType, ts⟩ else pure ()

/-- Reads the arguments of an init function, which may lack their parentheses. -/
def initArguments (enums : EnumTable) (ts : List LocatedToken) :
    Except FrameStop (FrameReading (ts.length + 1) (List Argument)) :=
  if atSymbol .openParen ts then do
    let ⟨arguments, rest, h⟩ ← parenthesized (argument enums) ts
    pure ⟨arguments, rest, by omega⟩
  else .ok ⟨[], ts, by simp⟩

/-- Reads a function after its keyword. `before` is the type that stands before the keyword. -/
def function (enums : EnumTable) (kind : FunctionKind) (before : Option ValueType)
    (ts : List LocatedToken) : Except FrameStop (FrameReading ts.length Function) :=
  match kind with
  | .init => do
    noReturnType before ts
    let ⟨arguments, rest, h⟩ ← initArguments enums ts
    match arguments.filter (·.name ≠ "self") with
    | _ :: _ :: _ => throw ⟨.initArguments, rest⟩
    | arguments =>
      noReturnType none rest
      let ⟨script, rest', h'⟩ ← body .init rest
      pure ⟨.init arguments.head? script, rest', by omega⟩
  | .event => do
    noReturnType before ts
    let ⟨arguments, rest, h⟩ ← parenthesized (argument enums) ts
    noReturnType none rest
    let ⟨script, rest', h'⟩ ← body .event rest
    pure ⟨.event arguments script, rest', by omega⟩
  | .listener => do
    let ⟨arguments, rest, h⟩ ← parenthesized pathArgument ts
    let ⟨returns, rest', h'⟩ ← returnType enums before rest
    match returns with
    | none => throw ⟨.part .listenerReturnType, rest'⟩
    | some returns =>
      let ⟨script, rest'', h''⟩ ← body .listener rest'
      pure ⟨.listener arguments returns script, rest'', by omega⟩
  | .procedure => do
    let ⟨arguments, rest, h⟩ ← parenthesized (argument enums) ts
    let ⟨returns, rest', h'⟩ ← returnType enums before rest
    let ⟨script, rest'', h''⟩ ← body .procedure rest'
    pure ⟨.procedure arguments returns script, rest'', by omega⟩

/-! ## Members -/

/-- Kind of the function whose keyword is the first token. -/
def functionKeyword? : List LocatedToken → Option FunctionKind
  | ⟨.word name, _⟩ :: _ => FunctionKind.ofKeyword? name
  | _ => none

/-- Reads a member that starts with a value type: a function of that return type, or a property. -/
def typedMember (enums : EnumTable) (name : String) (line : Nat) (type : ValueType)
    (ts : List LocatedToken) : Except FrameStop (FrameReading ts.length Member) :=
  match functionKeyword? ts, ts with
  | some kind, _ :: rest => do
    let ⟨f, rest', h⟩ ← function enums kind (some type) rest
    pure ⟨.function name line f, rest', by simp only [List.length_cons]; omega⟩
  | _, ts => do
    let ⟨(type, value), rest, h⟩ ← property enums type ts
    pure ⟨.property name line type value, rest, h⟩

/-- Line of the first token. -/
def lineOf : List LocatedToken → Nat
  | t :: _ => t.position.line
  | [] => 0

mutual

/-- Reads a member. -/
def member (enums : EnumTable) (ts : List LocatedToken) :
    Except FrameStop (FrameReading ts.length Member) := do
  let ⟨name, rest, h⟩ ← word .identifier ts
  let ⟨_, rest', h'⟩ ← symbol .colon rest
  let ⟨type, rest'', h''⟩ ← word .type rest'
  match TypeWord.ofName enums type with
  | .function kind =>
    let ⟨f, rest''', h'''⟩ ← function enums kind none rest''
    pure ⟨.function name (lineOf ts) f, rest''', by omega⟩
  | .class className =>
    let ⟨_, rest₄, h₄⟩ ← symbol .openBrace rest''
    let ⟨members, rest₅, h₅⟩ ← members enums rest₄
    pure ⟨.frame name (lineOf ts) className members, rest₅, by omega⟩
  | .value type =>
    let ⟨m, rest''', h'''⟩ ← typedMember enums name (lineOf ts) type rest''
    pure ⟨m, rest''', by omega⟩
  termination_by 2 * ts.length

/-- Reads the members of a frame up to its closing brace. A comma may follow a member. -/
def members (enums : EnumTable) (ts : List LocatedToken) :
    Except FrameStop (FrameReading ts.length (List Member)) :=
  match ts with
  | [] => .error ⟨.symbol .closeBrace, []⟩
  | ⟨.symbol .closeBrace, _⟩ :: rest => .ok ⟨[], rest, by simp⟩
  | ts => do
    let ⟨m, rest, h⟩ ← member enums ts
    let ⟨_, rest', h'⟩ := symbol? .comma rest
    let ⟨more, rest'', h''⟩ ← members enums rest'
    pure ⟨m :: more, rest'', by omega⟩
  termination_by 2 * ts.length + 1

end

/-- Reads a root frame and nothing after it. -/
def root (enums : EnumTable) (ts : List LocatedToken) : Except FrameStop Frame := do
  let ⟨name, rest, _⟩ ← word .identifier ts
  let ⟨_, rest', _⟩ ← symbol .colon rest
  let ⟨className, rest'', _⟩ ← className enums rest'
  let ⟨_, rest''', _⟩ ← symbol .openBrace rest''
  let ⟨members, rest₄, _⟩ ← members enums rest'''
  if rest₄.isEmpty then pure ⟨className, name, members⟩ else throw ⟨.afterRoot, rest₄⟩

end FrameParser

/-- The error of a stop: the line and the text of the token before which it happened. -/
def ParseError.ofStop (finish : Position) : FrameStop → ParseError
  | ⟨fault, t :: _⟩ => ⟨fault, t.position.line, some t.token.display⟩
  | ⟨fault, []⟩ => ⟨fault, finish.line, none⟩

/-- Root frame of a list of tokens. -/
def Frame.ofTokens (enums : EnumTable) (tokens : FrameTokens) : Except ParseError Frame :=
  (FrameParser.root enums tokens.tokens).mapError (ParseError.ofStop tokens.finish)

/-- Root frame of a source. -/
def Frame.parse (enums : EnumTable) (source : String) : Except ParseError Frame := do
  Frame.ofTokens enums (← FrameTokens.ofSource source)

/-- Root frame of the characters of a source. -/
theorem Frame.parse_eq (enums : EnumTable) (source : String) :
    Frame.parse enums source = (FrameTokens.scan {} source.toList >>= fun scanned ↦
      Frame.ofTokens enums { scanned with tokens := FrameTokens.joinStrings scanned.tokens }) := by
  rw [Frame.parse, FrameTokens.ofSource, bind_assoc]
  rfl

end ReactiveFrames
