import ReactiveFrames.Reading
import ReactiveFrames.Toml.Scalar

/-!
# Reading TOML documents

A document is read line by line. A line holds a header, or a key with its value, or nothing, and may
end in a comment; only a value can take more lines than one. Arrays and inline tables may be nested
seventy-nine deep, and keys have as many parts at most.

## Main definitions

* `value`: a value at the front of a text.
* `sections`: the headers and entries of a document.
* `parse`: the entries of a document.
-/

namespace ReactiveFrames.Toml

/-- Cause for which a text is no document. -/
inductive Fault where
  | key
  | value
  | string
  /-- A certain character is required. -/
  | expected (c : Char)
  | endOfLine
  /-- Too many brackets are open, or a key has too many parts. -/
  | nesting
  deriving DecidableEq, Repr

/-- Wording of a fault. -/
def Fault.message : Fault → String
  | key => "a key is required"
  | value => "a value is required"
  | string => "a string is not complete"
  | expected c => "the character " ++ c.toString ++ " is required"
  | endOfLine => "the line must end here"
  | nesting => "too many levels"

/-- Why a text is no document. -/
inductive Error where
  /-- A fault on a line, which is counted from zero. -/
  | fault (f : Fault) (line : Nat)
  | conflict (c : Conflict)
  deriving DecidableEq, Repr

/-- Wording of an error. Lines are shown from one. -/
def Error.message : Error → String
  | fault f line => f.message ++ " at line " ++ toString (line + 1)
  | conflict (.redefined key) => "the key " ++ key ++ " is defined already"
  | conflict (.notATable key) => "the key " ++ key ++ " is not that of a table"

/-- Reads a value off the front of a text. -/
abbrev Scan (α : Type) := Reader Char Fault α

/-- A fault and the text before which it was found. -/
abbrev TextStop := Stop Char Fault

/-- A reading of which fewer than `n` characters remain. -/
abbrev TextReading (n : Nat) (α : Type) := Reading Char n α

/-! ## Blanks -/

/-- A text without the blanks at its front. -/
def skipSpaces (text : List Char) : List Char := text.dropWhile isSpace

theorem skipSpaces_length (text : List Char) : (skipSpaces text).length ≤ text.length :=
  (List.dropWhile_sublist _).length_le

/-- A text without the blanks, line ends and comments at its front. A comment ends with its line. -/
def skipLines : List Char → List Char
  | [] => []
  | c :: rest =>
    if isSpace c ∨ c = '\n' then skipLines rest
    else if c = '#' ∧ (rest.dropWhile isPrintable).head? = some '\n' then
      skipLines (rest.dropWhile isPrintable)
    else c :: rest
  termination_by text => text.length
  decreasing_by
    all_goals simp only [List.length_cons]
    · omega
    · exact Nat.lt_succ_of_le (List.dropWhile_sublist _).length_le

theorem skipLines_length (text : List Char) : (skipLines text).length ≤ text.length := by
  fun_induction skipLines text with
  | case1 => simp
  | case2 c rest _ ih => exact Nat.le_succ_of_le ih
  | case3 c rest _ _ ih =>
    exact Nat.le_succ_of_le (Nat.le_trans ih (List.dropWhile_sublist _).length_le)
  | case4 => simp

theorem length_lt_of_eq_cons {c : Char} {text rest : List Char} {n : Nat} (h : text = c :: rest)
    (hle : text.length ≤ n) : rest.length < n := by
  rw [h, List.length_cons] at hle
  exact hle

/-- Reads a required character. -/
def char (c : Char) : Scan Unit
  | [] => .error ⟨.expected c, []⟩
  | d :: rest => if d = c then .ok ⟨(), rest, by simp⟩ else .error ⟨.expected c, d :: rest⟩

/-! ## Keys -/

/-- Parts that a key has at most. -/
def maxParts : Nat := 79

/-- A character can stand in a key without quotes. -/
def isBareChar (c : Char) : Bool :=
  ('a' ≤ c && c ≤ 'z') || ('A' ≤ c && c ≤ 'Z') || Decimal.isDigit c || c == '_' || c == '-'

/-- Reads one part of a key. -/
def keyPart : Scan String
  | [] => .error ⟨.key, []⟩
  | c :: rest =>
    if c = '"' ∨ c = '\'' then
      match h : lineString? c rest with
      | some (s, rest') => .ok ⟨s, rest', Nat.lt_succ_of_le (lineString?_length h)⟩
      | none => .error ⟨.string, c :: rest⟩
    else if isBareChar c then
      .ok ⟨String.ofList (c :: rest.takeWhile isBareChar), rest.dropWhile isBareChar,
        Nat.lt_succ_of_le (List.dropWhile_sublist _).length_le⟩
    else .error ⟨.key, c :: rest⟩

/-- Reads the parts of a key, with blanks around each. -/
def keyParts (text : List Char) : Except TextStop (TextReading text.length (List String)) := do
  let first ← keyPart (skipSpaces text)
  have hfirst := Nat.lt_of_lt_of_le first.length_lt (skipSpaces_length text)
  have hspaces := skipSpaces_length first.rest
  match hrest : skipSpaces first.rest with
  | '.' :: rest =>
    have hlt := length_lt_of_eq_cons hrest (Nat.le_trans hspaces (Nat.le_of_lt hfirst))
    let others ← keyParts rest
    pure ⟨first.value :: others.value, others.rest, Nat.lt_trans others.length_lt hlt⟩
  | rest =>
    have hle : rest.length ≤ first.rest.length := hrest ▸ hspaces
    pure ⟨[first.value], rest, Nat.lt_of_le_of_lt hle hfirst⟩
  termination_by text.length

/-- Reads a key. -/
def key (text : List Char) : Except TextStop (TextReading text.length (List String)) := do
  let parts ← keyParts text
  if maxParts < parts.value.length then throw ⟨.nesting, text⟩ else pure parts

/-! ## Values -/

/-- Reads the items of an array after its opening bracket, each with the given reader. -/
def arrayItems (item : Scan Item) (text : List Char) :
    Except TextStop (TextReading text.length (List Item)) :=
  have hlines := skipLines_length text
  match htext : skipLines text with
  | ']' :: rest => .ok ⟨[], rest, length_lt_of_eq_cons htext hlines⟩
  | start => do
    let first ← item start
    have hfirst : first.rest.length < text.length :=
      Nat.lt_of_lt_of_le first.length_lt (htext ▸ hlines)
    have hrest := skipLines_length first.rest
    match hnext : skipLines first.rest with
    | ',' :: rest =>
      have hlt := length_lt_of_eq_cons hnext (Nat.le_trans hrest (Nat.le_of_lt hfirst))
      let others ← arrayItems item rest
      pure ⟨first.value :: others.value, others.rest, Nat.lt_trans others.length_lt hlt⟩
    | ']' :: rest =>
      have hlt := length_lt_of_eq_cons hnext (Nat.le_trans hrest (Nat.le_of_lt hfirst))
      pure ⟨[first.value], rest, hlt⟩
    | rest => throw ⟨.expected ']', rest⟩
  termination_by text.length

/-- Reads a key and its value. -/
def entry (item : Scan Item) (text : List Char) :
    Except TextStop (TextReading text.length (List String × Item)) := do
  let path ← key text
  let equals ← char '=' path.rest
  let v ← item (skipSpaces equals.rest)
  have h := Nat.lt_of_lt_of_le v.length_lt (skipSpaces_length equals.rest)
  pure ⟨(path.value, v.value), v.rest,
    Nat.lt_trans h (Nat.lt_trans equals.length_lt path.length_lt)⟩

/-- Reads entries with commas between them, and the brace after them. -/
def tableEntries (item : Scan Item) (text : List Char) :
    Except TextStop (TextReading text.length (List (List String × Item))) := do
  let first ← entry item text
  have hfirst := first.length_lt
  have hspaces := skipSpaces_length first.rest
  match hrest : skipSpaces first.rest with
  | ',' :: rest =>
    have hlt := length_lt_of_eq_cons hrest (Nat.le_trans hspaces (Nat.le_of_lt hfirst))
    let others ← tableEntries item rest
    pure ⟨first.value :: others.value, others.rest, Nat.lt_trans others.length_lt hlt⟩
  | '\x7d' :: rest =>
    have hlt := length_lt_of_eq_cons hrest (Nat.le_trans hspaces (Nat.le_of_lt hfirst))
    pure ⟨[first.value], rest, hlt⟩
  | rest => throw ⟨.expected '\x7d', rest⟩
  termination_by text.length

/-- Reads an inline table after its opening brace. -/
def inlineTable (item : Scan Item) (text : List Char) :
    Except TextStop (TextReading (text.length + 1) Item) :=
  have hspaces := skipSpaces_length text
  match htext : skipSpaces text with
  | '\x7d' :: rest =>
    .ok ⟨.table .inline [], rest, Nat.lt_succ_of_lt (length_lt_of_eq_cons htext hspaces)⟩
  | _ => do
    let items ← tableEntries item text
    match Entries.addAll items.value [] with
    | .ok entries =>
      pure ⟨.table .inline entries, items.rest, Nat.lt_succ_of_lt items.length_lt⟩
    | .error _ => throw ⟨.key, text⟩

/-- Reads a value without brackets. -/
def simpleValue : Scan Item
  | [] => .error ⟨.value, []⟩
  | c :: rest =>
    if c = '"' ∨ c = '\'' then
      match h : string? c rest with
      | some (s, rest') => .ok ⟨.string s, rest', Nat.lt_succ_of_le (string?_length h)⟩
      | none => .error ⟨.string, c :: rest⟩
    else
      let run := spanRun (c :: rest)
      match scalarOfRun? run with
      | some item =>
        .ok ⟨item, rest.drop (run.length - 1), by rw [List.length_drop, List.length_cons]; omega⟩
      | none => .error ⟨.value, c :: rest⟩

/-- Brackets that may be open at once. -/
def maxNesting : Nat := 79

/-- Reads a value in which at most the given number of brackets are open at once. -/
def valueWithin : Nat → Scan Item
  | _, [] => .error ⟨.value, []⟩
  | depth, c :: rest =>
    if c = '[' ∨ c = '\x7b' then
      match depth with
      | 0 => .error ⟨.nesting, c :: rest⟩
      | depth + 1 =>
        if c = '[' then do
          let items ← arrayItems (valueWithin depth) rest
          pure ⟨.array items.value, items.rest, Nat.lt_succ_of_lt items.length_lt⟩
        else inlineTable (valueWithin depth) rest
    else simpleValue (c :: rest)

/-- Reads a value. -/
def value : Scan Item := valueWithin maxNesting

/-! ## Lines -/

/-- Reads the blanks and the comment at the end of a line. -/
def endOfLine (text : List Char) : Except TextStop (List Char) :=
  let rest := match skipSpaces text with
    | '#' :: rest => rest.dropWhile isPrintable
    | rest => rest
  match rest with
  | [] => .ok []
  | c :: rest' => if c = '\n' then .ok rest' else .error ⟨.endOfLine, c :: rest'⟩

/-- A line ends where the text does, or with a line feed, which is passed over. -/
theorem eq_nil_or_length_lt_of_endOfLine {text rest : List Char} (h : endOfLine text = .ok rest) :
    rest = [] ∨ rest.length < text.length := by
  have hcomment (t : List Char) : (t.dropWhile isPrintable).length ≤ t.length :=
    (List.dropWhile_sublist _).length_le
  have hspaces := skipSpaces_length text
  unfold endOfLine at h
  dsimp only at h
  split at h
  · cases h
    exact .inl rfl
  · rename_i c rest' heq
    refine .inr ?_
    split at h
    · cases h
      split at heq
      · rename_i t ht
        have := hcomment t
        rw [heq, List.length_cons] at this
        rw [ht, List.length_cons] at hspaces
        omega
      · rw [heq, List.length_cons] at hspaces
        omega
    · cases h

theorem endOfLine_length {text rest : List Char} (h : endOfLine text = .ok rest) :
    rest.length ≤ text.length := by
  obtain rfl | hlt := eq_nil_or_length_lt_of_endOfLine h
  · exact Nat.zero_le _
  · exact Nat.le_of_lt hlt

theorem endOfLine_cons_length {c : Char} {text rest : List Char}
    (h : endOfLine (c :: text) = .ok rest) : rest.length < (c :: text).length := by
  obtain rfl | hlt := eq_nil_or_length_lt_of_endOfLine h
  · exact Nat.zero_lt_succ _
  · exact hlt

/-- Reads a header after its first bracket. -/
def header (text : List Char) : Except TextStop (TextReading text.length Header) :=
  match text with
  | '[' :: rest => do
    let path ← key rest
    let first ← char ']' path.rest
    let second ← char ']' first.rest
    pure ⟨.element path.value, second.rest, Nat.lt_succ_of_lt <|
      Nat.lt_trans second.length_lt (Nat.lt_trans first.length_lt path.length_lt)⟩
  | text => do
    let path ← key text
    let close ← char ']' path.rest
    pure ⟨.table path.value, close.rest, Nat.lt_trans close.length_lt path.length_lt⟩

/-- What a line holds. -/
inductive Line where
  | header (h : Header)
  | entry (path : List String) (item : Item)
  | blank

/-- Reads a line, of which the first character is given. -/
def line (c : Char) (rest : List Char) :
    Except TextStop (Line × { rest' : List Char // rest'.length < (c :: rest).length }) := do
  match hstart : skipSpaces (c :: rest) with
  | '[' :: inner =>
    have hspaces := skipSpaces_length (c :: rest)
    let h ← header inner
    match hend : endOfLine h.rest with
    | .error e => throw e
    | .ok rest' =>
      pure (.header h.value, ⟨rest', by
        have h₁ := endOfLine_length hend
        have h₂ := h.length_lt
        rw [hstart, List.length_cons] at hspaces
        omega⟩)
  | start =>
    if start.isEmpty ∨ start.head? = some '#' ∨ start.head? = some '\n' then
      match hend : endOfLine (c :: rest) with
      | .error e => throw e
      | .ok rest' => pure (.blank, ⟨rest', endOfLine_cons_length hend⟩)
    else
      let e ← entry value (c :: rest)
      match hend : endOfLine e.rest with
      | .error e => throw e
      | .ok rest' =>
        pure (.entry e.value.1 e.value.2,
          ⟨rest', Nat.lt_of_le_of_lt (endOfLine_length hend) e.length_lt⟩)

/-- Adds what a line holds to the sections before it, of which the last one comes first. -/
def addLine (sections : List Section) : Line → List Section
  | .header h => ⟨h, []⟩ :: sections
  | .entry path item =>
    match sections with
    | s :: rest => { s with items := s.items ++ [(path, item)] } :: rest
    | [] => [⟨.document, [(path, item)]⟩]
  | .blank => sections

/-- Reads the lines of a text, and adds them to sections, of which the last one comes first. -/
def readSections (before : List Section) : List Char → Except TextStop (List Section)
  | [] => .ok before
  | c :: text => do
    let (l, ⟨rest, _h⟩) ← line c text
    readSections (addLine before l) rest
  termination_by text => text.length
  decreasing_by exact _h

/-- A text without the carriage returns before line feeds. -/
def withoutReturns : List Char → List Char
  | '\r' :: '\n' :: rest => '\n' :: withoutReturns rest
  | c :: rest => c :: withoutReturns rest
  | [] => []

/-- Characters of a document, without a mark of the byte order. -/
def documentText (source : String) : List Char :=
  let text := withoutReturns source.toList
  if text.head? = some '\ufeff' then text.tail else text

/-- Headers and entries of a document, in order. -/
def sections (source : String) : Except Error (List Section) :=
  let text := documentText source
  match readSections [] text with
  | .ok reversed => .ok reversed.reverse
  | .error stop => .error (.fault stop.fault (text.count '\n' - stop.rest.count '\n'))

/-- Entries of a document. -/
def parse (source : String) : Except Error Entries := do
  (Entries.ofSections (← sections source)).mapError Error.conflict

end ReactiveFrames.Toml
