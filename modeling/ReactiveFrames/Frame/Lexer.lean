import ReactiveFrames.Decimal.Reading
import ReactiveFrames.Frame.Error
import ReactiveFrames.Text.Alphabetic
import ReactiveFrames.Text.Blank
import ReactiveFrames.Text.Numeric
import ReactiveFrames.Text.Span

/-!
# Tokens of a source

A source is cut into lexemes: blanks, comments and tokens, each with the characters it is made of.
The characters of all lexemes in their order are the source, so the position of a token is the
position reached by the characters before it. Afterwards adjacent string literals become one token.

## Main statements

* `FrameLexeme.text_append_rest`: a lexeme and what follows it are the source it was read from.
* `FrameLexeme.text_ne_nil`: a lexeme is not empty.
-/

namespace ReactiveFrames

open Decimal (isDigit)
open Text (isBlank isAlphabetic isNumeric spanTo)

/-- A piece of a source. Blanks and comments are no token. -/
structure FrameLexeme where
  token : Option FrameToken
  text : List Char
  rest : List Char

namespace FrameLexeme

/-! ## Spans -/

/-- Characters of a string literal after its opening quote, without the closing one, and what
follows it. A line feed ends the literal too early unless it is escaped. -/
def spanString : List Char → Option (List Char × List Char)
  | [] => none
  | '\n' :: _ => none
  | '"' :: rest => some ([], rest)
  | '\\' :: c :: rest => (spanString rest).map fun s ↦ ('\\' :: c :: s.1, s.2)
  | c :: rest => (spanString rest).map fun s ↦ (c :: s.1, s.2)

/-- Value of the characters of a string literal. A backslash before any other character than `n`,
`t`, a quote and a backslash stands for itself. -/
def unescape : List Char → List Char
  | '\\' :: 'n' :: rest => '\n' :: unescape rest
  | '\\' :: 't' :: rest => '\t' :: unescape rest
  | '\\' :: '"' :: rest => '"' :: unescape rest
  | '\\' :: '\\' :: rest => '\\' :: unescape rest
  | c :: rest => c :: unescape rest
  | [] => []

/-- Starts with a digit. -/
def startsWithDigit : List Char → Bool
  | c :: _ => isDigit c
  | [] => false

/-- Starts with the digits of an exponent, which may have a sign. -/
def startsExponent : List Char → Bool
  | '+' :: rest => startsWithDigit rest
  | '-' :: rest => startsWithDigit rest
  | text => startsWithDigit text

/-- How much of a number has been read. -/
inductive NumberPart where
  /-- Digits before a point or an exponent. -/
  | whole
  /-- Digits after a point or in an exponent. -/
  | fraction
  /-- The mark of an exponent. -/
  | mark
  deriving DecidableEq, Repr

/-- Characters that continue a number, and what follows them. -/
def spanNumber : NumberPart → List Char → List Char × List Char
  | _, [] => ([], [])
  | part, c :: rest =>
    let after? : Option NumberPart :=
      if part = .mark ∧ (c = '+' ∨ c = '-') then some .fraction
      else if isDigit c then some (if part = .whole then .whole else .fraction)
      else if c = '.' ∧ part = .whole ∧ startsWithDigit rest then some .fraction
      else if (c = 'e' ∨ c = 'E') ∧ startsExponent rest then some .mark
      else none
    match after? with
    | some after => let s := spanNumber after rest; (c :: s.1, s.2)
    | none => ([], c :: rest)

/-- Token of the characters of a number: an integer, unless a point or an exponent makes it a
float. -/
def number? (text : List Char) : Option FrameToken :=
  if text.any (fun c ↦ c == '.' || c == 'e' || c == 'E') then
    (Decimal.float? text).map FrameToken.float
  else (Decimal.integer? text).map FrameToken.int

/-- An identifier may start with the character. -/
def startsWord (c : Char) : Bool := isAlphabetic c || c == '_'

/-- An identifier may continue with the character. -/
def continuesWord (c : Char) : Bool := isAlphabetic c || isNumeric c || c == '_'

/-- Token of the characters of an identifier. -/
def word (text : List Char) : FrameToken :=
  match String.ofList text with
  | "true" => .bool true
  | "false" => .bool false
  | name => .word name

/-- Symbol at the front of a text, with the number of characters after its first one. -/
def symbol? : Char → List Char → Option (FrameSymbol × Nat)
  | '-', '>' :: _ => some (.arrow, 1)
  | ':', _ => some (.colon, 0)
  | '\x7b', _ => some (.openBrace, 0)
  | '\x7d', _ => some (.closeBrace, 0)
  | '[', _ => some (.openBracket, 0)
  | ']', _ => some (.closeBracket, 0)
  | '(', _ => some (.openParen, 0)
  | ')', _ => some (.closeParen, 0)
  | ',', _ => some (.comma, 0)
  | '.', _ => some (.dot, 0)
  | _, _ => none

/-! ## Lexemes -/

/-- Block comment after its first two characters. -/
def blockComment (rest : List Char) : Except FrameFault FrameLexeme :=
  match spanTo '*' '/' rest with
  | some (body, rest) => .ok ⟨none, '/' :: '*' :: body ++ ['*', '/'], rest⟩
  | none => .error .openComment

/-- Script after its opening delimiter. -/
def scriptText (rest : List Char) : Except FrameFault FrameLexeme :=
  match spanTo '%' '\x7d' rest with
  | some (body, rest) =>
    .ok ⟨some (.text (String.ofList body)), '%' :: '\x7b' :: body ++ ['%', '\x7d'], rest⟩
  | none => .error .openText

/-- String literal after its opening quote. -/
def stringLiteral (rest : List Char) : Except FrameFault FrameLexeme :=
  match spanString rest with
  | some (body, rest) =>
    .ok ⟨some (.string (String.ofList (unescape body))), '"' :: body ++ ['"'], rest⟩
  | none => .error .openString

/-- Number whose first character is `c`. -/
def numberLiteral (c : Char) (rest : List Char) : Except FrameFault FrameLexeme :=
  let s := spanNumber .whole rest
  match number? (c :: s.1) with
  | some token => .ok ⟨some token, c :: s.1, s.2⟩
  | none => .error .number

/-- Symbol whose first character is `c`. -/
def symbolOf (c : Char) (rest : List Char) : Except FrameFault FrameLexeme :=
  match symbol? c rest with
  | some (s, n) => .ok ⟨some (.symbol s), c :: rest.take n, rest.drop n⟩
  | none => .error (.character c)

/-- Lexeme at the front of the source `c :: rest`. -/
def read (c : Char) (rest : List Char) : Except FrameFault FrameLexeme :=
  if isBlank c then .ok ⟨none, [c], rest⟩
  else if c = '/' ∧ rest.head? = some '/' then
    .ok ⟨none, c :: rest.takeWhile (· != '\n'), rest.dropWhile (· != '\n')⟩
  else if c = '/' ∧ rest.head? = some '*' then blockComment rest.tail
  else if c = '%' ∧ rest.head? = some '\x7b' then scriptText rest.tail
  else if c = '"' then stringLiteral rest
  else if isDigit c || (c == '-' && startsWithDigit rest) then numberLiteral c rest
  else if startsWord c then
    .ok ⟨some (word (c :: rest.takeWhile continuesWord)), c :: rest.takeWhile continuesWord,
      rest.dropWhile continuesWord⟩
  else symbolOf c rest

/-! ## Nothing is lost -/

theorem spanString_append {text body rest : List Char}
    (h : spanString text = some (body, rest)) : body ++ '"' :: rest = text := by
  fun_induction spanString text generalizing body with
  | case1 => simp at h
  | case2 => simp at h
  | case3 rest' =>
    simp only [Option.some.injEq, Prod.mk.injEq] at h
    simp [← h.1, ← h.2]
  | case4 c rest' ih =>
    simp only [Option.map_eq_some_iff, Prod.mk.injEq] at h
    obtain ⟨⟨body', rest''⟩, h, rfl, rfl⟩ := h
    simp [ih h]
  | case5 c rest' _ _ _ ih =>
    simp only [Option.map_eq_some_iff, Prod.mk.injEq] at h
    obtain ⟨⟨body', rest''⟩, h, rfl, rfl⟩ := h
    simp [ih h]

theorem spanNumber_append (part : NumberPart) (text : List Char) :
    (spanNumber part text).1 ++ (spanNumber part text).2 = text := by
  induction text generalizing part with
  | nil => rfl
  | cons c rest ih =>
    rw [spanNumber]
    split <;> simp [ih]

/-- A lexeme and what follows it are the source it was read from. -/
theorem text_append_rest {c : Char} {rest : List Char} {l : FrameLexeme}
    (h : read c rest = .ok l) : l.text ++ l.rest = c :: rest := by
  unfold read at h
  split at h
  · cases h; rfl
  split at h
  · cases h; simp
  split at h
  · rename_i hc
    unfold blockComment at h
    split at h
    · rename_i hs
      cases h
      rw [Text.eq_cons_of_head? hc.2]
      simp [hc.1, ← Text.spanTo_append hs]
    · cases h
  split at h
  · rename_i hc
    unfold scriptText at h
    split at h
    · rename_i hs
      cases h
      rw [Text.eq_cons_of_head? hc.2]
      simp [hc.1, ← Text.spanTo_append hs]
    · cases h
  split at h
  · rename_i hc
    unfold stringLiteral at h
    split at h
    · rename_i hs
      cases h
      simp [hc, ← spanString_append hs]
    · cases h
  split at h
  · unfold numberLiteral at h
    dsimp only at h
    split at h
    · cases h
      simp [spanNumber_append]
    · cases h
  split at h
  · cases h; simp
  · unfold symbolOf at h
    split at h
    · cases h; simp
    · cases h

/-- A lexeme is not empty. -/
theorem text_ne_nil {c : Char} {rest : List Char} {l : FrameLexeme} (h : read c rest = .ok l) :
    l.text ≠ [] := by
  unfold read blockComment scriptText stringLiteral numberLiteral symbolOf at h
  dsimp only at h
  repeat' split at h
  all_goals cases h
  all_goals simp

theorem rest_length {c : Char} {rest : List Char} {l : FrameLexeme} (h : read c rest = .ok l) :
    l.rest.length ≤ rest.length := by
  have hlength := congrArg List.length (text_append_rest h)
  have hpos := List.length_pos_iff.2 (text_ne_nil h)
  simp only [List.length_append, List.length_cons] at hlength
  omega

/-- What holds of the empty text and of those that start with no lexeme, and passes from the text
behind a lexeme to that before it, holds of all texts. -/
@[elab_as_elim]
theorem induction {motive : List Char → Prop} (nil : motive [])
    (error : ∀ {c : Char} {rest : List Char} {fault : FrameFault}, read c rest = .error fault →
      motive (c :: rest))
    (ok : ∀ {c : Char} {rest : List Char} {l : FrameLexeme}, read c rest = .ok l → motive l.rest →
      motive (c :: rest)) (text : List Char) : motive text := by
  induction hn : text.length using Nat.strongRecOn generalizing text with
  | ind n ih =>
    cases text with
    | nil => exact nil
    | cons c rest =>
      cases hread : read c rest with
      | error fault => exact error hread
      | ok l =>
        have hlt : l.rest.length < n := by
          have := rest_length hread
          rw [← hn, List.length_cons]
          omega
        exact ok hread (ih _ hlt _ rfl)

end FrameLexeme

/-! ## Token lists -/

namespace FrameTokens

/-- Tokens from a position on, before strings are joined. -/
def scan (position : Position) : List Char → Except ParseError FrameTokens
  | [] => .ok ⟨[], position⟩
  | c :: rest =>
    match h : FrameLexeme.read c rest with
    | .error fault => .error ⟨fault, position.line, none⟩
    | .ok l => do
      have := FrameLexeme.rest_length h
      let following ← scan (position.advance l.text) l.rest
      pure { following with
        tokens := (l.token.map fun token ↦ ⟨token, position⟩).toList ++ following.tokens }
  termination_by text => text.length

theorem scan_error {position : Position} {c : Char} {rest : List Char} {fault : FrameFault}
    (h : FrameLexeme.read c rest = .error fault) :
    scan position (c :: rest) = .error ⟨fault, position.line, none⟩ := by
  rw [scan]
  split
  · rename_i hread
    rw [h] at hread
    cases hread
    rfl
  · rename_i hread
    rw [h] at hread
    cases hread

theorem scan_ok {position : Position} {c : Char} {rest : List Char} {l : FrameLexeme}
    (h : FrameLexeme.read c rest = .ok l) :
    scan position (c :: rest) = (scan (position.advance l.text) l.rest).map fun following ↦
      { following with
        tokens := (l.token.map fun token ↦ ⟨token, position⟩).toList ++ following.tokens } := by
  rw [scan]
  split
  · rename_i hread
    rw [h] at hread
    cases hread
  · rename_i hread
    rw [h] at hread
    cases hread
    rfl

/-- Joins runs of string literals into one token, which keeps the position of the first. -/
def joinStrings : List LocatedToken → List LocatedToken
  | [] => []
  | t :: rest =>
    match t.token, joinStrings rest with
    | .string s, ⟨.string s', _⟩ :: rest' => ⟨.string (s ++ s'), t.position⟩ :: rest'
    | _, rest' => t :: rest'

/-- Tokens of a source. -/
def ofSource (source : String) : Except ParseError FrameTokens := do
  let scanned ← scan {} source.toList
  pure { scanned with tokens := joinStrings scanned.tokens }

end FrameTokens

end ReactiveFrames
