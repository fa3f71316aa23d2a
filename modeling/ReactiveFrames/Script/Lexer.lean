import ReactiveFrames.Decimal.Reading
import ReactiveFrames.Script.Error
import ReactiveFrames.Text.Alphabetic
import ReactiveFrames.Text.Blank
import ReactiveFrames.Text.Numeric
import ReactiveFrames.Text.Span

/-!
# Tokens of a script

A script is cut into lexemes, whose characters in their order are the script. The line of a token
counts the line feeds of the lexemes before it; a line feed that a string literal escapes is part of
the literal and starts no line.

## Main statements

* `Lexeme.text_append_rest`: a lexeme and what follows it are the script it was read from.
* `Lexeme.text_ne_nil`: a lexeme is not empty.
-/

namespace ReactiveFrames.Script

open Decimal (isDigit)
open Text (isBlank isAlphabetic isNumeric spanTo)

/-- A piece of a script. Blanks and comments are no token. -/
structure Lexeme where
  token : Option Token
  text : List Char
  rest : List Char

namespace Lexeme

/-! ## Spans -/

/-- Characters of a string literal after its opening quote, without the closing one, and what
follows it. A line feed ends the literal too early unless it is escaped. -/
def spanString (quote : Char) : List Char → Option (List Char × List Char)
  | [] => none
  | ['\\'] => none
  | '\\' :: c :: rest => (spanString quote rest).map fun s ↦ ('\\' :: c :: s.1, s.2)
  | c :: rest =>
    if c = '\n' then none
    else if c = quote then some ([], rest)
    else (spanString quote rest).map fun s ↦ (c :: s.1, s.2)

/-- Character that a backslash and another character stand for. -/
def escaped (c : Char) : Char :=
  match c with
  | 'n' => '\n'
  | 't' => '\t'
  | 'r' => '\r'
  | '0' => '\x00'
  | c => c

/-- Value of the characters of a string literal. -/
def unescape : List Char → List Char
  | '\\' :: c :: rest => escaped c :: unescape rest
  | c :: rest => c :: unescape rest
  | [] => []

/-- Digits and points belong to a number. -/
def isNumberChar (c : Char) : Bool := isDigit c || c == '.'

/-- Digits of an exponent with their sign, and what follows them. -/
def spanSigned (text : List Char) : List Char × List Char :=
  match text with
  | '+' :: rest => ('+' :: rest.takeWhile isDigit, rest.dropWhile isDigit)
  | '-' :: rest => ('-' :: rest.takeWhile isDigit, rest.dropWhile isDigit)
  | rest => (rest.takeWhile isDigit, rest.dropWhile isDigit)

/-- An exponent, if there is one, and what follows it. -/
def spanExponent (text : List Char) : List Char × List Char :=
  match text with
  | 'e' :: rest => ('e' :: (spanSigned rest).1, (spanSigned rest).2)
  | 'E' :: rest => ('E' :: (spanSigned rest).1, (spanSigned rest).2)
  | rest => ([], rest)

/-- An identifier may start with the character. -/
def startsWord (c : Char) : Bool := isAlphabetic c || c == '_' || c == '$'

/-- An identifier may continue with the character. -/
def continuesWord (c : Char) : Bool := isAlphabetic c || isNumeric c || c == '_' || c == '$'

/-! ## Lexemes -/

/-- Block comment after its first two characters. -/
def blockComment (rest : List Char) : Except Fault Lexeme :=
  match spanTo '*' '/' rest with
  | some (body, rest) => .ok ⟨none, '/' :: '*' :: body ++ ['*', '/'], rest⟩
  | none => .error .openComment

/-- Number whose first character is `c`. -/
def numberLiteral (c : Char) (rest : List Char) : Except Fault Lexeme :=
  let exponent := spanExponent (rest.dropWhile isNumberChar)
  let text := c :: rest.takeWhile isNumberChar ++ exponent.1
  match Decimal.float? text with
  | some x => .ok ⟨some (.number x), text, exponent.2⟩
  | none => .error (.number (String.ofList text))

/-- String literal after its opening quote. -/
def stringLiteral (quote : Char) (rest : List Char) : Except Fault Lexeme :=
  match spanString quote rest with
  | some (body, rest) =>
    .ok ⟨some (.string (String.ofList (unescape body))), quote :: body ++ [quote], rest⟩
  | none => .error .openString

/-- Punctuator whose first character is `c`. -/
def punctuator (c : Char) (rest : List Char) : Except Fault Lexeme :=
  match Punct.ofFront? (c :: rest) with
  | some p =>
    .ok ⟨some (.punct p), c :: rest.take (p.chars.length - 1), rest.drop (p.chars.length - 1)⟩
  | none => .error (.character c)

/-- Lexeme at the front of the script `c :: rest`. -/
def read (c : Char) (rest : List Char) : Except Fault Lexeme :=
  if isBlank c then .ok ⟨none, [c], rest⟩
  else if c = '/' ∧ rest.head? = some '/' then
    .ok ⟨none, c :: rest.takeWhile (· != '\n'), rest.dropWhile (· != '\n')⟩
  else if c = '/' ∧ rest.head? = some '*' then blockComment rest.tail
  else if isDigit c || (c == '.' && rest.head?.any isDigit) then numberLiteral c rest
  else if c = '"' ∨ c = '\'' then stringLiteral c rest
  else if startsWord c then
    .ok ⟨some (.word (String.ofList (c :: rest.takeWhile continuesWord))),
      c :: rest.takeWhile continuesWord, rest.dropWhile continuesWord⟩
  else punctuator c rest

/-- Line feeds that start a line. -/
def lines (l : Lexeme) : Nat :=
  match l.token with
  | some (.string _) => 0
  | _ => l.text.count '\n'

/-! ## Nothing is lost -/

theorem spanString_append {quote : Char} {text body rest : List Char}
    (h : spanString quote text = some (body, rest)) : body ++ quote :: rest = text := by
  fun_induction spanString quote text generalizing body with
  | case1 => simp at h
  | case2 => simp at h
  | case3 c rest' ih =>
    simp only [Option.map_eq_some_iff, Prod.mk.injEq] at h
    obtain ⟨⟨body', rest''⟩, h, rfl, rfl⟩ := h
    simp [ih h]
  | case4 => simp at h
  | case5 rest' =>
    simp only [Option.some.injEq, Prod.mk.injEq] at h
    simp [← h.1, ← h.2]
  | case6 c rest' _ _ _ _ ih =>
    simp only [Option.map_eq_some_iff, Prod.mk.injEq] at h
    obtain ⟨⟨body', rest''⟩, h, rfl, rfl⟩ := h
    simp [ih h]

theorem spanSigned_append (text : List Char) :
    (spanSigned text).1 ++ (spanSigned text).2 = text := by
  unfold spanSigned
  split <;> simp

theorem spanExponent_append (text : List Char) :
    (spanExponent text).1 ++ (spanExponent text).2 = text := by
  unfold spanExponent
  split <;> simp [spanSigned_append]

/-- A lexeme and what follows it are the script it was read from. -/
theorem text_append_rest {c : Char} {rest : List Char} {l : Lexeme}
    (h : read c rest = .ok l) : l.text ++ l.rest = c :: rest := by
  unfold read at h
  split at h
  · cases h; rfl
  split at h
  · cases h; simp
  split at h
  · rename_i hc
    unfold blockComment at h
    split at h
    · rename_i hs
      cases h
      rw [Text.eq_cons_of_head? hc.2]
      simp [hc.1, ← Text.spanTo_append hs]
    · cases h
  split at h
  · unfold numberLiteral at h
    dsimp only at h
    split at h
    · cases h
      simp [spanExponent_append]
    · cases h
  split at h
  · unfold stringLiteral at h
    split at h
    · rename_i hs
      cases h
      simp [← spanString_append hs]
    · cases h
  split at h
  · cases h; simp
  · unfold punctuator at h
    split at h
    · cases h; simp
    · cases h

/-- A lexeme is not empty. -/
theorem text_ne_nil {c : Char} {rest : List Char} {l : Lexeme} (h : read c rest = .ok l) :
    l.text ≠ [] := by
  unfold read blockComment numberLiteral stringLiteral punctuator at h
  dsimp only at h
  repeat' split at h
  all_goals cases h
  all_goals simp

theorem rest_length {c : Char} {rest : List Char} {l : Lexeme} (h : read c rest = .ok l) :
    l.rest.length ≤ rest.length := by
  have hlength := congrArg List.length (text_append_rest h)
  have hpos := List.length_pos_iff.2 (text_ne_nil h)
  simp only [List.length_append, List.length_cons] at hlength
  omega

/-- What holds of the empty text and of those that start with no lexeme, and passes from the text
behind a lexeme to that before it, holds of all texts. -/
@[elab_as_elim]
theorem induction {motive : List Char → Prop} (nil : motive [])
    (error : ∀ {c : Char} {rest : List Char} {fault : Fault}, read c rest = .error fault →
      motive (c :: rest))
    (ok : ∀ {c : Char} {rest : List Char} {l : Lexeme}, read c rest = .ok l → motive l.rest →
      motive (c :: rest)) (text : List Char) : motive text := by
  induction hn : text.length using Nat.strongRecOn generalizing text with
  | ind n ih =>
    cases text with
    | nil => exact nil
    | cons c rest =>
      cases hread : read c rest with
      | error fault => exact error hread
      | ok l =>
        have hlt : l.rest.length < n := by
          have := rest_length hread
          rw [← hn, List.length_cons]
          omega
        exact ok hread (ih _ hlt _ rfl)

end Lexeme

/-! ## Token lists -/

namespace Tokens

/-- Tokens from a line on. -/
def scan (line : Nat) : List Char → Except SyntaxError Tokens
  | [] => .ok ⟨[], line⟩
  | c :: rest =>
    match h : Lexeme.read c rest with
    | .error fault => .error ⟨fault, line⟩
    | .ok l => do
      have := Lexeme.rest_length h
      let following ← scan (line + l.lines) l.rest
      pure { following with
        tokens := (l.token.map fun token ↦ ⟨token, line⟩).toList ++ following.tokens }
  termination_by text => text.length

theorem scan_error {line : Nat} {c : Char} {rest : List Char} {fault : Fault}
    (h : Lexeme.read c rest = .error fault) : scan line (c :: rest) = .error ⟨fault, line⟩ := by
  rw [scan]
  split
  · rename_i hread
    rw [h] at hread
    cases hread
    rfl
  · rename_i hread
    rw [h] at hread
    cases hread

theorem scan_ok {line : Nat} {c : Char} {rest : List Char} {l : Lexeme}
    (h : Lexeme.read c rest = .ok l) :
    scan line (c :: rest) = (scan (line + l.lines) l.rest).map fun following ↦
      { following with
        tokens := (l.token.map fun token ↦ ⟨token, line⟩).toList ++ following.tokens } := by
  rw [scan]
  split
  · rename_i hread
    rw [h] at hread
    cases hread
  · rename_i hread
    rw [h] at hread
    cases hread
    rfl

/-- Tokens of a script. -/
def ofSource (source : String) : Except SyntaxError Tokens := scan 0 source.toList

end Tokens

end ReactiveFrames.Script
