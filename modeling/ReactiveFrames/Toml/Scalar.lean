import ReactiveFrames.Decimal.Reading
import ReactiveFrames.Toml.Item
import ReactiveFrames.Toml.Quotation

/-!
# Numbers, dates and truth values of TOML documents

A value that is no string and has no brackets is a run of letters, digits and a few marks, and is
read as a whole. A date and a time may also have one space between them.
-/

namespace ReactiveFrames.Toml

open Decimal (isDigit)

/-! ## Numbers -/

/-- Digits of a text in which underscores may stand between digits. -/
def ungrouped (isDigit : Char → Bool) : List Char → Option (List Char)
  | [] => none
  | [c] => if isDigit c then some [c] else none
  | c :: '_' :: rest => if isDigit c then (ungrouped isDigit rest).map (c :: ·) else none
  | c :: rest => if isDigit c then (ungrouped isDigit rest).map (c :: ·) else none

/-- Splits off a sign. -/
def splitSign (text : List Char) : List Char × List Char :=
  match text with
  | '-' :: rest => (['-'], rest)
  | '+' :: rest => ([], rest)
  | rest => ([], rest)

/-- Digits of a whole number with a minus sign, if it has one. Only zero starts with a zero. -/
def wholeDigits (text : List Char) : Option (List Char) :=
  let (sign, magnitude) := splitSign text
  (ungrouped isDigit magnitude).bind fun digits ↦
    if digits.head? = some '0' ∧ digits.length ≠ 1 then none else some (sign ++ digits)

/-- Natural number with the digits of a base. -/
def natural? (base : Nat) (text : List Char) : Option Nat :=
  let value (c : Char) : Option Nat := (hexDigit? c).filter (· < base)
  (ungrouped (fun c ↦ (value c).isSome) text).map fun digits ↦
    digits.foldl (fun n c ↦ base * n + (value c).getD 0) 0

/-- Integer of sixty-four bits. One that is not decimal has no sign. -/
def integer? (text : List Char) : Option Int :=
  let based (base : Nat) (digits : List Char) : Option Int :=
    ((natural? base digits).map Int.ofNat).filter fun i ↦ decide (i ≤ Decimal.maxInt64)
  match text with
  | '0' :: 'x' :: digits => based 16 digits
  | '0' :: 'o' :: digits => based 8 digits
  | '0' :: 'b' :: digits => based 2 digits
  | text => (wholeDigits text).bind Decimal.integer?

/-- Point and digits at the front of a text, and what follows them. -/
def fraction (text : List Char) : Option (List Char × List Char) :=
  match text with
  | '.' :: rest =>
    let digits := rest.takeWhile fun c ↦ isDigit c || c == '_'
    (ungrouped isDigit digits).map fun digits' ↦ ('.' :: digits', rest.drop digits.length)
  | rest => some ([], rest)

/-- Exponent that is the whole of a text, unless that is empty. -/
def exponent (text : List Char) : Option (List Char) :=
  match text with
  | [] => some []
  | e :: rest =>
    if e = 'e' ∨ e = 'E' then
      let (sign, digits) := splitSign rest
      (ungrouped isDigit digits).map fun digits ↦ 'e' :: sign ++ digits
    else none

/-- Number with a fraction or an exponent. One that is too large is refused, unless it is
negative. -/
def decimal? (text : List Char) : Option Float := do
  let endsWhole (c : Char) : Bool := c == '.' || c == 'e' || c == 'E'
  let rest := text.dropWhile (!endsWhole ·)
  if rest.isEmpty then none
  let whole ← wholeDigits (text.takeWhile (!endsWhole ·))
  let (places, rest) ← fraction rest
  let exponent ← exponent rest
  let x ← Decimal.float? (whole ++ places ++ exponent)
  if x == 1.0 / 0.0 then none else some x

/-- Number that is written by name. -/
def named? (text : List Char) : Option Float :=
  let (sign, name) := splitSign text
  let signed (x : Float) : Float := if sign.isEmpty then x else -x
  match name with
  | ['i', 'n', 'f'] => some (signed (1.0 / 0.0))
  | ['n', 'a', 'n'] => some (signed (0.0 / 0.0))
  | _ => none

/-! ## Dates and times -/

/-- Two digits with a value in a range. -/
def inRange (low high : Nat) (a b : Char) : Bool :=
  let n := Decimal.ofDigits [a, b]
  isDigit a && isDigit b && decide (low ≤ n ∧ n ≤ high)

/-- Days of a month. -/
def daysIn (year month : Nat) : Nat :=
  match month with
  | 2 => if year % 4 = 0 ∧ (year % 100 ≠ 0 ∨ year % 400 = 0) then 29 else 28
  | 4 | 6 | 9 | 11 => 30
  | _ => 31

/-- What follows a date at the front of a text. -/
def afterDate? (text : List Char) : Option (List Char) :=
  match text with
  | y₁ :: y₂ :: y₃ :: y₄ :: '-' :: m₁ :: m₂ :: '-' :: d₁ :: d₂ :: rest =>
    let year := Decimal.ofDigits [y₁, y₂, y₃, y₄]
    let days := daysIn year (Decimal.ofDigits [m₁, m₂])
    if [y₁, y₂, y₃, y₄].all isDigit && inRange 1 12 m₁ m₂ && inRange 1 days d₁ d₂ then some rest
    else none
  | _ => none

/-- What follows a time at the front of a text. -/
def afterTime? (text : List Char) : Option (List Char) :=
  match text with
  | h₁ :: h₂ :: ':' :: m₁ :: m₂ :: ':' :: s₁ :: s₂ :: rest =>
    if inRange 0 23 h₁ h₂ && inRange 0 59 m₁ m₂ && inRange 0 60 s₁ s₂ then
      match rest with
      | '.' :: c :: rest => if isDigit c then some (rest.dropWhile isDigit) else none
      | rest => some rest
    else none
  | _ => none

/-- A text is the offset of a time, or empty. -/
def isOffset (text : List Char) : Bool :=
  match text with
  | [] | ['Z'] | ['z'] => true
  | [sign, h₁, h₂, ':', m₁, m₂] =>
    (sign == '+' || sign == '-') && inRange 0 23 h₁ h₂ && inRange 0 59 m₁ m₂
  | _ => false

/-- A text is a date, a time, or a date with a time and its offset. -/
def isDateTime (text : List Char) : Bool :=
  match afterDate? text with
  | some [] => true
  | some (c :: rest) => (c == 'T' || c == 't' || c == ' ') && (afterTime? rest).any isOffset
  | none => afterTime? text == some []

/-! ## Runs -/

/-- A character can belong to a value without quotes and brackets. -/
def isRunChar (c : Char) : Bool :=
  isDigit c || ('a' ≤ c && c ≤ 'z') || ('A' ≤ c && c ≤ 'Z') ||
    c == '+' || c == '-' || c == '.' || c == '_' || c == ':'

/-- Run of characters at the front of a text. A date takes along the time after a space. -/
def spanRun (text : List Char) : List Char :=
  let run := text.takeWhile isRunChar
  match text.drop run.length with
  | ' ' :: rest =>
    let time := rest.takeWhile isRunChar
    if afterDate? run = some [] ∧ !time.isEmpty then run ++ ' ' :: time else run
  | _ => run

/-- Value of a run. -/
def scalarOfRun? (run : List Char) : Option Item :=
  match run with
  | ['t', 'r', 'u', 'e'] => some (.bool true)
  | ['f', 'a', 'l', 's', 'e'] => some (.bool false)
  | run =>
    if isDateTime run then some (.dateTime (String.ofList run))
    else ((integer? run).map Item.integer).or (((decimal? run).or (named? run)).map Item.float)

end ReactiveFrames.Toml
