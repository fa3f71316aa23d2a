import ReactiveFrames.Decimal.Binary

/-!
# Numbers read from text

A decimal text is split into a coefficient and a power of ten and rounded once, to the nearest
double. Texts whose magnitude is far outside the doubles are decided from their length, so that no
power of ten is ever formed from an exponent that somebody wrote.

## Main definitions

* `integer?`: an optional minus sign and digits, in the range of sixty-four bits.
* `float?`: the grammar `[+-] (digits [. [digits]] | . digits) [e [+-] digits]`, and the names of
  infinity and of what is no number.
-/

namespace ReactiveFrames.Decimal

/-- An ASCII digit. -/
def isDigit (c : Char) : Bool := decide ('0' ≤ c ∧ c ≤ '9')

/-- Value of an ASCII digit. -/
def digitValue (c : Char) : Nat := c.toNat - 48

/-- Natural with the given digits. -/
def ofDigits (digits : List Char) : Nat :=
  digits.foldl (fun n c ↦ 10 * n + digitValue c) 0

/-- Reads an optional minus sign and at least one digit. A value outside sixty-four bits is
refused. -/
def integer? (text : List Char) : Option Int :=
  let (negative, digits) := match text with
    | '-' :: rest => (true, rest)
    | _ => (false, text)
  if digits.isEmpty || !digits.all isDigit then none
  else
    let n := Binary.signed negative (ofDigits digits)
    if minInt64 ≤ n ∧ n ≤ maxInt64 then some n else none

/-- Nearest double to `coefficient * 10 ^ exponent`, for a coefficient with at most `width`
digits. -/
def nearest (coefficient : Nat) (exponent : Int) (width : Nat) : Float :=
  if coefficient = 0 ∨ exponent + width < -330 then 0.0
  else if 400 < exponent then 1.0 / 0.0
  else Float.ofScientific coefficient (decide (exponent < 0)) exponent.natAbs

/-- Splits off the digits at the front. -/
def spanDigits (text : List Char) : List Char × List Char :=
  (text.takeWhile isDigit, text.dropWhile isDigit)

/-- Reads `[+-] digits` to its end. -/
def exponent? (text : List Char) : Option Int :=
  let (negative, digits) := match text with
    | '-' :: rest => (true, rest)
    | '+' :: rest => (false, rest)
    | _ => (false, text)
  if digits.isEmpty || !digits.all isDigit then none
  else some (Binary.signed negative (ofDigits digits))

/-- Reads an unsigned decimal to its end. -/
def magnitude? (text : List Char) : Option Float :=
  let (whole, rest) := spanDigits text
  let (places, rest) := match rest with
    | '.' :: rest => spanDigits rest
    | _ => ([], rest)
  if whole.isEmpty && places.isEmpty then none
  else
    let exponent := match rest with
      | [] => some 0
      | 'e' :: rest | 'E' :: rest => exponent? rest
      | _ => none
    exponent.map fun e ↦
      let digits := whole ++ places
      nearest (ofDigits digits) (e - places.length) digits.length

/-- Lower case of an ASCII letter. -/
def asciiLower (c : Char) : Char :=
  if 'A' ≤ c ∧ c ≤ 'Z' then Char.ofNat (c.toNat + 32) else c

/-- Reads an unsigned number by its name, in any case. -/
def named? (text : List Char) : Option Float :=
  match String.ofList (text.map asciiLower) with
  | "inf" | "infinity" => some (1.0 / 0.0)
  | "nan" => some (0.0 / 0.0)
  | _ => none

/-- Reads a double to the end of the text. -/
def float? (text : List Char) : Option Float :=
  let (negative, rest) := match text with
    | '-' :: rest => (true, rest)
    | '+' :: rest => (false, rest)
    | _ => (false, text)
  ((magnitude? rest).or (named? rest)).map fun x ↦ if negative then -x else x

end ReactiveFrames.Decimal
