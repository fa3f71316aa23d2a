import ReactiveFrames.Decimal.Shortest

/-!
# Written numbers

The layouts in which doubles are written. All of them share the digits of `Decimal.shortest`; they
differ in when a point and an exponent are written.

## Main definitions

* `plain`: positional, with no exponent and no point on a whole number.
* `ofScript`: the text of a number inside a script.
* `literal`: the text of a number in frame source, which always shows that it is no integer.
* `json`: the text of a number in the exchange form, with an exponent far from one.
-/

namespace ReactiveFrames.Decimal

/-- Sign and text. -/
def withSign (negative : Bool) (text : String) : String :=
  if negative then "-" ++ text else text

/-- Positional text of a decimal. Its coefficient has as many digits as it is written with. -/
def positional (d : Digits) : String :=
  let digits := Nat.toDigits 10 d.coefficient
  if 0 ≤ d.exponent then String.ofList (digits ++ List.replicate d.exponent.toNat '0')
  else
    let places := (-d.exponent).toNat
    let padded := List.replicate (places + 1 - digits.length) '0' ++ digits
    let whole := padded.length - places
    String.ofList (padded.take whole ++ '.' :: padded.drop whole)

/-- Positional text with the fewest digits that read back. -/
def plain (x : Float) : String :=
  match Binary.ofFloat x with
  | .nan => "NaN"
  | .infinite negative => withSign negative "inf"
  | .finite negative m e =>
    withSign negative (if m = 0 then "0" else positional (shortest .up m e))

/-- Whole numbers below this are written as integers in scripts. -/
def scriptWholeLimit : Nat := Nat.pow 10 21

/-- Text of a number inside a script. A whole number below `10 ^ 21` is written as the signed
sixty-four bit integer nearest to it, any other number by `plain`. -/
def ofScript (x : Float) : String :=
  match Binary.ofFloat x with
  | .nan => "NaN"
  | .infinite negative => withSign negative "Infinity"
  | .finite _ m e =>
    if Binary.isWhole m e && decide (Binary.floorMagnitude m e < scriptWholeLimit) then
      toString (toInt64 x)
    else plain x

/-- Text of a number in frame source. A whole number is written with all its digits and one
place. -/
def literal (x : Float) : String :=
  match Binary.ofFloat x with
  | .finite negative m e =>
    if Binary.isWhole m e then withSign negative (toString (Binary.floorMagnitude m e) ++ ".0")
    else plain x
  | _ => plain x

/-- Removes the trailing zeros of a coefficient. -/
def Digits.trim (d : Digits) : Digits :=
  let digits := (Nat.toDigits 10 d.coefficient).reverse
  let zeros := (digits.takeWhile (· == '0')).length
  ⟨d.coefficient / Nat.pow 10 zeros, d.exponent + zeros⟩

/-- Scientific text of a decimal: one digit before the point, a signed exponent. -/
def scientific (d : Digits) : String :=
  let digits := Nat.toDigits 10 d.coefficient
  let exponent := d.exponent + digits.length - 1
  let mantissa := match digits with
    | [] => []
    | [c] => [c]
    | c :: rest => c :: '.' :: rest
  let sign := if exponent < 0 then "-" else "+"
  String.ofList mantissa ++ "e" ++ sign ++ toString exponent.natAbs

/-- Text of a number in the exchange form. Numbers from `10 ^ -5` to `10 ^ 16` are positional, with
one place on a whole number; the others have an exponent, and what is not finite is null. -/
def json (x : Float) : String :=
  match Binary.ofFloat x with
  | .finite negative m e =>
    withSign negative <|
      if m = 0 then "0.0"
      else
        let d := (shortest .even m e).trim
        let magnitude := d.exponent + (Nat.toDigits 10 d.coefficient).length - 1
        if -5 ≤ magnitude ∧ magnitude ≤ 15 then
          if 0 ≤ d.exponent then positional d ++ ".0" else positional d
        else scientific d
  | _ => "null"

end ReactiveFrames.Decimal
