/-!
# Doubles as integers

A double is read through its sixty-four bits as a sign, a natural mantissa and a power of two.
Everything the library decides about a number — is it whole, which position does it name, which
digits does it print — is decided on that form, in exact arithmetic on `Nat` and `Int`. The
arithmetic of scripts (`+`, `-`, `*`, `/`) stays on `Float`.

## Main definitions

* `Binary`: what sixty-four bits denote, with the view `Binary.ofFloat`.
* `Binary.whole?`: the integer that a double is equal to.
* `remainder`: the remainder of a truncating division, which is always a double again.
-/

namespace ReactiveFrames.Decimal

/-- The number that the bits of a double denote. A finite one is
`± mantissa * 2 ^ exponent`. -/
inductive Binary where
  | nan
  | infinite (negative : Bool)
  | finite (negative : Bool) (mantissa : Nat) (exponent : Int)
  deriving DecidableEq, Repr

namespace Binary

/-- Bits of the stored fraction. -/
def fractionBits : Nat := 52

/-- Mantissa of the least normal number. -/
def hiddenBit : Nat := Nat.pow 2 fractionBits

/-- Exponent of the subnormal numbers. -/
def leastExponent : Int := -1074

/-- Splits the bit pattern of a double into its sign, exponent and fraction fields. -/
def ofBits (bits : Nat) : Binary :=
  let negative := decide (Nat.pow 2 63 ≤ bits)
  let field := bits / hiddenBit % 2048
  let fraction := bits % hiddenBit
  if field = 2047 then
    if fraction = 0 then .infinite negative else .nan
  else if field = 0 then .finite negative fraction leastExponent
  else .finite negative (hiddenBit + fraction) (Int.ofNat field - 1075)

/-- Reads a double. -/
def ofFloat (x : Float) : Binary := ofBits x.toBits.toNat

/-- Bit pattern of `± m * 2 ^ e`, for `m < 2 ^ 53` and `-1074 ≤ e` with a result in range. -/
def pack (negative : Bool) (m : Nat) (e : Int) : Nat :=
  let sign := if negative then Nat.pow 2 63 else 0
  if m = 0 then sign
  else
    let shift := min (fractionBits - m.log2) (e - leastExponent).toNat
    let m' := m * Nat.pow 2 shift
    let e' := e - shift
    if m' < hiddenBit then sign + m'
    else sign + (e' + 1075).toNat * hiddenBit + (m' - hiddenBit)

/-- The double `± m * 2 ^ e`, for `m < 2 ^ 53` and `-1074 ≤ e` with a result in range. -/
def toFloat (negative : Bool) (m : Nat) (e : Int) : Float :=
  Float.ofBits (UInt64.ofNat (pack negative m e))

/-- Integer part of `m * 2 ^ e`. -/
def floorMagnitude (m : Nat) (e : Int) : Nat :=
  if 0 ≤ e then m * Nat.pow 2 e.toNat else m / Nat.pow 2 (-e).toNat

/-- `m * 2 ^ e` has no fractional part. -/
def isWhole (m : Nat) (e : Int) : Bool :=
  decide (0 ≤ e) || m % Nat.pow 2 (-e).toNat == 0

/-- A magnitude with its sign. -/
def signed (negative : Bool) (n : Nat) : Int := if negative then -(n : Int) else n

/-- The integer that a number is equal to, if there is one. -/
def whole? : Binary → Option Int
  | .finite negative m e =>
    if isWhole m e then some (signed negative (floorMagnitude m e)) else none
  | _ => none

end Binary

/-- Nearest member of `lo..hi`. -/
def clamp (lo hi n : Int) : Int := max lo (min hi n)

/-- Least signed sixty-four bit integer. -/
def minInt64 : Int := -9223372036854775808

/-- Greatest signed sixty-four bit integer. -/
def maxInt64 : Int := 9223372036854775807

/-- Conversion to a signed sixty-four bit integer: toward zero, saturating, and zero for what is
no number. -/
def toInt64 (x : Float) : Int :=
  match Binary.ofFloat x with
  | .nan => 0
  | .infinite negative => if negative then minInt64 else maxInt64
  | .finite negative m e =>
    clamp minInt64 maxInt64 (Binary.signed negative (Binary.floorMagnitude m e))

/-- Conversion to a position: toward zero, zero for negative numbers and for what is no number,
and `none` past every position. -/
def toPosition? (x : Float) : Option Nat :=
  match Binary.ofFloat x with
  | .nan => some 0
  | .infinite negative => if negative then some 0 else none
  | .finite negative m e => some (if negative then 0 else Binary.floorMagnitude m e)

/-- The natural number that a double is equal to, if there is one. -/
def toNat? (x : Float) : Option Nat :=
  match (Binary.ofFloat x).whole? with
  | some (.ofNat n) => some n
  | _ => none

/-- Remainder of the truncating division of two doubles, with the sign of the dividend. Both are
written over the smaller exponent, where the remainder of the mantissas is exact. -/
def remainder (x y : Float) : Float :=
  match Binary.ofFloat x, Binary.ofFloat y with
  | .finite negative m e, .finite _ n f =>
    if n = 0 then 0.0 / 0.0
    else
      let least := min e f
      let r := (m * Nat.pow 2 (e - least).toNat) % (n * Nat.pow 2 (f - least).toNat)
      Binary.toFloat negative r least
  | .finite .., .infinite _ => x
  | _, _ => 0.0 / 0.0

end ReactiveFrames.Decimal
