import ReactiveFrames.Decimal.Binary

/-!
# Shortest decimal digits

The fewest decimal digits that read back to a given double. The reals that round to `m * 2 ^ e`
form an interval; of the decimal grids `10 ^ g`, from coarse to fine, the first one with a point
in that interval gives the digits. Only the two neighbours of the double on a grid are tested: if
any point of the grid lies in the interval, one of these two does.

All comparisons are between naturals: a value is held as a numerator over a common denominator.

## Main definitions

* `Digits`: a natural and a power of ten.
* `shortest`: digits of a positive double.
-/

namespace ReactiveFrames.Decimal

/-- The decimal `coefficient * 10 ^ exponent`. -/
structure Digits where
  coefficient : Nat
  exponent : Int
  deriving DecidableEq, Repr

/-- Which of two equally near grid points is taken. -/
inductive Tie where
  | up
  | even
  deriving DecidableEq, Repr

/-- The interval of reals that round to a double, over a common denominator. -/
structure Interval where
  /-- Lower end. -/
  low : Nat
  /-- The double itself. -/
  value : Nat
  /-- Upper end. -/
  high : Nat
  denominator : Nat
  /-- The ends belong to the interval. -/
  closed : Bool

namespace Interval

/-- The reals that round to `m * 2 ^ e`. The gap below the least mantissa of a binade is half the
gap above it; the ends belong to the double with the even mantissa. -/
def ofBinary (m : Nat) (e : Int) : Interval :=
  let below := if m = Binary.hiddenBit ∧ Binary.leastExponent < e then 1 else 2
  let up := Nat.pow 2 (e - 2).toNat
  { low := (4 * m - below) * up
    value := 4 * m * up
    high := (4 * m + 2) * up
    denominator := Nat.pow 2 (2 - e).toNat
    closed := m % 2 == 0 }

/-- `d * 10 ^ g` lies in the interval. -/
def contains (i : Interval) (d : Nat) (g : Int) : Bool :=
  let point := d * Nat.pow 10 g.toNat * i.denominator
  let scale := Nat.pow 10 (-g).toNat
  if i.closed then decide (i.low * scale ≤ point) && decide (point ≤ i.high * scale)
  else decide (i.low * scale < point) && decide (point < i.high * scale)

/-- The better of the two neighbours of the double on the grid `10 ^ g`, if one of them lies in
the interval. -/
def hit? (tie : Tie) (i : Interval) (g : Int) : Option Nat :=
  let step := Nat.pow 10 g.toNat * i.denominator
  let value := i.value * Nat.pow 10 (-g).toNat
  let below := value / step
  match i.contains below g, i.contains (below + 1) g with
  | false, false => none
  | true, false => some below
  | false, true => some (below + 1)
  | true, true =>
    let twice := 2 * (value % step)
    if twice < step then some below
    else if step < twice then some (below + 1)
    else match tie with
      | .up => some (below + 1)
      | .even => some (if below % 2 = 0 then below else below + 1)

/-- First grid with a hit, at most `steps` grids below `g`. -/
def search (tie : Tie) (i : Interval) : Nat → Int → Option Digits
  | 0, _ => none
  | steps + 1, g =>
    match i.hit? tie g with
    | some d => some ⟨d, g⟩
    | none => search tie i steps (g - 1)

end Interval

/-- All digits of `m * 2 ^ e`. -/
def exact (m : Nat) (e : Int) : Digits :=
  if 0 ≤ e then ⟨m * Nat.pow 2 e.toNat, 0⟩ else ⟨m * Nat.pow 5 (-e).toNat, e⟩

/-- A power of ten above `m * 2 ^ e`, at most a few too high. -/
def gridAbove (m : Nat) (e : Int) : Int :=
  (Int.ofNat m.log2 + e + 1) * 30103 / 100000 + 2

/-- Grids that are tried: seventeen digits always suffice, and the first few may be too coarse. -/
def gridLimit : Nat := 32

/-- Fewest digits that read back to `m * 2 ^ e`, and of those the nearest. -/
def shortest (tie : Tie) (m : Nat) (e : Int) : Digits :=
  ((Interval.ofBinary m e).search tie gridLimit (gridAbove m e)).getD (exact m e)

end ReactiveFrames.Decimal
