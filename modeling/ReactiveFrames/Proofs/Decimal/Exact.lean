import Mathlib.Algebra.Order.Floor.Semifield
import Mathlib.Algebra.Order.Field.Rat
import Mathlib.Data.Rat.Floor
import Mathlib.Tactic.NormNum
import Mathlib.Tactic.SplitIfs
import ReactiveFrames.Decimal.Binary

/-!
# The rational number that a double is

A finite double is a rational number, exactly. That a number names a position is said of that
rational: it is the position itself. Where a position is asked for by cutting, every double but the
positive infinity is cut to one, also a negative number, and what is no number at all.

## Main statements

* `toNat?_eq_some_iff`: the natural number that a double is equal to.
* `toPosition?_eq_some_iff`: the position that a double is cut to.
-/

namespace ReactiveFrames.Decimal

/-- The rational number that the bits of a finite double denote. -/
def Binary.value? : Binary → Option ℚ
  | .finite negative m e => some (if negative then -(m * 2 ^ e) else m * 2 ^ e)
  | _ => none

/-- The rational number that a double is, if it is finite. -/
def value? (x : Float) : Option ℚ := (Binary.ofFloat x).value?

/-- The double is cut to the position: a number that is not negative to its whole part, and what is
less than zero, or no number, to the first position. -/
inductive CutsTo (x : Float) : ℕ → Prop
  | number {q : ℚ} : value? x = some q → CutsTo x ⌊q⌋₊
  | negativeInfinity : Binary.ofFloat x = .infinite true → CutsTo x 0
  | nan : Binary.ofFloat x = .nan → CutsTo x 0

/-! ## Whole parts -/

private theorem mul_zpow_of_neg (m : ℕ) {e : ℤ} (he : ¬0 ≤ e) :
    (m : ℚ) * 2 ^ e = m / (2 ^ (-e).toNat : ℕ) := by
  obtain ⟨k, hk⟩ := Int.eq_ofNat_of_zero_le (show 0 ≤ -e by omega)
  have hexponent : e = -(k : ℤ) := by omega
  have htoNat : (-e).toNat = k := by omega
  rw [htoNat, hexponent, zpow_neg, zpow_natCast, div_eq_mul_inv]
  norm_cast

private theorem mul_zpow_of_nonneg (m : ℕ) {e : ℤ} (he : 0 ≤ e) :
    (m : ℚ) * 2 ^ e = (m * 2 ^ e.toNat : ℕ) := by
  obtain ⟨k, rfl⟩ := Int.eq_ofNat_of_zero_le he
  push_cast
  rw [zpow_natCast]
  rfl

theorem Binary.floorMagnitude_eq (m : ℕ) (e : ℤ) :
    Binary.floorMagnitude m e = ⌊(m : ℚ) * 2 ^ e⌋₊ := by
  rw [Binary.floorMagnitude]
  split_ifs with he
  · rw [mul_zpow_of_nonneg m he, Nat.floor_natCast]
    rfl
  · rw [mul_zpow_of_neg m he, Nat.floor_div_natCast, Nat.floor_natCast]
    rfl

/-- A number is whole if it is its whole part. -/
theorem Binary.isWhole_iff (m : ℕ) (e : ℤ) :
    Binary.isWhole m e = true ↔ (m : ℚ) * 2 ^ e = ⌊(m : ℚ) * 2 ^ e⌋₊ := by
  rw [Binary.isWhole, Bool.or_eq_true, decide_eq_true_iff, beq_iff_eq]
  by_cases he : 0 ≤ e
  · rw [mul_zpow_of_nonneg m he, Nat.floor_natCast]
    exact iff_of_true (.inl he) rfl
  · have hpos : ((2 ^ (-e).toNat : ℕ) : ℚ) ≠ 0 := Nat.cast_ne_zero.2 (Nat.two_pow_pos _).ne'
    rw [mul_zpow_of_neg m he, Nat.floor_div_natCast, Nat.floor_natCast, div_eq_iff hpos,
      ← Nat.cast_mul, Nat.cast_inj, or_iff_right he]
    change m % 2 ^ (-e).toNat = 0 ↔ m = m / 2 ^ (-e).toNat * 2 ^ (-e).toNat
    rw [← Nat.dvd_iff_mod_eq_zero, Nat.dvd_iff_div_mul_eq]
    exact eq_comm

/-! ## Positions -/

private theorem mul_zpow_nonneg (m : ℕ) (e : ℤ) : (0 : ℚ) ≤ m * 2 ^ e :=
  mul_nonneg (Nat.cast_nonneg m) (zpow_nonneg (by norm_num) e)

theorem toNat?_eq_some_iff_whole? {x : Float} {n : ℕ} :
    toNat? x = some n ↔ (Binary.ofFloat x).whole? = some (n : ℤ) := by
  rw [toNat?]
  cases (Binary.ofFloat x).whole? with
  | none => simp
  | some k => cases k <;> simp

theorem Binary.whole?_eq_some_iff {b : Binary} {n : ℤ} :
    b.whole? = some n ↔ b.value? = some (n : ℚ) := by
  cases b with
  | nan => simp [Binary.whole?, Binary.value?]
  | infinite negative => simp [Binary.whole?, Binary.value?]
  | finite negative m e =>
    rw [Binary.whole?, Binary.value?, Binary.floorMagnitude_eq, Option.some_inj]
    by_cases hwhole : Binary.isWhole m e = true
    · have hvalue := (Binary.isWhole_iff m e).1 hwhole
      generalize ⌊(m : ℚ) * 2 ^ e⌋₊ = k at hvalue
      rw [if_pos hwhole, hvalue, Option.some_inj, Binary.signed]
      cases negative <;> norm_cast
    · rw [if_neg hwhole]
      refine iff_of_false (fun h ↦ by cases h) fun hn ↦ hwhole ((Binary.isWhole_iff m e).2 ?_)
      -- An integer with another sign is equal to the magnitude.
      have hmagnitude : (m : ℚ) * 2 ^ e = (n.natAbs : ℕ) := by
        rw [Nat.cast_natAbs, Int.cast_abs, ← hn]
        cases negative <;> simp [abs_of_nonneg (mul_zpow_nonneg m e)]
      rw [hmagnitude, Nat.floor_natCast]

/-- Only the finite doubles are numbers. -/
theorem exists_ofFloat_of_value? {x : Float} {q : ℚ} (h : value? x = some q) :
    ∃ negative m e, Binary.ofFloat x = .finite negative m e ∧
      (if negative then -(m * 2 ^ e) else m * 2 ^ e : ℚ) = q := by
  rw [value?] at h
  cases hx : Binary.ofFloat x with
  | nan => simp [hx, Binary.value?] at h
  | infinite negative => simp [hx, Binary.value?] at h
  | finite negative m e =>
    rw [hx, Binary.value?, Option.some_inj] at h
    exact ⟨negative, m, e, rfl, h⟩

/-- A double that is an integer has no fractional part. -/
theorem exists_isWhole_of_value? {x : Float} {i : ℤ} (h : value? x = some (i : ℚ)) :
    ∃ negative m e, Binary.ofFloat x = .finite negative m e ∧ Binary.isWhole m e = true ∧
      Binary.signed negative (Binary.floorMagnitude m e) = i := by
  obtain ⟨negative, m, e, hx, -⟩ := exists_ofFloat_of_value? h
  have hwhole : (Binary.ofFloat x).whole? = some i := Binary.whole?_eq_some_iff.2 h
  rw [hx, Binary.whole?] at hwhole
  split at hwhole
  · rename_i hw
    exact ⟨negative, m, e, hx, hw, Option.some_inj.1 hwhole⟩
  · cases hwhole

/-- The natural number that a double is equal to, if there is one. -/
theorem toNat?_eq_some_iff {x : Float} {n : ℕ} : toNat? x = some n ↔ value? x = some (n : ℚ) := by
  rw [toNat?_eq_some_iff_whole?, Binary.whole?_eq_some_iff, Int.cast_natCast]
  rfl

theorem toPosition?_eq_some_iff {x : Float} {n : ℕ} : toPosition? x = some n ↔ CutsTo x n := by
  have hvalue : value? x = (Binary.ofFloat x).value? := rfl
  rw [toPosition?]
  cases hx : Binary.ofFloat x with
  | nan =>
    rw [Option.some_inj]
    refine ⟨fun h ↦ h ▸ .nan hx, fun h ↦ ?_⟩
    rw [hx] at hvalue
    cases h <;> simp_all [Binary.value?]
  | infinite negative =>
    rw [hx] at hvalue
    refine ⟨fun h ↦ ?_, fun h ↦ ?_⟩
    · cases negative with
      | false => cases h
      | true =>
        cases h
        exact .negativeInfinity hx
    · cases h <;> simp_all [Binary.value?]
  | finite negative m e =>
    have hvalue : value? x = some (if negative then -((m : ℚ) * 2 ^ e) else m * 2 ^ e) := by
      rw [hvalue, hx, Binary.value?]
    have hposition : (if negative then 0 else Binary.floorMagnitude m e)
        = ⌊if negative then -((m : ℚ) * 2 ^ e) else m * 2 ^ e⌋₊ := by
      cases negative with
      | false => exact Binary.floorMagnitude_eq m e
      | true => exact (Nat.floor_of_nonpos (neg_nonpos.2 (mul_zpow_nonneg m e))).symm
    dsimp only
    rw [Option.some_inj, hposition]
    refine ⟨fun h ↦ h ▸ .number hvalue, fun h ↦ ?_⟩
    cases h with
    | number hq =>
      rw [hvalue] at hq
      cases hq
      rfl
    | negativeInfinity h => simp_all
    | nan h => simp_all

/-- A double is cut to one position at most. -/
theorem CutsTo.unique {x : Float} {k n : ℕ} (hk : CutsTo x k) (hn : CutsTo x n) : k = n :=
  Option.some_inj.1 ((toPosition?_eq_some_iff.2 hk).symm.trans (toPosition?_eq_some_iff.2 hn))

/-- A double that is a position is cut to it. -/
theorem CutsTo.of_value? {x : Float} {n : ℕ} (h : value? x = some (n : ℚ)) : CutsTo x n := by
  have hcut := CutsTo.number h
  rwa [Nat.floor_natCast] at hcut

end ReactiveFrames.Decimal
