import ReactiveFrames.Proofs.Decimal.Equality

/-!
# Integers rounded to doubles

The double of an integer is the one nearest to it, and of two that are equally near the one with an
even mantissa. So an integer that is a double becomes that double: all up to `2 ^ 53` do, and beyond
those with enough trailing zeros in binary.

Rounding shifts a mantissa to the right and keeps two bits of what falls off. They tell where the
exact quotient lies between two mantissas (`Lies`), which is enough to find the nearest one. The
doubles from the lower end of a binade on are the multiples of one unit, and those below are further
away than that end is, so the nearest multiple of the unit is the nearest double.

## Main definitions

* `IsDouble`: the numbers that are doubles.
* `IsNearest`: the double that a number is rounded to.

## Main statements

* `isNearest_ofInt`: the double of an integer is nearest to it.
* `IsNearest.value?`: what is nearest to a number that is a double is that double.
* `isDouble_of_natAbs_le`: the small integers are doubles.
-/

namespace ReactiveFrames.Decimal

open Float.Model (UnpackedFloat Format totalExponent)
open Float.Model.UnpackedFloat (Sign ExtendedMantissa)

/-! ## Nearest doubles -/

/-- Some double is the number. -/
def IsDouble (q : ℚ) : Prop := ∃ x, value? x = some q

/-- The mantissa of the double is even. -/
def HasEvenMantissa (x : Float) : Prop :=
  ∃ negative m e, Binary.ofFloat x = .finite negative m e ∧ 2 ∣ m

/-- No double is nearer to the number, and if another one is as near, then the mantissa of this one
is even. -/
def IsNearest (x : Float) (a : ℚ) : Prop :=
  ∃ q, value? x = some q ∧ ∀ y r, value? y = some r →
    |q - a| ≤ |r - a| ∧ (|r - a| = |q - a| → r = q ∨ HasEvenMantissa x)

/-- A double is nearest to the number that it is. -/
theorem isNearest_of_value? {x : Float} {a : ℚ} (h : value? x = some a) : IsNearest x a := by
  refine ⟨a, h, fun y r _ ↦ ⟨?_, fun heq ↦ .inl ?_⟩⟩
  · rw [sub_self, abs_zero]
    exact abs_nonneg _
  · rw [sub_self, abs_zero, abs_eq_zero, sub_eq_zero] at heq
    exact heq

/-- The nearest double to a number that is a double is that double. -/
theorem IsNearest.value? {x : Float} {a : ℚ} (h : IsNearest x a) (ha : IsDouble a) :
    value? x = some a := by
  obtain ⟨q, hq, hnearest⟩ := h
  obtain ⟨y, hy⟩ := ha
  have hle := (hnearest y a hy).1
  rw [sub_self, abs_zero, abs_nonpos_iff, sub_eq_zero] at hle
  rw [hq, hle]

/-! ## Shifted mantissas -/

/-- Where the quotient lies that a mantissa and the two bits after it stand for: the round bit says
whether it is at least half a unit above the mantissa, and the sticky bit whether it is neither the
mantissa nor half a unit above. -/
inductive Lies : ExtendedMantissa → ℚ → Prop
  | exact {m : ℕ} {x : ℚ} (h : x = m) : Lies ⟨m, false, false⟩ x
  | below {m : ℕ} {x : ℚ} (hlow : m < x) (hhigh : x < m + 1 / 2) : Lies ⟨m, false, true⟩ x
  | half {m : ℕ} {x : ℚ} (h : x = m + 1 / 2) : Lies ⟨m, true, false⟩ x
  | above {m : ℕ} {x : ℚ} (hlow : m + 1 / 2 < x) (hhigh : x < m + 1) : Lies ⟨m, true, true⟩ x

private theorem shiftRightOne_even (k : ℕ) (round sticky : Bool) :
    ExtendedMantissa.shiftRightOne ⟨2 * k, round, sticky⟩ = ⟨k, false, round || sticky⟩ := by
  simp [ExtendedMantissa.shiftRightOne]

private theorem shiftRightOne_odd (k : ℕ) (round sticky : Bool) :
    ExtendedMantissa.shiftRightOne ⟨2 * k + 1, round, sticky⟩ = ⟨k, true, round || sticky⟩ := by
  have hdiv : (2 * k + 1) / 2 = k := by omega
  simp [ExtendedMantissa.shiftRightOne, hdiv]

/-- A shift by one bit halves the quotient. -/
theorem Lies.shiftRightOne {em : ExtendedMantissa} {x : ℚ} (h : Lies em x) :
    Lies em.shiftRightOne (x / 2) := by
  obtain ⟨m, round, sticky⟩ := em
  obtain ⟨k, rfl | rfl⟩ : ∃ k, m = 2 * k ∨ m = 2 * k + 1 := ⟨m / 2, by omega⟩
  · rw [shiftRightOne_even]
    cases h with
    | exact h => exact .exact (by push_cast at h; linarith)
    | below hlow hhigh => push_cast at hlow hhigh; exact .below (by linarith) (by linarith)
    | half h => push_cast at h; exact .below (by linarith) (by linarith)
    | above hlow hhigh => push_cast at hlow hhigh; exact .below (by linarith) (by linarith)
  · rw [shiftRightOne_odd]
    cases h with
    | exact h => exact .half (by push_cast at h; linarith)
    | below hlow hhigh => push_cast at hlow hhigh; exact .above (by linarith) (by linarith)
    | half h => push_cast at h; exact .above (by linarith) (by linarith)
    | above hlow hhigh => push_cast at hlow hhigh; exact .above (by linarith) (by linarith)

/-- Shifts keep the bits true. -/
theorem Lies.shiftRight {em : ExtendedMantissa} {x : ℚ} (h : Lies em x) (n : ℕ) :
    Lies (em >>> n) (x / 2 ^ n) := by
  change Lies (n.repeat ExtendedMantissa.shiftRightOne em) _
  induction n with
  | zero => simpa [Nat.repeat] using h
  | succ n ih =>
    rw [Nat.repeat, pow_succ, ← div_div]
    exact ih.shiftRightOne

/-- The rounded mantissa is at most half a unit away from the quotient, and even if it is as much
as that. -/
theorem Lies.roundedMantissa {em : ExtendedMantissa} {x : ℚ} (h : Lies em x) :
    |(em.roundedMantissa : ℚ) - x| ≤ 1 / 2 ∧
      (|(em.roundedMantissa : ℚ) - x| = 1 / 2 → 2 ∣ em.roundedMantissa) := by
  cases h with
  | @exact m x h =>
    change |(m : ℚ) - x| ≤ 1 / 2 ∧ (|(m : ℚ) - x| = 1 / 2 → 2 ∣ m)
    rw [h, sub_self, abs_zero]
    norm_num
  | @below m x hlow hhigh =>
    change |(m : ℚ) - x| ≤ 1 / 2 ∧ (|(m : ℚ) - x| = 1 / 2 → 2 ∣ m)
    rw [abs_of_neg (by linarith)]
    exact ⟨by linarith, fun h ↦ by linarith⟩
  | @half m x h =>
    change |((m + m % 2 : ℕ) : ℚ) - x| ≤ 1 / 2 ∧ (_ → 2 ∣ m + m % 2)
    refine ⟨?_, fun _ ↦ by omega⟩
    have hmod : ((m % 2 : ℕ) : ℚ) = 0 ∨ ((m % 2 : ℕ) : ℚ) = 1 := by
      rcases Nat.mod_two_eq_zero_or_one m with h | h <;> simp [h]
    rw [h, Nat.cast_add, abs_le]
    rcases hmod with h | h <;> rw [h] <;> constructor <;> linarith
  | @above m x hlow hhigh =>
    change |((m + 1 : ℕ) : ℚ) - x| ≤ 1 / 2 ∧ (|((m + 1 : ℕ) : ℚ) - x| = 1 / 2 → 2 ∣ m + 1)
    rw [Nat.cast_add, Nat.cast_one, abs_of_pos (by linarith)]
    exact ⟨by linarith, fun h ↦ by linarith⟩

/-! ## Rounding -/

private theorem shiftToTargetExponent_eq {m t : ℕ} {e : ℤ} (hm : m.log2 = 52 + t)
    (he : -1074 ≤ e + t) :
    UnpackedFloat.shiftToTargetExponent Format.binary64 m e .exact
      = ((⟨m, false, false⟩ : ExtendedMantissa) >>> t, e + t) := by
  have htarget : Format.binary64.targetExponent (totalExponent m e) = e + t := by
    change max ((m.log2 : ℤ) + 1 + e - 53) (-1074) = e + t
    rw [hm]
    omega
  rw [UnpackedFloat.shiftToTargetExponent, htarget, UnpackedFloat.shiftToExponent,
    add_sub_cancel_left, Int.toNat_natCast]
  rfl

private theorem ne_zero_of_log2 {m t : ℕ} (hm : m.log2 = 52 + t) : m ≠ 0 := by
  rintro rfl
  rw [Nat.log2_zero] at hm
  omega

/-- What an exact product `m * 2 ^ e` with at least fifty-three bits is rounded to: the nearest
multiple of the unit `2 ^ u`, in canonical form. -/
structure Rounds (a : ℚ) (u : ℤ) (m : ℕ) (e : ℤ) : Prop where
  canonical : Canonical m e
  near : |(m : ℚ) * 2 ^ e - a| ≤ 2 ^ u / 2
  even : |(m : ℚ) * 2 ^ e - a| = 2 ^ u / 2 → 2 ∣ m
  full : 2 ^ 52 ≤ m
  unit_le : u ≤ e
  le_succ : e ≤ u + 1

/-- A rounded mantissa of fifty-three bits is in canonical form, up to a carry. -/
private theorem exists_carry {s : Sign} {r : ℕ} {u : ℤ} (hlow : 2 ^ 52 ≤ r) (hhigh : r ≤ 2 ^ 53)
    (hu : -1074 ≤ u) (hu' : u < 971) {m : ℕ} {e : ℤ}
    (hshift : (UnpackedFloat.shiftToTargetExponent Format.binary64 m e .exact).1.roundedMantissa
      = r)
    (hexponent : (UnpackedFloat.shiftToTargetExponent Format.binary64 m e .exact).2 = u) :
    ∃ m' e', ∃ h : Canonical m' e',
      UnpackedFloat.roundWithAccuracy .binary64 s m e .exact = .finite s m' e' h.pos ∧
        (m' : ℚ) * 2 ^ e' = r * 2 ^ u ∧ (2 ∣ r → 2 ∣ m') ∧ 2 ^ 52 ≤ m' ∧ u ≤ e' ∧ e' ≤ u + 1 := by
  rw [UnpackedFloat.roundWithAccuracy]
  dsimp only
  rw [hshift, hexponent]
  rcases Nat.lt_or_eq_of_le hhigh with hlt | rfl
  · have hne : r ≠ 0 := by omega
    have hlog : r.log2 = 52 + 0 := (Nat.log2_eq_iff hne).2 ⟨hlow, hlt⟩
    rw [shiftToTargetExponent_eq hlog (by omega), Nat.cast_zero, add_zero]
    have hc : Canonical r u := ⟨by omega, hlt, hu, hu'.le, .inl hlow⟩
    exact ⟨r, u, hc, dif_neg hne, rfl, id, hlow, le_rfl, by omega⟩
  · rw [shiftToTargetExponent_eq (t := 1) (by rw [Nat.log2_two_pow]) (by omega)]
    have hc : Canonical (2 ^ 52) (u + 1) :=
      ⟨by norm_num, by norm_num, by omega, by omega, .inl le_rfl⟩
    refine ⟨2 ^ 52, u + 1, hc, rfl, ?_, fun _ ↦ by norm_num, le_rfl, by omega, le_rfl⟩
    rw [zpow_add₀ two_ne_zero]
    push_cast
    ring

/-- An exact product whose mantissa has `53 + t` bits is rounded to the nearest multiple of the
unit that is `t` bits higher. -/
theorem exists_roundWithAccuracy {s : Sign} {m t : ℕ} {e : ℤ} (hm : m.log2 = 52 + t)
    (hlow : -1074 ≤ e + t) (hhigh : e + t < 971) :
    ∃ m' e', ∃ h : Rounds (m * 2 ^ e) (e + t) m' e',
      UnpackedFloat.roundWithAccuracy .binary64 s m e .exact
        = .finite s m' e' h.canonical.pos := by
  have hlies : Lies ((⟨m, false, false⟩ : ExtendedMantissa) >>> t) (m / 2 ^ t) :=
    Lies.shiftRight (.exact rfl) t
  obtain ⟨hnear, heven⟩ := hlies.roundedMantissa
  have hshift := shiftToTargetExponent_eq hm hlow
  generalize (⟨m, false, false⟩ : ExtendedMantissa) >>> t = em at hnear heven hshift
  generalize hr : em.roundedMantissa = r at hnear heven
  have hne := ne_zero_of_log2 hm
  -- The quotient has fifty-three bits, so it is rounded to a mantissa of as many, or to `2 ^ 53`.
  have hquotient : (2 ^ 52 : ℚ) ≤ m / 2 ^ t ∧ (m / 2 ^ t : ℚ) < 2 ^ 53 := by
    obtain ⟨hle, hlt⟩ := (Nat.log2_eq_iff hne).1 hm
    rw [Nat.add_right_comm] at hlt
    rw [le_div_iff₀ (by positivity), div_lt_iff₀ (by positivity), ← pow_add, ← pow_add]
    exact ⟨by exact_mod_cast hle, by exact_mod_cast hlt⟩
  obtain ⟨hbelow, habove⟩ := abs_le.1 hnear
  have hrlow : 2 ^ 52 ≤ r := by
    have : ((2 ^ 52 : ℕ) : ℚ) - 1 < r := by push_cast; linarith
    have : (2 ^ 52 : ℕ) < r + 1 := by exact_mod_cast sub_lt_iff_lt_add.1 this
    omega
  have hrhigh : r ≤ 2 ^ 53 := by
    have : (r : ℚ) < (2 ^ 53 : ℕ) + 1 := by push_cast; linarith
    have : r < 2 ^ 53 + 1 := by exact_mod_cast this
    omega
  obtain ⟨m', e', hc, hround, hvalue, hcarry, hfull, hunit_le, hle_succ⟩ :=
    exists_carry (s := s) hrlow hrhigh hlow hhigh (by rw [hshift, hr]) (by rw [hshift])
  -- Scaled by the unit, the distance is that of the mantissa to the quotient.
  have hdistance : (m' : ℚ) * 2 ^ e' - m * 2 ^ e = (r - m / 2 ^ t) * 2 ^ (e + t) := by
    rw [hvalue, zpow_add₀ two_ne_zero, zpow_natCast]
    field_simp
  have hunit : (0 : ℚ) < 2 ^ (e + t) := zpow_pos two_pos _
  have habs : |(m' : ℚ) * 2 ^ e' - m * 2 ^ e| = |(r : ℚ) - m / 2 ^ t| * 2 ^ (e + t) := by
    rw [hdistance, abs_mul, abs_of_pos hunit]
  refine ⟨m', e', ⟨hc, ?_, fun h ↦ hcarry (heven ?_), hfull, hunit_le, hle_succ⟩, hround⟩
  · rw [habs]
    linarith [mul_le_mul_of_nonneg_right hnear hunit.le]
  · rw [habs] at h
    exact mul_right_cancel₀ hunit.ne' (by rw [h]; ring)

/-- Two multiples of a unit are the same, or at least the unit apart. -/
private theorem eq_or_le_abs_sub {u : ℤ} (j k : ℕ) :
    (j : ℚ) * 2 ^ u = k * 2 ^ u ∨ (2 ^ u : ℚ) ≤ |(j : ℚ) * 2 ^ u - k * 2 ^ u| := by
  have hunit : (0 : ℚ) < 2 ^ u := zpow_pos two_pos u
  rcases eq_or_ne j k with rfl | hne
  · exact .inl rfl
  · have hone : 1 ≤ |(j : ℤ) - k| := Int.one_le_abs (by omega)
    have hone' : (1 : ℚ) ≤ |(j : ℚ) - k| := by exact_mod_cast hone
    right
    rw [← sub_mul, abs_mul, abs_of_pos hunit]
    exact le_mul_of_one_le_left hunit.le hone'

/-- What is made with a higher exponent is a multiple of the unit. -/
private theorem exists_multiple (m : ℕ) {u e : ℤ} (h : u ≤ e) :
    ∃ k : ℕ, (m : ℚ) * 2 ^ e = k * 2 ^ u := by
  obtain ⟨k, rfl⟩ := Int.le.dest h
  refine ⟨m * 2 ^ k, ?_⟩
  rw [zpow_add₀ two_ne_zero, zpow_natCast]
  push_cast
  ring

/-- A multiple of the unit is not rounded. -/
theorem Rounds.eq_of_multiple {a : ℚ} {u : ℤ} {m : ℕ} {e : ℤ} (h : Rounds a u m e)
    (ha : ∃ k : ℕ, a = k * 2 ^ u) : (m : ℚ) * 2 ^ e = a := by
  obtain ⟨j, hj⟩ := exists_multiple m h.unit_le
  obtain ⟨k, rfl⟩ := ha
  have hunit : (0 : ℚ) < 2 ^ u := zpow_pos two_pos u
  have hnear := h.near
  rw [hj] at hnear ⊢
  exact (eq_or_le_abs_sub j k).resolve_right fun hapart ↦ by linarith

/-- A canonical form is a multiple of the unit, or less than the first mantissa of fifty-three bits
makes with it. -/
theorem Canonical.multiple_or_lt {m : ℕ} {e : ℤ} (h : Canonical m e) (u : ℤ) :
    (∃ k : ℕ, (m : ℚ) * 2 ^ e = k * 2 ^ u) ∨ (m : ℚ) * 2 ^ e < 2 ^ 52 * 2 ^ u := by
  rcases le_or_gt u e with hu | hu
  · exact .inl (exists_multiple m hu)
  · exact .inr (h.lt_two_pow_mul hu)

/-- A double is a multiple of the unit, or less than the first mantissa of fifty-three bits makes
with it. -/
theorem multiple_or_lt_of_value? {y : Float} {r : ℚ} (h : value? y = some r) (u : ℤ) :
    (∃ k : ℕ, r = k * 2 ^ u) ∨ r < 2 ^ 52 * 2 ^ u := by
  have hfirst : (0 : ℚ) < 2 ^ 52 * 2 ^ u := mul_pos (by norm_num) (zpow_pos two_pos u)
  rcases cases_of_value? h with ⟨s, rfl⟩ | ⟨s, m, e, hc, rfl⟩
  · rw [value?_zero] at h
    cases h
    exact .inr hfirst
  · rw [value?_ofForm hc] at h
    cases h
    cases s with
    | false => exact hc.multiple_or_lt u
    | true =>
      have : (0 : ℚ) ≤ m * 2 ^ e := mul_nonneg (Nat.cast_nonneg m) (zpow_pos two_pos e).le
      exact .inr (by simp only [if_true]; linarith)

/-- From the lower end of a binade on, the nearest multiple of its unit is the nearest double. -/
theorem Rounds.isNearest {a : ℚ} {u : ℤ} {m : ℕ} {e : ℤ} (h : Rounds a u m e)
    (ha : 2 ^ 52 * 2 ^ u ≤ a) : IsNearest (ofForm false m e h.canonical.pos) a := by
  obtain ⟨j, hj⟩ := exists_multiple m h.unit_le
  refine ⟨m * 2 ^ e, value?_ofForm h.canonical, fun y r hr ↦ ?_⟩
  -- Another multiple of the unit is no nearer.
  have hmultiple (k : ℕ) : |(m : ℚ) * 2 ^ e - a| ≤ |(k : ℚ) * 2 ^ u - a| ∧
      (|(k : ℚ) * 2 ^ u - a| = |(m : ℚ) * 2 ^ e - a| →
        (k : ℚ) * 2 ^ u = m * 2 ^ e ∨ HasEvenMantissa (ofForm false m e h.canonical.pos)) := by
    rcases eq_or_le_abs_sub (u := u) k j with heq | hapart
    · rw [heq, ← hj]
      exact ⟨le_rfl, fun _ ↦ .inl rfl⟩
    · have htriangle := abs_sub_le ((k : ℚ) * 2 ^ u) a (m * 2 ^ e)
      rw [abs_sub_comm a, hj] at htriangle
      have hnear := h.near
      rw [hj] at hnear ⊢
      refine ⟨by linarith, fun heq ↦ .inr ⟨false, m, e, ofFloat_ofForm h.canonical, h.even ?_⟩⟩
      rw [hj]
      linarith
  rcases multiple_or_lt_of_value? hr u with ⟨k, rfl⟩ | hlt
  · exact hmultiple k
  · -- The lower end of the binade is a multiple, and nearer than what is below it.
    have hend := (hmultiple (2 ^ 52)).1
    rw [Nat.cast_pow, Nat.cast_ofNat] at hend
    have hnearer : |2 ^ 52 * 2 ^ u - a| < |r - a| := by
      rw [abs_of_nonpos (by linarith), abs_of_neg (by linarith)]
      linarith
    exact ⟨by linarith, fun heq ↦ by linarith⟩

/-- An exact product whose mantissa has fifty-three bits or more is rounded to the nearest
double. -/
theorem isNearest_roundWithAccuracy {m t : ℕ} {e : ℤ} (hm : m.log2 = 52 + t)
    (hlow : -1074 ≤ e + t) (hhigh : e + t < 971) :
    IsNearest (.ofModel (.pack (UnpackedFloat.roundWithAccuracy .binary64 .positive m e .exact)))
      (m * 2 ^ e) := by
  obtain ⟨m', e', hrounds, hround⟩ := exists_roundWithAccuracy (s := .positive) hm hlow hhigh
  rw [hround]
  refine hrounds.isNearest ?_
  have hne := ne_zero_of_log2 hm
  have hle : 2 ^ (52 + t) ≤ m := ((Nat.log2_eq_iff hne).1 hm).1
  calc (2 ^ 52 * 2 ^ (e + t) : ℚ) = (2 ^ (52 + t) : ℕ) * 2 ^ e := by
        rw [zpow_add₀ two_ne_zero, zpow_natCast, pow_add]
        push_cast
        ring
    _ ≤ m * 2 ^ e := by
        gcongr

/-! ## Integers -/

private theorem log2_mul_two_pow {n : ℕ} (hn : n ≠ 0) (k : ℕ) :
    (n * 2 ^ k).log2 = n.log2 + k := by
  obtain ⟨hle, hlt⟩ := (Nat.log2_eq_iff hn).1 rfl
  refine (Nat.log2_eq_iff (by positivity)).2 ⟨?_, ?_⟩
  · rw [pow_add]
    exact Nat.mul_le_mul_right _ hle
  · rw [Nat.add_right_comm, pow_add]
    exact Nat.mul_lt_mul_of_pos_right hlt (by positivity)

private theorem unpack_one :
    ∃ h, (Float.exactlyRepresentablePowersOfTen[0]).toModel.unpack
      = .finite .positive (2 ^ 52) (-52) h :=
  ⟨by decide, by rfl⟩

/-- An integer of at most fifty-three bits is shifted to the left, and not rounded. -/
private theorem exists_toFloat {n : ℕ} (hpos : 0 < n) (hn : n < 2 ^ 53) :
    ∃ m e, ∃ h : Canonical m e, 2 ^ 52 ≤ m ∧ -1074 ≤ e ∧ e < 971 ∧ (m : ℚ) * 2 ^ e = n ∧
      n.toUInt64.toFloat = ofForm false m e h.pos := by
  have hlog : n.log2 < 53 := (Nat.log2_lt hpos.ne').2 hn
  obtain ⟨k, hk⟩ : ∃ k, n.log2 + k = 52 := ⟨52 - n.log2, by omega⟩
  have hmantissa : (n <<< k).log2 = 52 + 0 := by
    rw [Nat.shiftLeft_eq, log2_mul_two_pow hpos.ne', hk]
  obtain ⟨m, e, hrounds, hround⟩ :=
    exists_roundWithAccuracy (s := .positive) (e := -k) hmantissa (by omega) (by omega)
  rw [Nat.cast_zero, add_zero] at hrounds
  have hvalue : (m : ℚ) * 2 ^ e = n := by
    rw [hrounds.eq_of_multiple ⟨_, rfl⟩, Nat.shiftLeft_eq, Nat.cast_mul, Nat.cast_pow, mul_assoc,
      Nat.cast_ofNat, ← zpow_natCast, ← zpow_add₀ two_ne_zero, add_neg_cancel, zpow_zero, mul_one]
  have hle := hrounds.unit_le
  have hle' := hrounds.le_succ
  refine ⟨m, e, hrounds.canonical, hrounds.full, by omega, by omega, hvalue, ?_⟩
  have htarget : Format.binary64.targetExponent (totalExponent n 0) = -k := by
    change max ((n.log2 : ℤ) + 1 + 0 - 53) (-1074) = -k
    omega
  have hword : n.toUInt64.toNat = n := by
    rw [Nat.toUInt64_eq, UInt64.toNat_ofNat']
    omega
  have hnormalize : UnpackedFloat.normalize Format.binary64 n 0 .positive
      = .finite .positive m e hrounds.canonical.pos := by
    have hcompare : compare (n : ℤ) 0 = .gt := compare_gt_iff_gt.2 (by omega)
    rw [UnpackedFloat.normalize, hcompare]
    dsimp only
    rw [Int.toNat_natCast, UnpackedFloat.round, htarget, UnpackedFloat.decreaseExponent,
      zero_sub, neg_neg, Int.toNat_natCast, zero_sub]
    exact hround
  change Float.ofModel (.pack (UnpackedFloat.normalize Format.binary64
    (n.toUInt64.toNat : ℕ) 0 .positive)) = _
  rw [hword, hnormalize]
  rfl

private theorem mul_two_pow_mul_zpow (m k : ℕ) (e : ℤ) :
    ((m * 2 ^ k : ℕ) : ℚ) * 2 ^ (e + -k) = m * 2 ^ e := by
  rw [Nat.cast_mul, Nat.cast_pow, Nat.cast_ofNat, zpow_add₀ two_ne_zero, zpow_neg, zpow_natCast]
  field_simp

/-- The double read for a natural number is nearest to it. -/
theorem isNearest_ofScientific {n : ℕ} (hn : n < 2 ^ 64) :
    IsNearest (Float.ofScientific n false 0) n := by
  rcases Nat.eq_zero_or_pos n with rfl | hpos
  · exact isNearest_of_value? (value?_zero false)
  rw [Float.ofScientific]
  by_cases hsmall : n < 2 ^ 53
  · -- The exact double is multiplied by one.
    rw [dif_pos ⟨hsmall, Nat.zero_le 22⟩]
    obtain ⟨m, e, hc, hfull, hlow, hhigh, hvalue, hfloat⟩ := exists_toFloat hpos hsmall
    obtain ⟨hone, hunpack⟩ := unpack_one
    have hlog : (m * 2 ^ 52).log2 = 52 + 52 := by
      rw [log2_mul_two_pow hc.ne_zero, (Nat.log2_eq_iff hc.ne_zero).2 ⟨hfull, hc.lt⟩]
    have hnearest := isNearest_roundWithAccuracy (e := e + -(52 : ℕ)) hlog (by omega) (by omega)
    rw [mul_two_pow_mul_zpow, hvalue] at hnearest
    have hproduct : UnpackedFloat.mul Format.binary64 (n.toUInt64.toFloat).toModel.unpack
        (Float.exactlyRepresentablePowersOfTen[0]).toModel.unpack
          = .roundWithAccuracy .binary64 .positive (m * 2 ^ 52) (e + -(52 : ℕ)) .exact := by
      have hunpack' : (ofForm false m e hc.pos).toModel.unpack = .finite .positive m e hc.pos :=
        unpack_pack hc
      rw [hfloat, hunpack, hunpack']
      rfl
    rw [← hproduct] at hnearest
    exact hnearest
  · rw [dif_neg fun h ↦ hsmall h.1]
    have hlog : n.log2 < 64 := (Nat.log2_lt hpos.ne').2 hn
    have hlog' : 53 ≤ n.log2 := (Nat.le_log2 hpos.ne').2 (not_lt.1 hsmall)
    have hmantissa : (n * 2 ^ 53).log2 = 52 + (n.log2 + 1) := by
      rw [log2_mul_two_pow hpos.ne']
      omega
    have hnearest := isNearest_roundWithAccuracy (e := 0 + -(53 : ℕ)) hmantissa (by omega)
      (by omega)
    rw [mul_two_pow_mul_zpow, zpow_zero, mul_one] at hnearest
    have hproduct : UnpackedFloat.ofScientific Format.binary64 n 0
        = .roundWithAccuracy .binary64 .positive (n * 2 ^ 53) (0 + -(53 : ℕ)) .exact := by
      have hbits : Format.binary64.mantissaBits = 53 := rfl
      have hsafe : ¬(0 : ℤ) < -((2 ^ Format.binary64.exponentBits : ℤ) + n.log2) := by
        have : (0 : ℤ) < 2 ^ Format.binary64.exponentBits := by positivity
        omega
      rw [UnpackedFloat.ofScientific, dif_neg hpos.ne', if_neg (by decide), if_neg hsafe,
        if_pos le_rfl]
      rw [UnpackedFloat.mul, hbits, Nat.shiftLeft_eq, Int.toNat_zero, pow_zero, mul_one,
        add_comm (-_) (0 : ℤ)]
      rfl
    rw [← hproduct] at hnearest
    exact hnearest

/-! ## Negation -/

theorem ofFloat_neg {x : Float} {negative : Bool} {m : ℕ} {e : ℤ}
    (h : Binary.ofFloat x = .finite negative m e) :
    Binary.ofFloat (-x) = .finite (!negative) m e := by
  rcases Nat.eq_zero_or_pos m with rfl | hm
  · have hzero (s : Bool) : Binary.ofFloat (if s then -0.0 else 0.0) = .finite s 0 (-1074) := by
      cases s <;> decide +kernel
    have hneg : (-if negative then -0.0 else 0.0 : Float) = if !negative then -0.0 else 0.0 := by
      cases negative <;> rfl
    obtain rfl := eq_zero_of_ofFloat h
    rw [hzero, Binary.finite.injEq] at h
    rw [hneg, hzero, h.2.2]
  · obtain ⟨hc, rfl⟩ := eq_ofForm h hm
    have hunpack : (ofForm negative m e hm).toModel.unpack = .finite (signOf negative) m e hm :=
      unpack_pack hc
    have hneg : -ofForm negative m e hm = ofForm (!negative) m e hm := by
      change Float.ofModel (.pack (UnpackedFloat.neg (ofForm negative m e hm).toModel.unpack)) = _
      rw [hunpack]
      cases negative <;> rfl
    rw [hneg, ofFloat_ofForm hc]

theorem value?_neg {x : Float} {q : ℚ} (h : value? x = some q) : value? (-x) = some (-q) := by
  obtain ⟨negative, m, e, hx, rfl⟩ := exists_ofFloat_of_value? h
  rw [value?, ofFloat_neg hx, Binary.value?]
  cases negative <;> simp

theorem IsNearest.neg {x : Float} {a : ℚ} (h : IsNearest x a) : IsNearest (-x) (-a) := by
  obtain ⟨q, hq, hnearest⟩ := h
  have hdistance (r : ℚ) : |r - -a| = |-r - a| := by
    rw [← abs_neg]
    congr 1
    ring
  refine ⟨-q, value?_neg hq, fun y r hr ↦ ?_⟩
  obtain ⟨hle, htie⟩ := hnearest (-y) (-r) (value?_neg hr)
  rw [hdistance, hdistance r, neg_neg]
  refine ⟨hle, fun heq ↦ (htie heq).imp (fun h ↦ by rw [← h, neg_neg]) ?_⟩
  rintro ⟨negative, m, e, hread, heven⟩
  exact ⟨!negative, m, e, ofFloat_neg hread, heven⟩

/-- The double of an integer is nearest to it. -/
theorem isNearest_ofInt {i : ℤ} (hlow : minInt64 ≤ i) (hhigh : i ≤ maxInt64) :
    IsNearest (Float.ofInt i) i := by
  rw [minInt64] at hlow
  rw [maxInt64] at hhigh
  cases i with
  | ofNat n =>
    rw [Int.ofNat_eq_natCast] at hhigh
    exact isNearest_ofScientific (by omega)
  | negSucc n =>
    rw [Int.cast_negSucc]
    exact (isNearest_ofScientific (by omega)).neg

/-- All integers up to `2 ^ 53` are doubles. -/
theorem isDouble_of_natAbs_le {i : ℤ} (h : i.natAbs ≤ 2 ^ 53) : IsDouble i := by
  have hnat (n : ℕ) (hn : n ≤ 2 ^ 53) : IsDouble n := by
    rcases Nat.eq_zero_or_pos n with rfl | hpos
    · exact ⟨0.0, value?_zero false⟩
    rcases Nat.lt_or_eq_of_le hn with hlt | rfl
    · obtain ⟨m, e, hc, -, -, -, hvalue, -⟩ := exists_toFloat hpos hlt
      exact ⟨_, (@value?_ofForm false _ _ hc).trans (congrArg some hvalue)⟩
    · have hc : Canonical (2 ^ 52) 1 := by
        constructor <;> norm_num
      refine ⟨_, (@value?_ofForm false _ _ hc).trans (congrArg some ?_)⟩
      norm_num
  obtain ⟨y, hy⟩ := hnat _ h
  rcases Int.natAbs_eq i with hi | hi
  · exact ⟨y, by rw [hi, Int.cast_natCast, hy]⟩
  · exact ⟨-y, by rw [hi, Int.cast_neg, Int.cast_natCast, value?_neg hy]⟩

end ReactiveFrames.Decimal
