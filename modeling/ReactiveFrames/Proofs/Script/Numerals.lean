import ReactiveFrames.Proofs.Decimal.Rounding
import ReactiveFrames.Proofs.Frame.Cutting
import ReactiveFrames.Proofs.Script.Locations

/-!
# Printed integers

A script prints a number that is an integer with a magnitude below `10 ^ 21` by way of a signed
sixty-four bit integer. An integer of that range is printed by its decimal numeral, and the numeral
is read back as the same number, since that is the double nearest to it. What is beyond the range is
clamped, so all numbers at one end of it have the same text. The texts are also the names of
properties that are selected by a number.

## Main statements

* `ofScript_eq_toString_clamp`: the text of an integer is the numeral of the clamped one.
* `float?_toString`: a numeral is read as the double nearest to it.
* `Script.prints_integers`: which integers are printed exactly, which have the same text, and what
  the texts name.
-/

namespace ReactiveFrames

open Text (isBlank)

namespace Decimal

/-! ## Texts -/

theorem toInt64_of_value? {x : Float} {i : ℤ} (h : value? x = some (i : ℚ)) :
    toInt64 x = clamp minInt64 maxInt64 i := by
  obtain ⟨negative, m, e, hx, -, rfl⟩ := exists_isWhole_of_value? h
  rw [toInt64, hx]

/-- The text of an integer below the limit is the numeral of the integer that it is clamped to. -/
theorem ofScript_eq_toString_clamp {x : Float} {i : ℤ} (h : value? x = some (i : ℚ))
    (hi : |i| < 10 ^ 21) : ofScript x = toString (clamp minInt64 maxInt64 i) := by
  obtain ⟨negative, m, e, hx, hw, rfl⟩ := exists_isWhole_of_value? h
  have hmagnitude : Binary.floorMagnitude m e < scriptWholeLimit := by
    have hlimit : scriptWholeLimit = 10 ^ 21 := rfl
    have habs : |Binary.signed negative (Binary.floorMagnitude m e)|
        = Binary.floorMagnitude m e := by
      cases negative <;> simp [Binary.signed]
    rw [habs] at hi
    rw [hlimit]
    exact_mod_cast hi
  rw [ofScript, ← toInt64_of_value? h, hx]
  dsimp only
  rw [hw, Bool.true_and, if_pos (decide_eq_true hmagnitude)]

theorem clamp_eq_self_iff {i : ℤ} :
    clamp minInt64 maxInt64 i = i ↔ minInt64 ≤ i ∧ i ≤ maxInt64 := by
  rw [clamp, minInt64, maxInt64]
  omega

theorem clamp_eq_clamp_iff {i j : ℤ} :
    clamp minInt64 maxInt64 i = clamp minInt64 maxInt64 j ↔
      i = j ∨ maxInt64 ≤ i ∧ maxInt64 ≤ j ∨ i ≤ minInt64 ∧ j ≤ minInt64 := by
  rw [clamp, clamp, minInt64, maxInt64]
  omega

/-! ## Numerals read back -/

/-- Digits are read as the double nearest to their number. -/
theorem magnitude?_toDigits {n : ℕ} (hn : n < 2 ^ 64) :
    ∃ y, magnitude? (Nat.toDigits 10 n) = some y ∧ IsNearest y n := by
  have hdigits := allDigits_toDigits n
  have hspan : spanDigits (Nat.toDigits 10 n) = (Nat.toDigits 10 n, []) :=
    Prod.ext (List.takeWhile_eq_self_iff.2 hdigits) (List.dropWhile_eq_nil_iff.2 hdigits)
  refine ⟨nearest n 0 (Nat.toDigits 10 n).length, ?_, ?_⟩
  · simp [magnitude?, hspan, Nat.toDigits_ne_nil, ofDigits_toDigits]
  · rw [nearest]
    split_ifs with hzero hlarge
    · obtain rfl : n = 0 := by omega
      exact isNearest_of_value? (value?_zero false)
    · omega
    · exact isNearest_ofScientific hn

/-- A numeral is read as the double nearest to its number. -/
theorem float?_toString {i : ℤ} (hlow : minInt64 ≤ i) (hhigh : i ≤ maxInt64) :
    ∃ y, float? (toString i).toList = some y ∧ IsNearest y i := by
  rw [minInt64] at hlow
  rw [maxInt64] at hhigh
  obtain ⟨y, hread, hnearest⟩ := magnitude?_toDigits (n := i.natAbs) (by omega)
  rw [toList_toString]
  by_cases hi : i < 0
  · refine ⟨-y, ?_, ?_⟩
    · simp [float?, hi, hread]
    · have hvalue : (i : ℚ) = -(i.natAbs : ℚ) := by
        rw [Nat.cast_natAbs, abs_of_neg hi, Int.cast_neg, neg_neg]
      rw [hvalue]
      exact hnearest.neg
  · obtain ⟨c, rest, hcons⟩ := List.exists_cons_of_ne_nil
      (Nat.toDigits_ne_nil : Nat.toDigits 10 i.natAbs ≠ [])
    have hc : isDigit c = true := allDigits_toDigits i.natAbs c (by simp [hcons])
    have hminus : c ≠ '-' := by
      rintro rfl
      cases hc
    have hplus : c ≠ '+' := by
      rintro rfl
      cases hc
    refine ⟨y, ?_, ?_⟩
    · rw [if_neg hi, List.nil_append]
      rw [hcons] at hread ⊢
      simp [float?, hminus, hplus, hread]
    · have hvalue : (i : ℚ) = (i.natAbs : ℚ) := by
        rw [Nat.cast_natAbs, abs_of_nonneg (not_lt.1 hi)]
      rwa [hvalue]

end Decimal

namespace Script

open Decimal (value? ofScript IsNearest minInt64 maxInt64 clamp)

/-! ## Conversion -/

theorem Value.trimmed_eq_toList {s : String} (h : ∀ c ∈ s.toList, isBlank c = false) :
    Value.trimmed s = s.toList := by
  have hkeep {t : List Char} (ht : ∀ c ∈ t, isBlank c = false) : t.dropWhile isBlank = t := by
    rw [List.dropWhile_eq_self_iff]
    intro hl
    rw [ht _ (List.getElem_mem hl)]
    exact Bool.false_ne_true
  rw [Value.trimmed, hkeep h, hkeep, List.reverse_reverse]
  exact fun c hc ↦ h c (List.mem_reverse.1 hc)

/-- A numeral converts to the double nearest to its number. -/
theorem isNearest_toNumber_toString {i : ℤ} (hlow : minInt64 ≤ i) (hhigh : i ≤ maxInt64) :
    IsNearest (Value.string (toString i)).toNumber i := by
  obtain ⟨y, hread, hnearest⟩ := Decimal.float?_toString hlow hhigh
  have hblank : ∀ c ∈ (toString i).toList, isBlank c = false := by
    intro c hc
    rw [Decimal.toList_toString, List.mem_append] at hc
    rcases hc with hc | hc
    · split at hc
      · rw [List.mem_singleton.1 hc]
        rfl
      · cases hc
    · exact FrameLexeme.isBlank_eq_false_of_isDigit (Decimal.allDigits_toDigits _ c hc)
  have hne : (toString i).toList.isEmpty = false := by
    rw [Decimal.toList_toString, List.isEmpty_eq_false_iff]
    exact List.append_ne_nil_of_right_ne_nil _ Nat.toDigits_ne_nil
  have hnumber : (Value.string (toString i)).toNumber = y := by
    rw [Value.toNumber, Value.trimmed_eq_toList hblank, hne, hread]
    rfl
  rwa [hnumber]

/-- An integer of sixty-four bits that is a double is converted back from its text. -/
theorem value?_toNumber_ofScript {x : Float} {i : ℤ} (hx : value? x = some (i : ℚ))
    (hlow : minInt64 ≤ i) (hhigh : i ≤ maxInt64) (hi : |i| < 10 ^ 21) :
    value? (Value.string (ofScript x)).toNumber = some (i : ℚ) := by
  rw [Decimal.ofScript_eq_toString_clamp hx hi, Decimal.clamp_eq_self_iff.2 ⟨hlow, hhigh⟩]
  exact (isNearest_toNumber_toString hlow hhigh).value? ⟨x, hx⟩

/-! ## Names of properties -/

/-- What a number selects in the value is an item or a character. In every other value it is a
property. -/
def Value.IsSequence : Value → Prop
  | .array _ | .string _ => True
  | _ => False

/-- A property that is selected by a number is named by the text of the number. -/
theorem readIndex_number {σ : Type} (host : Host σ) {object : Value} (h : ¬object.IsSequence)
    (x : Float) : readIndex host object (.number x) = readMember host object (ofScript x) := by
  cases object with
  | array ref => exact absurd trivial h
  | string s => exact absurd trivial h
  | _ => rfl

theorem writeIndex_number {σ : Type} (host : Host σ) {object : Value} (h : ¬object.IsSequence)
    (x : Float) (v : Value) :
    writeIndex host object (.number x) v = writeMember host object (ofScript x) v := by
  cases object with
  | array ref => exact absurd trivial h
  | string s => exact absurd trivial h
  | _ => rfl

/-- An integer below the limit is printed by the numeral of the integer that it is clamped to. So it
is printed by its own exactly if it has sixty-four bits, and that numeral converts back to the
number. Two such integers have the same text exactly if they are the same, or are clamped to the
same end of the range. The texts are the names of the properties that the numbers select. -/
theorem prints_integers {x y : Float} {i j : ℤ} (hx : value? x = some (i : ℚ))
    (hy : value? y = some (j : ℚ)) (hi : |i| < 10 ^ 21) (hj : |j| < 10 ^ 21) :
    ofScript x = toString (clamp minInt64 maxInt64 i) ∧
      (ofScript x = toString i ↔ minInt64 ≤ i ∧ i ≤ maxInt64) ∧
      (minInt64 ≤ i → i ≤ maxInt64 → ((Value.string (ofScript x)).toNumber == x) = true) ∧
      (ofScript x = ofScript y ↔
        i = j ∨ maxInt64 ≤ i ∧ maxInt64 ≤ j ∨ i ≤ minInt64 ∧ j ≤ minInt64) ∧
      ∀ {σ : Type} (host : Host σ) (object : Value), ¬object.IsSequence →
        readIndex host object (.number x) = readMember host object (ofScript x) ∧
        ∀ v, writeIndex host object (.number x) v = writeMember host object (ofScript x) v := by
  refine ⟨Decimal.ofScript_eq_toString_clamp hx hi, ?_, ?_, ?_,
    fun host object h ↦ ⟨readIndex_number host h x, writeIndex_number host h x⟩⟩
  · rw [Decimal.ofScript_eq_toString_clamp hx hi, ← Decimal.clamp_eq_self_iff]
    exact Int.repr_inj
  · intro hlow hhigh
    exact (Decimal.beq_iff_value?_eq (value?_toNumber_ofScript hx hlow hhigh hi) hx).2 rfl
  · rw [Decimal.ofScript_eq_toString_clamp hx hi, Decimal.ofScript_eq_toString_clamp hy hj,
      ← Decimal.clamp_eq_clamp_iff]
    exact Int.repr_inj

private theorem value?_of_finite {x : Float} {m : ℕ} {e : ℤ}
    (h : Decimal.Binary.ofFloat x = .finite false m e) {q : ℚ} (hq : (m : ℚ) * 2 ^ e = q) :
    value? x = some q := by
  rw [value?, h, Decimal.Binary.value?, ← hq]
  rfl

/-- Two small numbers, and the text that the first one is converted back from. -/
theorem prints_integers_small :
    value? 5.0 = some ((5 : ℤ) : ℚ) ∧ value? 7.0 = some ((7 : ℤ) : ℚ) ∧
      ofScript 5.0 = toString (5 : ℤ) ∧ ofScript 5.0 ≠ ofScript 7.0 ∧
      ((Value.string (ofScript 5.0)).toNumber == 5.0) = true := by
  have hfive : value? 5.0 = some ((5 : ℤ) : ℚ) :=
    @value?_of_finite _ (5 * 2 ^ 50) (-50) (by decide +kernel) _ (by norm_num)
  have hseven : value? 7.0 = some ((7 : ℤ) : ℚ) :=
    @value?_of_finite _ (7 * 2 ^ 50) (-50) (by decide +kernel) _ (by norm_num)
  obtain ⟨-, hnumeral, hback, hsame, -⟩ :=
    prints_integers hfive hseven (by norm_num) (by norm_num)
  exact ⟨hfive, hseven, hnumeral.2 (by decide), fun h ↦ absurd (hsame.1 h) (by decide),
    hback (by decide) (by decide)⟩

/-- Two numbers below the limit that are printed by the greatest integer of sixty-four bits, which
neither of them is. -/
theorem prints_integers_clamped :
    value? 1e20 = some ((10 ^ 20 : ℤ) : ℚ) ∧ value? 2e20 = some ((2 * 10 ^ 20 : ℤ) : ℚ) ∧
      |(2 * 10 ^ 20 : ℤ)| < 10 ^ 21 ∧ ofScript 1e20 = "9223372036854775807" ∧
      ofScript 1e20 ≠ toString (10 ^ 20 : ℤ) ∧ ofScript 2e20 = ofScript 1e20 := by
  refine ⟨?_, ?_, by norm_num, by decide +kernel, by decide +kernel, by decide +kernel⟩
  · exact @value?_of_finite _ (5 ^ 20 * 2 ^ 6) 14 (by decide +kernel) _ (by norm_num)
  · exact @value?_of_finite _ (5 ^ 20 * 2 ^ 6) 15 (by decide +kernel) _ (by norm_num)

end Script

end ReactiveFrames
