import ReactiveFrames.Decimal.Reading
import ReactiveFrames.Proofs.Decimal.Packing
import Mathlib.Logic.Basic
import Mathlib.Tactic.SplitIfs

/-!
# Doubles that are numbers

A double that is read from a text which shows a digit first is zero, finite or infinite, but never
the double that is no number: rounding gives a number, a power of ten is finite and not zero, and
the name of what is no number does not start with a digit.

## Main statements

* `IsNumber.float?`: a text that starts with a digit, or a minus sign and a digit, reads as a
  number.
* `IsNumber.ofInt`: the double of an integer is a number.
-/

namespace ReactiveFrames.Decimal

open Float.Model (UnpackedFloat Format)

/-- The double is no other thing than a real number or an infinity. -/
def IsNumber (x : Float) : Prop := Binary.ofFloat x ≠ .nan

instance (x : Float) : Decidable (IsNumber x) := inferInstanceAs (Decidable (_ ≠ _))

/-! ## Packed doubles -/

private theorem unpack_eq_notANumber {b : BitVec Format.binary64.numBits} :
    UnpackedFloat.unpack Format.binary64 b = .notANumber ↔
      UnpackedFloat.unpackExponent b = -1#_ ∧ UnpackedFloat.unpackMantissa b ≠ 0#_ := by
  unfold UnpackedFloat.unpack
  dsimp only
  split
  · split <;> simp_all
  · split
    · split <;> simp_all
    · simp_all

private theorem ofBits_eq_nan {bits : Nat} :
    Binary.ofBits bits = .nan ↔
      bits / Binary.hiddenBit % 2048 = 2047 ∧ bits % Binary.hiddenBit ≠ 0 := by
  unfold Binary.ofBits
  dsimp only
  split_ifs <;> simp_all

theorem isNumber_iff {x : Float} : IsNumber x ↔ x.toModel.unpack ≠ .notANumber := by
  have hbits : x.toBits.toNat = x.toModel.toBits.toBitVec.toNat := rfl
  rw [IsNumber, Float.Model.unpack, ne_eq, ne_eq, not_iff_not, unpack_eq_notANumber,
    ← BitVec.toNat_inj, ne_eq, ← BitVec.toNat_inj, toNat_unpackExponent, toNat_unpackMantissa,
    Binary.ofFloat, hbits, ofBits_eq_nan]
  rfl

/-- Packing makes no number of what is one. -/
theorem isNumber_pack {f : UnpackedFloat} (h : f ≠ .notANumber) :
    IsNumber (.ofModel (.pack f)) := by
  rw [isNumber_iff, Float.Model.unpack, ne_eq, unpack_eq_notANumber, not_and_not_right]
  change UnpackedFloat.unpackExponent (UnpackedFloat.pack Format.binary64 f) = _ →
    UnpackedFloat.unpackMantissa (UnpackedFloat.pack Format.binary64 f) = _
  intro hexp
  fun_cases UnpackedFloat.pack Format.binary64 f with
  | case1 => exact absurd rfl h
  | case2 s => simp [UnpackedFloat.packedInfinity]
  | case3 s => simp [UnpackedFloat.packedZero]
  | case4 s m e hm biased hlarge => simp [UnpackedFloat.packedInfinity]
  | case5 s m e hm bits biased hsmall hnormal =>
    -- the greatest exponent field is left to the infinities
    rw [UnpackedFloat.pack, if_neg hsmall, if_pos hnormal,
      UnpackedFloat.unpackExponent_packComponents, ← BitVec.toNat_inj, BitVec.toNat_ofNat] at hexp
    change ¬2048 ≤ biased + 1 at hsmall
    change biased % 2048 = 2047 at hexp
    omega
  | case6 s m e hm bits biased hsmall hnormal =>
    rw [UnpackedFloat.pack, if_neg hsmall, if_neg hnormal,
      UnpackedFloat.unpackExponent_packComponents] at hexp
    exact absurd hexp (by decide)

/-! ## Arithmetic -/

private theorem roundWithAccuracy_ne {spec : Format} {sign : UnpackedFloat.Sign} {m : Nat} {e : Int}
    {accuracy : UnpackedFloat.Accuracy} :
    UnpackedFloat.roundWithAccuracy spec sign m e accuracy ≠ .notANumber := by
  unfold UnpackedFloat.roundWithAccuracy
  dsimp only
  split <;> simp

private theorem mul_finite_ne {spec : Format} {f : UnpackedFloat} (h : f ≠ .notANumber)
    {sign : UnpackedFloat.Sign} {m : Nat} {e : Int} {hm : 0 < m} :
    UnpackedFloat.mul spec f (.finite sign m e hm) ≠ .notANumber := by
  cases f with
  | notANumber => exact absurd rfl h
  | infinity s => simp [UnpackedFloat.mul]
  | zero s => simp [UnpackedFloat.mul]
  | finite s m' e' hm' => exact roundWithAccuracy_ne

private theorem div_finite_ne {spec : Format} {f : UnpackedFloat} (h : f ≠ .notANumber)
    {sign : UnpackedFloat.Sign} {m : Nat} {e : Int} {hm : 0 < m} :
    UnpackedFloat.div spec f (.finite sign m e hm) ≠ .notANumber := by
  cases f with
  | notANumber => exact absurd rfl h
  | infinity s => simp [UnpackedFloat.div]
  | zero s => simp [UnpackedFloat.div]
  | finite s m' e' hm' => exact roundWithAccuracy_ne

private theorem ofScientific_ne {spec : Format} {m : Nat} {e : Int} :
    UnpackedFloat.ofScientific spec m e ≠ .notANumber := by
  unfold UnpackedFloat.ofScientific
  split_ifs
  · simp
  · simp
  · simp
  · exact mul_finite_ne (by simp)
  · exact div_finite_ne (by simp)

private theorem isNumber_toFloat (n : UInt64) : IsNumber n.toFloat := by
  refine isNumber_pack ?_
  change UnpackedFloat.normalize _ _ _ _ ≠ _
  unfold UnpackedFloat.normalize
  split
  · exact roundWithAccuracy_ne
  · simp
  · exact roundWithAccuracy_ne

private theorem powersOfTen_finite :
    Float.exactlyRepresentablePowersOfTen.all (fun x ↦
      match x.toModel.unpack with
      | .finite .. => true
      | _ => false) = true := by
  decide +kernel

private theorem powerOfTen_finite (e : Nat) (h : e < Float.exactlyRepresentablePowersOfTen.size) :
    ∃ sign m exponent hm, Float.exactlyRepresentablePowersOfTen[e].toModel.unpack
      = .finite sign m exponent hm := by
  have hfinite := Array.all_eq_true.1 powersOfTen_finite e h
  split at hfinite
  · rename_i heq
    exact ⟨_, _, _, _, heq⟩
  · cases hfinite

namespace IsNumber

theorem neg {x : Float} (h : IsNumber x) : IsNumber (-x) := by
  rw [isNumber_iff] at h
  refine isNumber_pack ?_
  cases hx : x.toModel.unpack with
  | notANumber => exact absurd hx h
  | _ => simp [UnpackedFloat.neg]

theorem ofScientific (m : Nat) (s : Bool) (e : Nat) : IsNumber (Float.ofScientific m s e) := by
  unfold Float.ofScientific
  split
  · obtain ⟨sign, m', e', hm', hpower⟩ := powerOfTen_finite e (by
      simp only [Float.exactlyRepresentablePowersOfTen, List.size_toArray, List.length_cons,
        List.length_nil]
      omega)
    dsimp only
    split
    · refine isNumber_pack ?_
      rw [hpower]
      exact div_finite_ne (isNumber_iff.1 (isNumber_toFloat _))
    · refine isNumber_pack ?_
      rw [hpower]
      exact mul_finite_ne (isNumber_iff.1 (isNumber_toFloat _))
  · exact isNumber_pack ofScientific_ne

theorem ofInt (i : Int) : IsNumber (Float.ofInt i) := by
  cases i with
  | ofNat n => exact ofScientific n false 0
  | negSucc n => exact (ofScientific (n + 1) false 0).neg

theorem nearest (coefficient : Nat) (exponent : Int) (width : Nat) :
    IsNumber (nearest coefficient exponent width) := by
  unfold Decimal.nearest
  split_ifs
  · decide +kernel
  · decide +kernel
  · exact ofScientific _ _ _

/-! ## Texts -/

theorem magnitude? {text : List Char} {x : Float} (h : magnitude? text = some x) :
    IsNumber x := by
  unfold Decimal.magnitude? at h
  dsimp only at h
  split_ifs at h
  rw [Option.map_eq_some_iff] at h
  obtain ⟨e, -, rfl⟩ := h
  exact nearest _ _ _

end IsNumber

/-- No name of a number starts with a digit. -/
theorem named?_eq_none {c : Char} {rest : List Char} (h : isDigit c = true) :
    named? (c :: rest) = none := by
  have hlower : asciiLower c = c := by
    simp only [isDigit, decide_eq_true_eq] at h
    refine if_neg fun hc ↦ ?_
    exact absurd (Char.le_trans hc.1 h.2) (by decide)
  have hne : ∀ name : String, name.toList.head?.all isDigit = false →
      String.ofList ((c :: rest).map asciiLower) ≠ name := by
    rintro name hname rfl
    simp [hlower, h] at hname
  unfold named?
  split
  · exact absurd ‹_› (hne _ (by decide))
  · exact absurd ‹_› (hne _ (by decide))
  · exact absurd ‹_› (hne _ (by decide))
  · rfl

namespace IsNumber

/-- A text that starts with a digit, or with a minus sign and a digit, reads as a number. -/
theorem float? {c : Char} {rest : List Char} {negative : Bool} (hc : isDigit c = true) {x : Float}
    (h : float? ((if negative then ['-'] else []) ++ c :: rest) = some x) : IsNumber x := by
  have hmagnitude : ∀ y, (Decimal.magnitude? (c :: rest)).or (named? (c :: rest)) = some y →
      IsNumber y := by
    intro y hy
    rw [named?_eq_none hc, Option.or_none] at hy
    exact magnitude? hy
  cases negative with
  | true =>
    simp only [if_true, List.cons_append, List.nil_append, Decimal.float?,
      Option.map_eq_some_iff] at h
    obtain ⟨y, hy, rfl⟩ := h
    exact (hmagnitude y hy).neg
  | false =>
    have hminus : c ≠ '-' := by
      rintro rfl
      exact absurd hc (by decide)
    have hplus : c ≠ '+' := by
      rintro rfl
      exact absurd hc (by decide)
    have hsign : Decimal.float? (c :: rest)
        = (Decimal.magnitude? (c :: rest)).or (named? (c :: rest)) := by
      simp [Decimal.float?, hminus, hplus]
    exact hmagnitude x (hsign ▸ h)

end IsNumber

end ReactiveFrames.Decimal
