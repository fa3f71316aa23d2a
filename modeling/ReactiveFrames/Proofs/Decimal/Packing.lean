import ReactiveFrames.Decimal.Binary
import Mathlib

/-!
# Doubles in canonical form

The logical model of doubles computes on unpacked forms and packs the result into sixty-four bits.
A positive double has one mantissa and exponent in range, the canonical form, and `Binary.ofFloat`
gives it; packing and unpacking are inverse on canonical forms. The two zeros and what is no number
are treated beside it.

## Main statements

* `eq_ofForm`: a finite double other than zero is its canonical form, packed.
* `unpack_pack`: a canonical form is unpacked as it was packed.
* `eq_zero_of_ofFloat`: the double with mantissa zero.
-/

namespace ReactiveFrames.Decimal

open Float.Model (UnpackedFloat Format)
open Float.Model.UnpackedFloat (Sign)

/-- The one way to write a positive double. -/
structure Canonical (m : Nat) (e : Int) : Prop where
  pos : 0 < m
  lt : m < 2 ^ 53
  least : -1074 ≤ e
  greatest : e ≤ 971
  normal : 2 ^ 52 ≤ m ∨ e = -1074

/-- Sign of the model. -/
def signOf (negative : Bool) : Sign := if negative then .negative else .positive

/-- The double of a form. -/
def ofForm (negative : Bool) (m : Nat) (e : Int) (h : 0 < m) : Float :=
  .ofModel (.pack (.finite (signOf negative) m e h))

/-! ## Bits -/

abbrev Bits := BitVec Format.binary64.numBits

theorem toNat_unpackExponent (b : Bits) :
    (UnpackedFloat.unpackExponent b).toNat = b.toNat / 2 ^ 52 % 2048 := by
  simp [UnpackedFloat.unpackExponent, BitVec.extractLsb, BitVec.extractLsb',
    Nat.shiftRight_eq_div_pow]

theorem toNat_unpackMantissa (b : Bits) :
    (UnpackedFloat.unpackMantissa b).toNat = b.toNat % 2 ^ 52 := by
  simp [UnpackedFloat.unpackMantissa, BitVec.extractLsb, BitVec.extractLsb']

theorem toNat_unpackSign (b : Bits) :
    (UnpackedFloat.unpackSign b).toNat = b.toNat / 2 ^ 63 := by
  have hlt : b.toNat < 2 ^ 64 := b.isLt
  simp [UnpackedFloat.unpackSign, BitVec.extractLsb, BitVec.extractLsb',
    Nat.shiftRight_eq_div_pow]
  omega

theorem toNat_packComponents (s : Sign) (e : BitVec 11) (m : BitVec 52) :
    (UnpackedFloat.packComponents Format.binary64 s e m).toNat
      = s.toBitVec.toNat * 2 ^ 63 + e.toNat * 2 ^ 52 + m.toNat := by
  have happend : ∀ {v w : Nat} (a : BitVec v) (b : BitVec w),
      (a ++ b).toNat = a.toNat * 2 ^ w + b.toNat := by
    intro v w a b
    rw [BitVec.toNat_append, ← Nat.shiftLeft_add_eq_or_of_lt b.isLt, Nat.shiftLeft_eq]
  change (s.toBitVec ++ e ++ m).toNat = _
  rw [happend, happend]
  omega

private theorem ofBitVec_toBitVec (s : Sign) : Sign.ofBitVec s.toBitVec = s := by
  cases s <;> rfl

theorem unpackSign_packComponents (s : Sign) (e : BitVec 11) (m : BitVec 52) :
    UnpackedFloat.unpackSign (UnpackedFloat.packComponents Format.binary64 s e m) = s.toBitVec := by
  have he : e.toNat < 2 ^ 11 := e.isLt
  have hm : m.toNat < 2 ^ 52 := m.isLt
  refine BitVec.eq_of_toNat_eq ?_
  rw [toNat_unpackSign, toNat_packComponents]
  omega

/-! ## Packing -/

theorem Canonical.ne_zero {m : Nat} {e : Int} (h : Canonical m e) : m ≠ 0 :=
  Nat.pos_iff_ne_zero.1 h.pos

theorem Canonical.log2_le {m : Nat} {e : Int} (h : Canonical m e) : m.log2 ≤ 52 := by
  have := (Nat.log2_lt h.ne_zero).2 h.lt
  omega

/-- What a canonical form is packed into. A subnormal number has the exponent field of none. -/
theorem pack_of_canonical {s : Sign} {m : Nat} {e : Int} (h : Canonical m e) :
    UnpackedFloat.pack Format.binary64 (.finite s m e h.pos)
      = UnpackedFloat.packComponents Format.binary64 s
          (BitVec.ofNat 11 (if 2 ^ 52 ≤ m then (e + 1075).toNat else 0)) (BitVec.ofNat 52 m) := by
  have hleast := h.least
  have hgreatest := h.greatest
  have hbiased : (e + (Format.binary64.exponentBias : Int)
      + (Format.binary64.mantissaBitsWithoutImplicit : Int)).toNat = (e + 1075).toNat := by
    change (e + 1023 + 52).toNat = _
    congr 1
    omega
  have hsmall : ¬2 ^ Format.binary64.exponentBits ≤ (e + 1075).toNat + 1 := by
    change ¬2048 ≤ _
    omega
  unfold UnpackedFloat.pack
  dsimp only
  rw [hbiased, if_neg hsmall]
  by_cases hm : 2 ^ 52 ≤ m
  · have hlog : m.log2 + 1 = Format.binary64.mantissaBits := by
      have := (Nat.le_log2 h.ne_zero).2 hm
      have := h.log2_le
      change m.log2 + 1 = 53
      omega
    rw [if_pos hlog, if_pos hm]
  · have hlog : ¬m.log2 + 1 = Format.binary64.mantissaBits := by
      have := (Nat.log2_lt h.ne_zero).2 (Nat.not_le.1 hm)
      change ¬m.log2 + 1 = 53
      omega
    rw [if_neg hlog, if_neg hm]

private theorem finite_congr {s : Sign} {m m' : Nat} {e e' : Int} {h : 0 < m} {h' : 0 < m'}
    (hm : m = m') (he : e = e') : UnpackedFloat.finite s m e h = .finite s m' e' h' := by
  subst hm he
  rfl

/-- A canonical form is unpacked as it was packed. -/
theorem unpack_pack {s : Sign} {m : Nat} {e : Int} (h : Canonical m e) :
    (Float.Model.pack (.finite s m e h.pos)).unpack = .finite s m e h.pos := by
  have hleast := h.least
  have hgreatest := h.greatest
  have hlt := h.lt
  have hpos := h.pos
  change UnpackedFloat.unpack Format.binary64 (UnpackedFloat.pack Format.binary64 _) = _
  rw [pack_of_canonical h]
  unfold UnpackedFloat.unpack
  simp only [UnpackedFloat.unpackExponent_packComponents,
    UnpackedFloat.unpackMantissa_packComponents, unpackSign_packComponents, ofBitVec_toBitVec]
  by_cases hm : 2 ^ 52 ≤ m
  · have hfield : (BitVec.ofNat 11 (e + 1075).toNat).toNat = (e + 1075).toNat := by
      rw [BitVec.toNat_ofNat]
      omega
    have hinfinite : ¬BitVec.ofNat 11 (e + 1075).toNat = -1#11 := by
      rw [← BitVec.toNat_inj, hfield]
      change ¬(e + 1075).toNat = 2047
      omega
    have hzero : ¬BitVec.ofNat 11 (e + 1075).toNat = 0#11 := by
      rw [← BitVec.toNat_inj, hfield]
      change ¬(e + 1075).toNat = 0
      omega
    have hmantissa : (1#1 ++ BitVec.ofNat 52 m).toNat = m := by
      rw [BitVec.toNat_append, ← Nat.shiftLeft_add_eq_or_of_lt (BitVec.isLt _), Nat.shiftLeft_eq,
        BitVec.toNat_ofNat]
      change 1 * 2 ^ 52 + m % 2 ^ 52 = m
      omega
    rw [if_pos hm, if_neg hinfinite, if_neg hzero]
    refine finite_congr hmantissa ?_
    rw [hfield]
    change (((e + 1075).toNat : Nat) : Int) - (1023 + 52) = e
    omega
  · have hmantissa : (BitVec.ofNat 52 m).toNat = m := by
      rw [BitVec.toNat_ofNat]
      omega
    have hne : ¬BitVec.ofNat 52 m = 0#52 := by
      rw [← BitVec.toNat_inj, hmantissa]
      change ¬m = 0
      omega
    rw [if_neg hm, if_neg (by decide), if_pos rfl, dif_neg hne]
    refine finite_congr hmantissa ?_
    have he := h.normal.resolve_left hm
    rw [he]
    rfl

/-! ## Unpacking -/

theorem eq_of_toBits {x y : Float} (h : x.toBits.toNat = y.toBits.toNat) : x = y := by
  obtain ⟨⟨b, hb⟩⟩ := x
  obtain ⟨⟨c, hc⟩⟩ := y
  have hbits : b = c := UInt64.toNat_inj.1 h
  subst hbits
  rfl

/-- Where the parts of a finite double stand. -/
theorem ofBits_eq_finite {bits : Nat} {negative : Bool} {m : Nat} {e : Int}
    (h : Binary.ofBits bits = .finite negative m e) :
    negative = decide (2 ^ 63 ≤ bits) ∧
      (bits / 2 ^ 52 % 2048 = 0 ∧ m = bits % 2 ^ 52 ∧ e = -1074 ∨
        bits / 2 ^ 52 % 2048 ≠ 0 ∧ bits / 2 ^ 52 % 2048 ≠ 2047 ∧ m = 2 ^ 52 + bits % 2 ^ 52 ∧
          e = (bits / 2 ^ 52 % 2048 : Nat) - 1075) := by
  have hparts : negative = decide (2 ^ 63 ≤ bits) ∧
      (bits / Binary.hiddenBit % 2048 = 0 ∧ m = bits % Binary.hiddenBit ∧ e = Binary.leastExponent ∨
        bits / Binary.hiddenBit % 2048 ≠ 0 ∧ bits / Binary.hiddenBit % 2048 ≠ 2047 ∧
          m = Binary.hiddenBit + bits % Binary.hiddenBit ∧
            e = Int.ofNat (bits / Binary.hiddenBit % 2048) - 1075) := by
    unfold Binary.ofBits at h
    dsimp only at h
    split_ifs at h <;> simp_all
  exact hparts

private theorem toNat_signOf (negative : Bool) :
    (signOf negative).toBitVec.toNat = if negative then 1 else 0 := by
  cases negative <;> rfl

/-- A finite double other than zero is its canonical form, packed. -/
theorem eq_ofForm {x : Float} {negative : Bool} {m : Nat} {e : Int}
    (h : Binary.ofFloat x = .finite negative m e) (hm : 0 < m) :
    Canonical m e ∧ x = ofForm negative m e hm := by
  have hlt : x.toBits.toNat < 2 ^ 64 := x.toBits.toNat_lt
  obtain ⟨hsign, hparts⟩ := ofBits_eq_finite h
  have hcanonical : Canonical m e := by
    rcases hparts with ⟨hfield, hmantissa, he⟩ | ⟨hfield, hfield', hmantissa, he⟩
    · constructor <;> omega
    · constructor <;> omega
  refine ⟨hcanonical, eq_of_toBits ?_⟩
  have hpacked : (ofForm negative m e hm).toBits.toNat
      = (UnpackedFloat.pack Format.binary64 (.finite (signOf negative) m e hm)).toNat := rfl
  rw [hpacked, pack_of_canonical hcanonical, toNat_packComponents, toNat_signOf,
    BitVec.toNat_ofNat, BitVec.toNat_ofNat, hsign]
  simp only [decide_eq_true_eq]
  rcases hparts with ⟨hfield, hmantissa, he⟩ | ⟨hfield, hfield', hmantissa, he⟩
  · rw [if_neg (by omega : ¬2 ^ 52 ≤ m)]
    split <;> omega
  · rw [if_pos (by omega : 2 ^ 52 ≤ m)]
    split <;> omega

/-- The doubles with mantissa zero are the two zeros. -/
theorem eq_zero_of_ofFloat {x : Float} {negative : Bool} {e : Int}
    (h : Binary.ofFloat x = .finite negative 0 e) : x = if negative then -0.0 else 0.0 := by
  have hlt : x.toBits.toNat < 2 ^ 64 := x.toBits.toNat_lt
  obtain ⟨hsign, hparts⟩ := ofBits_eq_finite h
  cases negative with
  | true =>
    have hzero : (-0.0 : Float).toBits.toNat = 2 ^ 63 := by decide +kernel
    refine eq_of_toBits ?_
    simp only [if_true, hzero]
    have := of_decide_eq_true hsign.symm
    omega
  | false =>
    have hzero : (0.0 : Float).toBits.toNat = 0 := by decide +kernel
    refine eq_of_toBits ?_
    simp only [Bool.false_eq_true, if_false, hzero]
    have := of_decide_eq_false hsign.symm
    omega

end ReactiveFrames.Decimal
