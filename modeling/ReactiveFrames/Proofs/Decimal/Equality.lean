import ReactiveFrames.Proofs.Decimal.Exact
import ReactiveFrames.Proofs.Decimal.Packing

/-!
# Equality of doubles

Two finite doubles are equal, in the sense of the comparison `==`, exactly if they are the same
rational number. The two zeros are, though their bits differ; every other finite double has one
canonical form, and comparing forms is comparing numbers.

## Main statements

* `ofFloat_ofForm`: a canonical form is read off the double that it is packed into.
* `Canonical.unique`: a positive rational number has one canonical form at most.
* `beq_iff_value?_eq`: finite doubles are equal if they are the same number.
-/

namespace ReactiveFrames.Decimal

open Float.Model (UnpackedFloat Format)

/-! ## Canonical forms -/

/-- What a sign, an exponent field that is not the greatest and a fraction are read as. -/
theorem ofBits_fields (negative : Bool) {field fraction : ℕ} (hfield : field < 2047)
    (hfraction : fraction < 2 ^ 52) :
    Binary.ofBits ((if negative then 1 else 0) * 2 ^ 63 + field * 2 ^ 52 + fraction)
      = if field = 0 then .finite negative fraction (-1074)
        else .finite negative (2 ^ 52 + fraction) (field - 1075) := by
  generalize hbits : (if negative then 1 else 0) * 2 ^ 63 + field * 2 ^ 52 + fraction = bits
  have hsign : decide (2 ^ 63 ≤ bits) = negative := by
    cases negative with
    | false => exact decide_eq_false (by simp at hbits; omega)
    | true => exact decide_eq_true (by simp at hbits; omega)
  have hread : bits / 2 ^ 52 % 2048 = field := by
    cases negative <;> simp at hbits <;> omega
  have hrest : bits % 2 ^ 52 = fraction := by omega
  change (if bits / 2 ^ 52 % 2048 = 2047 then
      if bits % 2 ^ 52 = 0 then Binary.infinite (decide (2 ^ 63 ≤ bits)) else .nan
    else if bits / 2 ^ 52 % 2048 = 0 then
      .finite (decide (2 ^ 63 ≤ bits)) (bits % 2 ^ 52) (-1074)
    else .finite (decide (2 ^ 63 ≤ bits)) (2 ^ 52 + bits % 2 ^ 52)
      (Int.ofNat (bits / 2 ^ 52 % 2048) - 1075)) = _
  rw [hsign, hread, hrest, if_neg hfield.ne]
  rfl

/-- A canonical form is read off the double that it is packed into. -/
theorem ofFloat_ofForm {negative : Bool} {m : ℕ} {e : ℤ} (h : Canonical m e) :
    Binary.ofFloat (ofForm negative m e h.pos) = .finite negative m e := by
  have hleast := h.least
  have hgreatest := h.greatest
  have hlt := h.lt
  obtain ⟨field, hfield⟩ : ∃ field, (if 2 ^ 52 ≤ m then (e + 1075).toNat else 0) = field := ⟨_, rfl⟩
  have hsmall : field < 2047 := by
    rw [← hfield]
    split <;> omega
  have hsign : (signOf negative).toBitVec.toNat = if negative then 1 else 0 := by
    cases negative <;> rfl
  have hpacked : (ofForm negative m e h.pos).toBits.toNat
      = (UnpackedFloat.pack Format.binary64 (.finite (signOf negative) m e h.pos)).toNat := rfl
  rw [Binary.ofFloat, hpacked, pack_of_canonical h, toNat_packComponents, BitVec.toNat_ofNat,
    BitVec.toNat_ofNat, hfield, hsign, Nat.mod_eq_of_lt (hsmall.trans (by norm_num)),
    ofBits_fields negative hsmall (Nat.mod_lt _ (by norm_num))]
  by_cases hm : 2 ^ 52 ≤ m
  · rw [if_pos hm] at hfield
    rw [if_neg (by omega), Binary.finite.injEq]
    exact ⟨rfl, by omega, by omega⟩
  · rw [if_neg hm] at hfield
    rw [if_pos hfield.symm, Nat.mod_eq_of_lt (not_le.1 hm), h.normal.resolve_left hm]

theorem value?_ofForm {negative : Bool} {m : ℕ} {e : ℤ} (h : Canonical m e) :
    value? (ofForm negative m e h.pos)
      = some (if negative then -((m : ℚ) * 2 ^ e) else (m : ℚ) * 2 ^ e) := by
  rw [value?, ofFloat_ofForm h, Binary.value?]

/-- A form denotes less than the first mantissa of fifty-three bits does with a larger exponent. -/
theorem Canonical.lt_two_pow_mul {m : ℕ} {e e' : ℤ} (h : Canonical m e) (he : e < e') :
    (m : ℚ) * 2 ^ e < 2 ^ 52 * 2 ^ e' := by
  calc (m : ℚ) * 2 ^ e < 2 ^ 53 * 2 ^ e :=
        mul_lt_mul_of_pos_right (by exact_mod_cast h.lt) (zpow_pos two_pos e)
    _ = 2 ^ 52 * 2 ^ (e + 1) := by
        rw [zpow_add₀ two_ne_zero, zpow_one]
        ring
    _ ≤ 2 ^ 52 * 2 ^ e' := by
        gcongr
        · exact one_le_two
        · exact he

/-- A form with a smaller exponent denotes a smaller number. -/
theorem Canonical.lt_of_exponent_lt {m m' : ℕ} {e e' : ℤ} (h : Canonical m e)
    (h' : Canonical m' e') (he : e < e') : (m : ℚ) * 2 ^ e < m' * 2 ^ e' := by
  have hleast := h.least
  have hm' : 2 ^ 52 ≤ m' := h'.normal.resolve_right (by omega)
  refine (h.lt_two_pow_mul he).trans_le ?_
  gcongr
  exact_mod_cast hm'

/-- A positive rational number has one canonical form at most. -/
theorem Canonical.unique {m m' : ℕ} {e e' : ℤ} (h : Canonical m e) (h' : Canonical m' e')
    (heq : (m : ℚ) * 2 ^ e = m' * 2 ^ e') : m = m' ∧ e = e' := by
  rcases lt_trichotomy e e' with he | rfl | he
  · exact absurd heq (h.lt_of_exponent_lt h' he).ne
  · refine ⟨?_, rfl⟩
    exact_mod_cast mul_right_cancel₀ (zpow_ne_zero e two_ne_zero) heq
  · exact absurd heq (h'.lt_of_exponent_lt h he).ne'

/-- A finite double is zero, or a canonical form. -/
theorem cases_of_value? {x : Float} {q : ℚ} (h : value? x = some q) :
    (∃ negative : Bool, x = if negative then -0.0 else 0.0) ∨
      ∃ negative m e, ∃ hc : Canonical m e, x = ofForm negative m e hc.pos := by
  obtain ⟨negative, m, e, hx, -⟩ := exists_ofFloat_of_value? h
  rcases Nat.eq_zero_or_pos m with rfl | hm
  · exact .inl ⟨negative, eq_zero_of_ofFloat hx⟩
  · obtain ⟨hc, hform⟩ := eq_ofForm hx hm
    exact .inr ⟨negative, m, e, hc, hform⟩

/-! ## Comparison -/

private theorem unpack_ofForm {negative : Bool} {m : ℕ} {e : ℤ} (h : Canonical m e) :
    (ofForm negative m e h.pos).toModel.unpack = .finite (signOf negative) m e h.pos :=
  unpack_pack h

private theorem unpack_zero (negative : Bool) :
    (if negative then -0.0 else 0.0 : Float).toModel.unpack = .zero (signOf negative) := by
  cases negative <;> rfl

theorem value?_zero (negative : Bool) : value? (if negative then -0.0 else 0.0) = some 0 := by
  have hread : Binary.ofFloat (if negative then -0.0 else 0.0) = .finite negative 0 (-1074) := by
    cases negative <;> decide +kernel
  rw [value?, hread, Binary.value?]
  simp

private theorem ite_neg_ne_zero {a : ℚ} (ha : 0 < a) (negative : Bool) :
    (if negative then -a else a) ≠ 0 := by
  cases negative
  · exact ha.ne'
  · exact neg_ne_zero.2 ha.ne'

private theorem ite_neg_inj {a b : ℚ} (ha : 0 < a) (hb : 0 < b) {s t : Bool} :
    (if s then -a else a) = (if t then -b else b) ↔ s = t ∧ a = b := by
  cases s <;> cases t <;> simp <;> linarith

private theorem compare_forms_iff {s t : Bool} {m n : ℕ} {e f : ℤ} {hm : 0 < m} {hn : 0 < n} :
    UnpackedFloat.compare (.finite (signOf s) m e hm) (.finite (signOf t) n f hn) = some .eq ↔
      s = t ∧ m = n ∧ e = f := by
  cases s <;> cases t <;>
    simp [signOf, UnpackedFloat.compare, Ordering.then_eq_eq, and_comm]

/-- Finite doubles are equal if they are the same number. -/
theorem beq_iff_value?_eq {x y : Float} {q r : ℚ} (hx : value? x = some q)
    (hy : value? y = some r) : (x == y) = true ↔ q = r := by
  have hpos {m : ℕ} {e : ℤ} (h : Canonical m e) : (0 : ℚ) < m * 2 ^ e :=
    mul_pos (Nat.cast_pos.2 h.pos) (zpow_pos two_pos e)
  change (x.toModel.unpack.compare y.toModel.unpack == some .eq) = true ↔ q = r
  rw [beq_iff_eq]
  rcases cases_of_value? hx with ⟨s, rfl⟩ | ⟨s, m, e, hc, rfl⟩ <;>
    rcases cases_of_value? hy with ⟨t, rfl⟩ | ⟨t, n, f, hd, rfl⟩
  · rw [value?_zero] at hx hy
    cases hx
    cases hy
    rw [unpack_zero, unpack_zero]
    exact iff_of_true rfl rfl
  · rw [value?_zero] at hx
    rw [value?_ofForm hd] at hy
    cases hx
    cases hy
    rw [unpack_zero, unpack_ofForm hd]
    refine iff_of_false ?_ (ite_neg_ne_zero (hpos hd) t).symm
    intro h
    cases t <;> cases h
  · rw [value?_ofForm hc] at hx
    rw [value?_zero] at hy
    cases hx
    cases hy
    rw [unpack_zero, unpack_ofForm hc]
    refine iff_of_false ?_ (ite_neg_ne_zero (hpos hc) s)
    intro h
    cases s <;> cases h
  · rw [value?_ofForm hc] at hx
    rw [value?_ofForm hd] at hy
    cases hx
    cases hy
    rw [unpack_ofForm hc, unpack_ofForm hd, compare_forms_iff, ite_neg_inj (hpos hc) (hpos hd)]
    refine and_congr_right fun _ ↦ ⟨fun h ↦ ?_, fun h ↦ hc.unique hd h⟩
    rw [h.1, h.2]

end ReactiveFrames.Decimal
