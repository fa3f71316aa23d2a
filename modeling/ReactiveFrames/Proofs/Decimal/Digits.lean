import ReactiveFrames.Decimal.Notation
import ReactiveFrames.Decimal.Reading
import Mathlib.Tactic.Ring
import Mathlib.Tactic.SplitIfs

/-!
# Digits of written numbers

An integer is written with digits only and read back from them. The text of a finite double always
shows a point between digits, so it can be taken neither for an integer nor for a word. For a double
that is no whole number this rests on the grids of `shortest`: no multiple of one lies in its
rounding interval, so the digits found have places after the point.

## Main statements

* `integer?_toString`: an integer of sixty-four bits is read back from its text.
* `exists_toList_literal`: the form of the text of a finite double.
-/

namespace ReactiveFrames.Decimal

/-! ## Integers -/

/-- Every character is a digit. -/
def AllDigits (text : List Char) : Prop := ∀ c ∈ text, isDigit c = true

theorem isDigit_of_isDigit {c : Char} (h : c.isDigit = true) : isDigit c = true := by
  simpa [isDigit, Char.isDigit, Char.le_def] using h

theorem allDigits_toDigits (n : Nat) : AllDigits (Nat.toDigits 10 n) := fun _ hc ↦
  isDigit_of_isDigit (Nat.isDigit_of_mem_toDigits (by decide) (by decide) hc)

theorem AllDigits.append {s t : List Char} (hs : AllDigits s) (ht : AllDigits t) :
    AllDigits (s ++ t) := by
  intro c hc
  rcases List.mem_append.1 hc with hc | hc
  · exact hs c hc
  · exact ht c hc

theorem allDigits_replicate (n : Nat) : AllDigits (List.replicate n '0') := by
  intro c hc
  rw [List.eq_of_mem_replicate hc]
  rfl

theorem ofDigits_toDigits (n : Nat) : ofDigits (Nat.toDigits 10 n) = n := by
  have h : ofDigits (Nat.toDigits 10 n) = Nat.ofDigitChars 10 (Nat.toDigits 10 n) 0 := by
    rw [Nat.ofDigitChars_eq_foldl]
    rfl
  rw [h, Nat.ofDigitChars_ten_toDigits]

theorem AllDigits.head_ne_minus {text : List Char} (h : AllDigits text) {rest : List Char} :
    text ≠ '-' :: rest := by
  rintro rfl
  exact absurd (h '-' (by simp)) (by decide)

/-- Characters of an integer: an optional minus sign and the digits of its magnitude. -/
theorem toList_toString (i : Int) :
    (toString i).toList = (if i < 0 then ['-'] else []) ++ Nat.toDigits 10 i.natAbs := by
  cases i with
  | ofNat n =>
    have h : ¬(Int.ofNat n < 0) := by simp
    change n.repr.toList = _
    rw [if_neg h, Nat.toList_repr]
    rfl
  | negSucc n =>
    have h : Int.negSucc n < 0 := Int.negSucc_lt_zero n
    change ("-" ++ (n + 1).repr).toList = _
    rw [if_pos h, String.toList_append, Nat.toList_repr]
    rfl

/-- An integer of sixty-four bits is read back from its text. -/
theorem integer?_toString {i : Int} (hlow : minInt64 ≤ i) (hhigh : i ≤ maxInt64) :
    integer? (toString i).toList = some i := by
  have hdigits := allDigits_toDigits i.natAbs
  have hall : (Nat.toDigits 10 i.natAbs).all isDigit = true := List.all_eq_true.2 hdigits
  have hne : (Nat.toDigits 10 i.natAbs).isEmpty = false := by
    simp [Nat.toDigits_ne_nil]
  rw [toList_toString]
  by_cases hi : i < 0
  · have hvalue : Binary.signed true i.natAbs = i := by
      simp only [Binary.signed, if_true]
      omega
    simp [integer?, hi, hall, hne, ofDigits_toDigits, hvalue, hlow, hhigh]
  · have hvalue : Binary.signed false i.natAbs = i := by
      change (i.natAbs : Int) = i
      omega
    have hhead : ∀ rest, Nat.toDigits 10 i.natAbs ≠ '-' :: rest := fun _ ↦ hdigits.head_ne_minus
    rw [if_neg hi, List.nil_append]
    unfold integer?
    split
    rename_i negative digits heq
    split at heq
    · rename_i hcons
      exact absurd hcons (hhead _)
    · cases heq
      simp [hall, ofDigits_toDigits, hvalue, hlow, hhigh, Nat.toDigits_ne_nil]

/-- An integer that is read has sixty-four bits. -/
theorem integer?_range {text : List Char} {i : Int} (h : integer? text = some i) :
    minInt64 ≤ i ∧ i ≤ maxInt64 := by
  unfold integer? at h
  dsimp only at h
  split_ifs at h with _ hrange
  cases h
  exact hrange

/-! ## Places of a decimal -/

/-- The rounding interval of a double below its least integer grid holds no other integer: its ends
are less than half a unit of the last binary place away. -/
theorem Interval.isWhole_of_contains {m d : Nat} {e g : Int} (he : e < 0) (hg : 0 ≤ g)
    (h : (ofBinary m e).contains d g = true) : Binary.isWhole m e = true := by
  obtain ⟨k, rfl⟩ : ∃ k : Nat, e = -((k : Int) + 1) := ⟨(-e - 1).toNat, by omega⟩
  have hup : (-((k : Int) + 1) - 2).toNat = 0 := by omega
  have hdown : (2 - -((k : Int) + 1)).toNat = k + 1 + 2 := by omega
  have hscale : (-g).toNat = 0 := by omega
  -- `n` is the grid point in units of one
  obtain ⟨n, hn⟩ : ∃ n, d * 10 ^ g.toNat = n := ⟨_, rfl⟩
  have hpoint : n * 2 ^ (k + 1 + 2) = 4 * (n * 2 ^ (k + 1)) := by ring
  have hbounds : 4 * m - 2 ≤ 4 * (n * 2 ^ (k + 1)) ∧ 4 * (n * 2 ^ (k + 1)) ≤ 4 * m + 2 := by
    simp only [contains, ofBinary, Nat.pow_eq, hup, hdown, hscale, hn, hpoint, Nat.pow_zero,
      Nat.mul_one] at h
    split at h <;> simp only [Bool.and_eq_true, decide_eq_true_eq] at h <;> split at h <;> omega
  have hm : m = n * 2 ^ (k + 1) := by omega
  have hmod : m % 2 ^ (k + 1) = 0 := by rw [hm, Nat.mul_mod_left]
  simp [Binary.isWhole, Nat.pow_eq, hmod]

theorem Interval.contains_of_hit? {tie : Tie} {i : Interval} {g : Int} {d : Nat}
    (h : i.hit? tie g = some d) : i.contains d g = true := by
  unfold hit? at h
  dsimp only at h
  split at h
  · cases h
  · cases h
    assumption
  · cases h
    assumption
  · split at h
    · cases h
      assumption
    split at h
    · cases h
      assumption
    · cases tie with
      | up =>
        cases h
        assumption
      | even =>
        dsimp only at h
        split at h <;> cases h <;> assumption

theorem Interval.contains_of_search {tie : Tie} {i : Interval} {steps : Nat} {g : Int} {d : Digits}
    (h : i.search tie steps g = some d) : i.contains d.coefficient d.exponent = true := by
  induction steps generalizing g with
  | zero => cases h
  | succ steps ih =>
    rw [search] at h
    split at h
    · cases h
      exact contains_of_hit? ‹_›
    · exact ih h

/-- The shortest digits of a double that is no whole number have places after the point. -/
theorem shortest_exponent_neg {tie : Tie} {m : Nat} {e : Int} (h : Binary.isWhole m e = false) :
    (shortest tie m e).exponent < 0 := by
  have he : e < 0 := by
    by_contra hge
    simp [Binary.isWhole, not_lt.1 hge] at h
  unfold shortest
  cases hs : (Interval.ofBinary m e).search tie gridLimit (gridAbove m e) with
  | none =>
    change (exact m e).exponent < 0
    rwa [exact, if_neg (not_le.2 he)]
  | some d =>
    change d.exponent < 0
    by_contra hge
    have := Interval.isWhole_of_contains he (not_lt.1 hge) (Interval.contains_of_search hs)
    rw [h] at this
    cases this

/-! ## Texts of doubles -/

/-- A decimal with places is written as digits, a point and digits. -/
theorem exists_toList_positional {d : Digits} (h : d.exponent < 0) :
    ∃ whole places, AllDigits whole ∧ AllDigits places ∧ whole ≠ [] ∧ places ≠ [] ∧
      (positional d).toList = whole ++ '.' :: places := by
  obtain ⟨digits, hdigits⟩ : ∃ digits, Nat.toDigits 10 d.coefficient = digits := ⟨_, rfl⟩
  obtain ⟨places, hplaces⟩ : ∃ places, (-d.exponent).toNat = places := ⟨_, rfl⟩
  obtain ⟨padded, hpadded⟩ :
    ∃ padded, List.replicate (places + 1 - digits.length) '0' ++ digits = padded := ⟨_, rfl⟩
  have hall : AllDigits padded := by
    rw [← hpadded, ← hdigits]
    exact (allDigits_replicate _).append (allDigits_toDigits _)
  have hlength : places + 1 ≤ padded.length := by
    rw [← hpadded, List.length_append, List.length_replicate]
    omega
  refine ⟨padded.take (padded.length - places), padded.drop (padded.length - places),
    fun c hc ↦ hall c (List.mem_of_mem_take hc), fun c hc ↦ hall c (List.mem_of_mem_drop hc),
    ?_, ?_, ?_⟩
  · rw [← List.length_pos_iff, List.length_take]
    omega
  · rw [← List.length_pos_iff, List.length_drop]
    omega
  · simp [positional, not_le.2 h, hdigits, hplaces, hpadded]

/-- The text of a finite double is an optional minus sign, digits, a point and digits. -/
theorem exists_toList_literal {x : Float} {negative : Bool} {m : Nat} {e : Int}
    (h : Binary.ofFloat x = .finite negative m e) :
    ∃ whole places, AllDigits whole ∧ AllDigits places ∧ whole ≠ [] ∧ places ≠ [] ∧
      (literal x).toList = (if negative then ['-'] else []) ++ whole ++ '.' :: places := by
  have hsign : ∀ text, (withSign negative text).toList
      = (if negative then ['-'] else []) ++ text.toList := by
    intro text
    cases negative
    · rfl
    · simp [withSign]
  by_cases hw : Binary.isWhole m e = true
  · refine ⟨_, ['0'], allDigits_toDigits (Binary.floorMagnitude m e), by simp [AllDigits, isDigit],
      Nat.toDigits_ne_nil, by simp, ?_⟩
    simp [literal, h, hw, hsign]
  · rw [Bool.not_eq_true] at hw
    have hm : m ≠ 0 := by
      rintro rfl
      simp [Binary.isWhole] at hw
    have hexponent : (shortest .up m e).exponent < 0 := shortest_exponent_neg hw
    obtain ⟨whole, places, hwhole, hplaces, hne, hne', heq⟩ := exists_toList_positional hexponent
    exact ⟨whole, places, hwhole, hplaces, hne, hne',
      by simp [literal, plain, h, hw, hm, hsign, heq]⟩

end ReactiveFrames.Decimal
