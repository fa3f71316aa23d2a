import ReactiveFrames.Program
import ReactiveFrames.Proofs.Basic
import ReactiveFrames.Proofs.Decimal.Exact

/-!
# Reading at an index

An array and a text both have elements, its items and its characters, and their length is the number
of those. Read at a number, an array gives the element at the position that the number is, and
`undefined` if it is none of its positions. A text does not ask whether the number is a position:
the number is cut to one. So a text follows the same rule exactly if the number does not stray,
which is to be cut to a position of the text without being it.

## Main definitions

* `Heap.elements?`: the elements of an array or a text.
* `ReadsAt`: the value that a number reads from elements, by the rule.
* `Strays`: a number that is cut to a position that it is not.

## Main statements

* `eval_index_reads`: what an index expression reads.
* `text_read_before_start`: a text is read before its first position.
-/

namespace ReactiveFrames.Script

open Decimal (CutsTo value? toNat?_eq_some_iff toPosition?_eq_some_iff)
open Machine (pinningValue)

variable {σ : Type}

/-! ## Elements -/

/-- A character as a value. -/
def Value.ofChar (c : Char) : Value := .string (String.ofList [c])

/-- The value is a text. -/
def Value.isText : Value → Bool
  | string _ => true
  | _ => false

/-- Elements of an array or a text, in order. -/
def Heap.elements? (h : Heap) : Value → Option (List Value)
  | .array ref => some (h.items ref).toList
  | .string s => some (s.toList.map Value.ofChar)
  | _ => none

/-- By the rule, the number reads the value from the elements: the element at the position that it
is, and otherwise nothing. -/
structure ReadsAt (elements : List Value) (x : Float) (v : Value) : Prop where
  inside : ∀ k (hk : k < elements.length), value? x = some (k : ℚ) → v = elements[k]
  outside : (∀ k < elements.length, value? x ≠ some (k : ℚ)) → v = .undefined

/-- The number is cut to a position below the length, and is not that position. -/
def Strays (x : Float) (length : ℕ) : Prop := ∃ k < length, CutsTo x k ∧ value? x ≠ some (k : ℚ)

/-! ## Arrays -/

/-- An array is read by the rule. -/
theorem readsAt_itemAt (items : Array Value) (x : Float) :
    ReadsAt items.toList x (itemAt items x) where
  inside k hk hx := by
    rw [Array.length_toList] at hk
    rw [itemAt, toNat?_eq_some_iff.2 hx, Option.bind_some, Array.getElem?_eq_getElem hk,
      Option.getD_some, Array.getElem_toList]
  outside h := by
    rw [itemAt]
    cases hx : Decimal.toNat? x with
    | none => rfl
    | some k =>
      have hk : ¬k < items.size := fun hk ↦
        h k (by rwa [Array.length_toList]) (toNat?_eq_some_iff.1 hx)
      rw [Option.bind_some, Array.getElem?_eq_none (Nat.le_of_not_lt hk)]
      rfl

/-! ## Texts -/

section Text

variable {s : String} {x : Float}

/-- A text is read at the position that the number is cut to. -/
theorem characterAt_of_cutsTo {k : ℕ} (hx : CutsTo x k)
    (hk : k < (s.toList.map Value.ofChar).length) :
    characterAt s x = (s.toList.map Value.ofChar)[k] := by
  rw [List.length_map] at hk
  rw [characterAt, toPosition?_eq_some_iff.2 hx, Option.bind_some, List.getElem?_eq_getElem hk,
    List.getElem_map]
  rfl

/-- A number that is cut to no position of a text reads nothing. -/
theorem characterAt_of_forall_not_cutsTo
    (h : ∀ k < (s.toList.map Value.ofChar).length, ¬CutsTo x k) :
    characterAt s x = .undefined := by
  rw [characterAt]
  cases hx : Decimal.toPosition? x with
  | none => rfl
  | some k =>
    have hk : ¬k < s.toList.length := fun hk ↦
      h k (by rwa [List.length_map]) (toPosition?_eq_some_iff.1 hx)
    rw [Option.bind_some, List.getElem?_eq_none (Nat.le_of_not_lt hk)]
    rfl

/-- A text is read by the rule if and only if the number does not stray. -/
theorem readsAt_characterAt_iff :
    ReadsAt (s.toList.map Value.ofChar) x (characterAt s x) ↔
      ¬Strays x (s.toList.map Value.ofChar).length := by
  constructor
  · rintro h ⟨k, hk, hcut, hne⟩
    -- The number is none of the positions, yet it reads the one that it is cut to.
    have hundefined := h.outside fun n hn hx ↦ hne (hcut.unique (.of_value? hx) ▸ hx)
    rw [characterAt_of_cutsTo hcut hk, List.getElem_map] at hundefined
    cases hundefined
  · intro hstays
    refine ⟨fun k hk hx ↦ characterAt_of_cutsTo (.of_value? hx) hk, fun hnone ↦ ?_⟩
    exact characterAt_of_forall_not_cutsTo fun k hk hcut ↦ hstays ⟨k, hk, hcut, hnone k hk⟩

end Text

/-! ## Index expressions -/

/-- The length that scripts see is the number of elements. -/
theorem readMember_length (host : Host σ) {m : Machine σ} {o : Value} {elements : List Value}
    (h : m.heap.elements? o = some elements) :
    readMember host o "length" m = .ok (.number (Float.ofNat elements.length)) m := by
  cases o with
  | array ref =>
    cases h
    rfl
  | string s =>
    cases h
    rw [List.length_map, String.length_toList]
    rfl
  | _ => cases h

/-- An index expression whose object is an array or a text, and whose index is a number, yields a
value and changes nothing further. It yields the element at the position that the number is, and
`undefined` if the number is no position below the length, from an array always and from a text
exactly if the number does not stray; one that strays reads the character that it is cut to. -/
theorem eval_index_reads (host : Host σ) {n : ℕ} {scope : Scope} {object index : Expr}
    {m m₁ m₂ : Machine σ} {o : Value} {x : Float} {elements : List Value}
    (hobject : eval host n scope object m = .ok o m₁)
    (hindex : pinningValue o (eval host n scope index) m₁ = .ok (.number x) m₂)
    (helements : m₂.heap.elements? o = some elements) :
    ∃ v, eval host (n + 1) scope (.index object index) m = .ok v m₂ ∧
      readMember host o "length" m₂ = .ok (.number (Float.ofNat elements.length)) m₂ ∧
      (ReadsAt elements x v ↔ ¬(o.isText = true ∧ Strays x elements.length)) ∧
      (o.isText = true → ∀ k (hk : k < elements.length), CutsTo x k → v = elements[k]) := by
  have heval : eval host (n + 1) scope (.index object index) m
      = readIndex host o (.number x) m₂ := by
    rw [eval, Run.bind_of_ok hobject, Run.bind_of_ok hindex]
  have hlength := readMember_length host helements
  cases o with
  | array ref =>
    cases helements
    exact ⟨itemAt (m₂.heap.items ref) x, heval, hlength,
      iff_of_true (readsAt_itemAt _ x) fun h ↦ (nomatch h.1), fun h ↦ (nomatch h)⟩
  | string s =>
    cases helements
    refine ⟨characterAt s x, heval, hlength, ?_, fun _ k hk hx ↦ characterAt_of_cutsTo hx hk⟩
    rw [readsAt_characterAt_iff]
    exact not_congr (iff_and_self.2 fun _ ↦ rfl)
  | _ => cases helements

/-- The second item of an array of two, and the character of a text at a fraction, which strays. -/
theorem eval_index_reads_second : ∃ w : World,
    eval World.scriptHost 6 [] (.index (.array [.null, .bool true]) (.number 1.0))
      (World.create 256 16) = .ok (.bool true) w ∧
    eval World.scriptHost 6 [] (.index (.string "abc") (.number 1.5)) w = .ok (.string "b") w := by
  let w : World := (World.create 256 16).mapHeap fun h ↦ (h.newArray #[.null, .bool true]).2
  have hitems : eval World.scriptHost 5 [] (.array [.null, .bool true]) (World.create 256 16)
      = .ok (.array ⟨0⟩) w := rfl
  have htext : eval World.scriptHost 5 [] (.string "abc") w = .ok (.string "abc") w := rfl
  have hnumber (o : Value) (x : Float) :
      pinningValue o (eval World.scriptHost 5 [] (.number x)) w = .ok (.number x) w := rfl
  have helements : w.heap.elements? (.array ⟨0⟩) = some [.null, .bool true] := rfl
  obtain ⟨v, hread, -, hrule, -⟩ :=
    eval_index_reads World.scriptHost hitems (hnumber _ 1.0) helements
  obtain ⟨v', hread', -, -, hcut⟩ := eval_index_reads World.scriptHost htext (hnumber _ 1.5) rfl
  have hsecond : v = .bool true := (hrule.2 fun h ↦ nomatch h.1).inside 1 (by decide)
    (toNat?_eq_some_iff.1 (by decide +kernel))
  have hb : v' = .string "b" :=
    hcut rfl 1 (by decide) (toPosition?_eq_some_iff.1 (by decide +kernel))
  subst hsecond hb
  exact ⟨w, hread, hread'⟩

/-- A text is read before its first position, where the rule gives nothing: so do the items of an
array of the same elements. -/
theorem text_read_before_start :
    (World.evaluate "'abc'[-1]" (World.create 256 16)).okWith
        (fun v _ ↦ v.strictEquals (.string "a")) = true ∧
      ¬ReadsAt ("abc".toList.map Value.ofChar) (-1.0) (.string "a") ∧
      (World.evaluate "['a', 'b', 'c'][-1]" (World.create 256 16)).okWith
        (fun v _ ↦ v.isUndefined) = true := by
  refine ⟨by decide +kernel, fun h ↦ ?_, by decide +kernel⟩
  have hcut : CutsTo (-1.0) 0 := toPosition?_eq_some_iff.1 (by decide +kernel)
  have hundefined := h.outside fun k _ hk ↦ by
    cases CutsTo.unique hcut (.of_value? hk)
    exact absurd (toNat?_eq_some_iff.2 hk) (by decide +kernel)
  cases hundefined

end ReactiveFrames.Script
