import ReactiveFrames.Proofs.Decimal.Exact
import ReactiveFrames.Proofs.Reactive.InPlace

/-!
# Writing at an index

An array is written at a number that is one of its positions, or a position not too far past its
end. Positions between the old end and the new item are filled up with `undefined`. Every other
number is refused, and nothing has changed then.

## Main definitions

* `Refused`: the numbers at which an array of some length cannot be written.
* `ItemWritten`: the items after a write.

## Main statements

* `refused_iff`: all numbers but the positions up to the limit are refused.
* `eval_assign_item`: an assignment to an item is refused, or it writes the item and no other.
-/

namespace ReactiveFrames.Script

open Decimal (Binary value? toNat?_eq_some_iff)
open Machine (pinning pinningValue)

variable {σ : Type}

/-! ## Refused numbers -/

/-- An array of the length cannot be written at the number. -/
inductive Refused (x : Float) (length : ℕ) : Prop
  | nan (h : Binary.ofFloat x = .nan)
  | infinite {negative : Bool} (h : Binary.ofFloat x = .infinite negative)
  | negative {q : ℚ} (h : value? x = some q) (hq : q < 0)
  | fractional {q : ℚ} (h : value? x = some q) (hq : Int.fract q ≠ 0)
  | tooFar {q : ℚ} (h : value? x = some q) (hq : (length : ℚ) + 65536 ≤ q)

/-- What is not refused are the positions up to the limit. -/
theorem refused_iff {x : Float} {length : ℕ} :
    Refused x length ↔ ∀ k : ℕ, value? x = some (k : ℚ) → length + maxGrowth ≤ k := by
  constructor
  · intro h k hk
    cases h with
    | nan h =>
      rw [value?, h] at hk
      cases hk
    | infinite h =>
      rw [value?, h] at hk
      cases hk
    | negative h hq =>
      cases hk.symm.trans h
      exact absurd hq (not_lt.2 (Nat.cast_nonneg k))
    | fractional h hq =>
      cases hk.symm.trans h
      exact absurd (Int.fract_natCast k) hq
    | tooFar h hq =>
      cases hk.symm.trans h
      exact_mod_cast hq
  · intro h
    cases hx : Binary.ofFloat x with
    | nan => exact .nan hx
    | infinite negative => exact .infinite hx
    | finite negative m e =>
      obtain ⟨q, hq⟩ : ∃ q, value? x = some q := by
        rw [value?, hx]
        exact ⟨_, rfl⟩
      rcases lt_or_ge q 0 with hneg | hpos
      · exact .negative hq hneg
      by_cases hfract : Int.fract q = 0
      · obtain ⟨k, rfl⟩ : ∃ k : ℕ, q = k := by
          refine ⟨⌊q⌋.toNat, ?_⟩
          rw [← Int.cast_natCast, Int.toNat_of_nonneg (Int.floor_nonneg.2 hpos)]
          exact (sub_eq_zero.1 hfract)
        exact .tooFar hq (by exact_mod_cast h k hq)
      · exact .fractional hq hfract

/-! ## Items -/

/-- The items after the one at a position has been written. -/
structure ItemWritten (items : Array Value) (k : ℕ) (v : Value) (items' : Array Value) : Prop where
  size : items'.size = max items.size (k + 1)
  written : items'[k]? = some v
  kept : ∀ j < items.size, j ≠ k → items'[j]? = items[j]?
  gap : ∀ j, items.size ≤ j → j < k → items'[j]? = some .undefined

theorem itemWritten_putItem (items : Array Value) (k : ℕ) (v : Value) :
    ItemWritten items k v (putItem items k v) where
  size := by
    rw [putItem]
    split
    · rw [Array.size_set]
      omega
    · rw [Array.size_push, Array.size_append, Array.size_replicate]
      omega
  written := getElem?_putItem items k v
  kept j hj hne := by
    rw [putItem]
    split
    · rw [Array.getElem?_set, if_neg hne.symm]
    · rw [Array.getElem?_push, Array.size_append, Array.size_replicate, if_neg (by omega),
        Array.getElem?_append_left hj]
  gap j hj hlt := by
    rw [putItem, dif_neg (by omega), Array.getElem?_push, Array.size_append, Array.size_replicate,
      if_neg (by omega), Array.getElem?_append_right hj, Array.getElem?_replicate,
      if_pos (by omega)]

/-! ## Writes -/

section Write

variable {m : Machine σ} {ref : ArrayRef} {x : Float}

theorem writeItem_of_refused (h : Refused x (m.heap.items ref).size) (v : Value) :
    writeItem ref x v m = .error (.arrayIndex (Decimal.plain x)) m := by
  rw [writeItem]
  cases hx : Decimal.toNat? x with
  | none => rfl
  | some k =>
    have hfar := refused_iff.1 h k (toNat?_eq_some_iff.1 hx)
    dsimp only
    rw [if_neg (by omega)]

theorem writeItem_of_value? {k : ℕ} (hx : value? x = some (k : ℚ))
    (hk : k < (m.heap.items ref).size + maxGrowth) (v : Value) :
    writeItem ref x v m
      = .ok () (m.mapHeap fun h ↦ h.setItems ref fun items ↦ putItem items k v) := by
  rw [writeItem, toNat?_eq_some_iff.2 hx]
  exact if_pos hk

/-- Only the cell counts that is written, so its new items can be given. -/
theorem Heap.setItems_eq_const {h : Heap} {items : Array Value}
    (hitems : h.arrays[ref.index]? = some items) (f : Array Value → Array Value) :
    h.setItems ref f = h.setItems ref fun _ ↦ f items := by
  have harrays : h.arrays.modify ref.index f = h.arrays.modify ref.index fun _ ↦ f items := by
    refine Array.ext_getElem? fun j ↦ ?_
    rw [Array.getElem?_modify, Array.getElem?_modify]
    split
    · next hj =>
      rw [← hj, hitems]
      rfl
    · rfl
  rw [setItems, setItems, harrays]

/-- However the parts of a target are evaluated, what they have pinned is pinned no longer. -/
theorem Host.KeepsPins.pins_locate {host : Host σ} (hh : host.KeepsPins) (n : ℕ) (scope : Scope)
    (t : Target) (m : Machine σ) : (t.locate host n scope m).state.pins = m.pins := by
  have hc := Machine.scoped_pins.compositional hh.write hh.call
  have heval (e : Expr) := (hc.evaluation n).eval (Region.hasScope_whole scope) e
  cases t with
  | «variable» name => rfl
  | member object property =>
    exact (hc.bind (Q := fun _ ↦ True) (heval object) fun o _ ↦ hc.pure trivial).1 m
  | index object i =>
    refine (hc.bind (Q := fun _ ↦ True) (heval object) fun o _ ↦
      hc.bind (hc.pinning _ (heval i)) fun j _ ↦ ⟨fun u ↦ ?_, fun _ _ _ _ ↦ trivial⟩).1 m
    rw [Location.looks_atIndex]

/-- An assignment to an item evaluates the value, then the parts of the target, and writes. -/
theorem eval_assign_of_locate {host : Host σ} (hh : host.KeepsPins) {n : ℕ} {scope : Scope}
    {t : Target} {e : Expr} {m₀ m₁ : Machine σ} {v : Value}
    (hvalue : eval host (n + 1) scope e m₀ = .ok v m₁)
    (htarget : pinningValue v (t.locate host n scope) m₁ = .ok (.item ref x) m) :
    eval host (n + 2) scope (.assign none t e) m₀
      = (writeItem ref x v >>= fun _ ↦ pure v : Action σ Value) m := by
  have hwrite : pinningValue v (writeTarget host (n + 1) scope t v) m₁ = writeItem ref x v m := by
    rw [writeTarget_eq hh, pinningValue, pinning_bind _ (hh.pins_locate n scope t)]
    refine (Run.bind_of_ok htarget _).trans ?_
    exact congrFun (Location.pinning_writeItem _ ref x v) m
  rw [eval, Run.bind_of_ok hvalue]
  exact Run.bind_congr_left hwrite _

end Write

/-- An assignment whose target is an item of an array, at any number, is refused or it writes the
item. It is refused exactly if the number is negative, no integer, no number, infinite, or 65536 or
more past the end, and then it fails with a range error and does nothing further. Otherwise the item
is written, the items before the old end are kept, those between are `undefined`, and the array is
longer by 65536 items at most. -/
theorem eval_assign_item {host : Host σ} (hh : host.KeepsPins) {n : ℕ} {scope : Scope} {t : Target}
    {e : Expr} {m m₁ m₂ : Machine σ} {v : Value} {ref : ArrayRef} {x : Float} {items : Array Value}
    (hvalue : eval host (n + 1) scope e m = .ok v m₁)
    (htarget : pinningValue v (t.locate host n scope) m₁ = .ok (.item ref x) m₂)
    (hitems : m₂.heap.arrays[ref.index]? = some items) :
    (Refused x items.size →
      (ScriptError.arrayIndex (Decimal.plain x)).kind = "RangeError" ∧
      eval host (n + 2) scope (.assign none t e) m = .error (.arrayIndex (Decimal.plain x)) m₂) ∧
    (¬Refused x items.size → ∃ (k : ℕ) (items' : Array Value) (m' : Machine σ),
      value? x = some (k : ℚ) ∧ eval host (n + 2) scope (.assign none t e) m = .ok v m' ∧
      m' = (m₂.mapHeap fun h ↦ h.setItems ref fun _ ↦ items') ∧
      m'.heap.arrays[ref.index]? = some items' ∧ ItemWritten items k v items' ∧
      items.size ≤ items'.size ∧ items'.size ≤ items.size + 65536 ∧
      readIndex host (.array ref) (.number x) m' = .ok v m') := by
  have hsize : (m₂.heap.items ref).size = items.size := by
    rw [Heap.items, hitems]
    rfl
  rw [eval_assign_of_locate hh hvalue htarget, ← hsize]
  constructor
  · intro h
    exact ⟨rfl, Run.bind_of_error (writeItem_of_refused h v) _⟩
  · intro h
    obtain ⟨k, hx, hk⟩ : ∃ k : ℕ, value? x = some (k : ℚ) ∧
        k < (m₂.heap.items ref).size + maxGrowth := by
      rw [refused_iff] at h
      push Not at h
      exact h
    have hwritten := itemWritten_putItem items k v
    have hnew : (m₂.heap.setItems ref fun _ ↦ putItem items k v).arrays[ref.index]?
        = some (putItem items k v) := by
      rw [Heap.setItems, Array.getElem?_modify, if_pos rfl, hitems]
      rfl
    refine ⟨k, putItem items k v, _, hx, ?_, rfl, hnew, hwritten, ?_, ?_, ?_⟩
    · rw [Run.bind_of_ok (writeItem_of_value? hx hk v)]
      exact congrArg (fun h ↦ Outcome.ok v { m₂ with heap := h }) (Heap.setItems_eq_const hitems _)
    · rw [hwritten.size]
      omega
    · rw [hwritten.size]
      rw [maxGrowth] at hk
      omega
    · refine congrArg (fun v ↦ Outcome.ok v _) ?_
      change itemAt ((m₂.heap.setItems ref fun _ ↦ putItem items k v).items ref) x = v
      rw [Heap.items, hnew, Option.getD_some, itemAt, toNat?_eq_some_iff.2 hx, Option.bind_some,
        hwritten.written, Option.getD_some]

/-- An array of one item is written two positions further, and not before its first one. -/
theorem eval_assign_item_third : ∃ m m' : World,
    eval World.scriptHost 3 [] (.assign none (.index (.variable "a") (.number 2.0)) (.bool true)) m
      = .ok (.bool true) m' ∧
    (m'.heap.arrays[0]?).map Array.size = some 3 ∧
    eval World.scriptHost 3 [] (.assign none (.index (.variable "a") (.number (-1.0))) (.bool true))
      m = .error (.arrayIndex (Decimal.plain (-1.0))) m := by
  let m : World := (World.create 256 16).mapHeap fun h ↦
    (h.newArray #[.null]).2.bindGlobal "a" (.array ⟨0⟩)
  have hvalue : eval World.scriptHost 2 [] (.bool true) m = .ok (.bool true) m := rfl
  have htarget (x : Float) : pinningValue (.bool true)
      (Target.locate World.scriptHost 1 [] (.index (.variable "a") (.number x))) m
        = .ok (.item ⟨0⟩ x) m := rfl
  have hitems : m.heap.arrays[0]? = some #[.null] := rfl
  have hthird : ¬Refused 2.0 1 := fun h ↦
    absurd (refused_iff.1 h 2 (toNat?_eq_some_iff.1 (by decide +kernel))) (by decide)
  have hbefore : Refused (-1.0) 1 := refused_iff.2 fun k hk ↦
    absurd (toNat?_eq_some_iff.2 hk) (by
      rw [show Decimal.toNat? (-1.0) = none by decide +kernel]
      exact Option.some_ne_none k ∘ Eq.symm)
  obtain ⟨k, items', m', hk, heval, -, hnew, hwritten, -⟩ :=
    (eval_assign_item World.scriptHost_keepsPins hvalue (htarget 2.0) hitems).2 hthird
  have htwo : k = 2 := by
    have hread : Decimal.toNat? 2.0 = some 2 := by decide +kernel
    exact Option.some_inj.1 ((toNat?_eq_some_iff.2 hk).symm.trans hread)
  refine ⟨m, m', heval, ?_, ?_⟩
  · rw [hnew, Option.map_some, hwritten.size, htwo]
    rfl
  · exact ((eval_assign_item World.scriptHost_keepsPins hvalue (htarget (-1.0)) hitems).1
      hbefore).2

end ReactiveFrames.Script
