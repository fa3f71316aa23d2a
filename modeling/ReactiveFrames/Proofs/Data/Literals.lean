import ReactiveFrames.Data
import ReactiveFrames.Proofs.Decimal.Rounding
import ReactiveFrames.Proofs.Frame.Typing

/-!
# Literals as values

A literal becomes a value of the same shape: an array for an array, a record with the same keys for
a dictionary, each in a new cell, and at the leaves what the scalar stands for. Numbers of scripts
are doubles, so an integer becomes the double nearest to it, and so does the number of an enum
member. An integer that is a double is kept, and two of them stay apart.

## Main definitions

* `Heap.Keeps`: the cells of a heap are in another one.
* `Literal.Shows`: the value has the shape of the literal.
* `Scalar.Shown`: the value of a leaf.

## Main statements

* `Literal.WellFormed.shows`: the value of a literal has its shape.
* `Frame.shows_literals`: the literals of a parsed frame.
-/

namespace ReactiveFrames

open Decimal (IsDouble IsNearest maxInt64 minInt64 value?)
open Script (ArrayRef Heap RecordRef Value)

/-! ## Heaps -/

namespace Script.Heap

/-- Every array and every record of the one heap is in the other one, under its number. -/
structure Keeps (h h' : Heap) : Prop where
  arrays : ∀ (k : ℕ) items, h.arrays[k]? = some items → h'.arrays[k]? = some items
  records : ∀ (k : ℕ) entries, h.records[k]? = some entries → h'.records[k]? = some entries

variable {h h' h'' : Heap}

protected theorem Keeps.refl (h : Heap) : h.Keeps h := ⟨fun _ _ hk ↦ hk, fun _ _ hk ↦ hk⟩

protected theorem Keeps.trans (h₁ : h.Keeps h') (h₂ : h'.Keeps h'') : h.Keeps h'' where
  arrays k items hk := h₂.arrays k items (h₁.arrays k items hk)
  records k entries hk := h₂.records k entries (h₁.records k entries hk)

private theorem getElem?_push_of_some {α : Type} {xs : Array α} {k : ℕ} {a b : α}
    (h : xs[k]? = some a) : (xs.push b)[k]? = some a := by
  obtain ⟨hk, rfl⟩ := Array.getElem?_eq_some_iff.1 h
  rw [Array.getElem?_push_lt hk]

theorem keeps_newArray (h : Heap) (items : Array Value) : h.Keeps (h.newArray items).2 where
  arrays _ _ hk := getElem?_push_of_some hk
  records _ _ hk := hk

theorem keeps_newRecord (h : Heap) (entries : Table Value) : h.Keeps (h.newRecord entries).2 where
  arrays _ _ hk := hk
  records _ _ hk := getElem?_push_of_some hk

end Script.Heap

/-! ## Shape -/

/-- Value of a scalar. -/
def Scalar.toValue (s : Scalar) : Value := ((Literal.scalar s).toValue {}).1

/-- In the heap, the value has the shape of the literal: an array has its items, a record its keys
in their order with its entries, and the leaves are related. -/
inductive Literal.Shows (R : Scalar → Value → Prop) (h : Heap) : Literal → Value → Prop
  | scalar {s : Scalar} {v : Value} (hv : R s v) : Shows R h (.scalar s) v
  | array {items : List Literal} {ref : ArrayRef} {values : Array Value}
    (hcell : h.arrays[ref.index]? = some values) (hlength : values.size = items.length)
    (hitems : ∀ (k : ℕ) l v, items[k]? = some l → values[k]? = some v → Shows R h l v) :
    Shows R h (.array items) (.array ref)
  | dictionary {entries : List (String × Literal)} {ref : RecordRef} {table : Table Value}
    (hcell : h.records[ref.index]? = some table) (hkeys : table.names = entries.map (·.1))
    (hentries : ∀ (k : ℕ) l v, (entries.map (·.2))[k]? = some l → table.values[k]? = some v →
      Shows R h l v) :
    Shows R h (.dictionary entries) (.record ref)

namespace Literal

variable {R : Scalar → Value → Prop} {h h' : Heap}

/-- New cells make no difference. -/
theorem Shows.mono {l : Literal} {v : Value} (hl : l.Shows R h v) (hh : h.Keeps h') :
    l.Shows R h' v := by
  induction hl with
  | scalar hv => exact .scalar hv
  | array hcell hlength _ ih => exact .array (hh.arrays _ _ hcell) hlength ih
  | dictionary hcell hkeys _ ih => exact .dictionary (hh.records _ _ hcell) hkeys ih

theorem toValue_scalar (s : Scalar) (h : Heap) : (Literal.scalar s).toValue h = (s.toValue, h) := by
  cases s <;> rfl

/-- The entries of a dictionary are converted as items, under their keys. -/
theorem entriesToValues_eq (entries : List (String × Literal)) (h : Heap) :
    entriesToValues entries h
      = ((entries.map (·.1)).zip (itemsToValues (entries.map (·.2)) h).1,
          (itemsToValues (entries.map (·.2)) h).2) := by
  induction entries generalizing h with
  | nil => rfl
  | cons e entries ih =>
    obtain ⟨key, value⟩ := e
    rw [entriesToValues]
    dsimp only
    rw [ih]
    rfl

/-- Literals that have their shapes one by one have them all in the end. -/
theorem shows_itemsToValues {items : List Literal}
    (hitems : ∀ l ∈ items, ∀ h, h.Keeps (l.toValue h).2 ∧
      l.Shows R (l.toValue h).2 (l.toValue h).1) (h : Heap) :
    h.Keeps (itemsToValues items h).2 ∧ (itemsToValues items h).1.length = items.length ∧
      ∀ (k : ℕ) l v, items[k]? = some l → (itemsToValues items h).1[k]? = some v →
        l.Shows R (itemsToValues items h).2 v := by
  induction items generalizing h with
  | nil => exact ⟨.refl h, rfl, fun k l v hl ↦ by cases hl⟩
  | cons item items ih =>
    obtain ⟨hitem, hitems⟩ := List.forall_mem_cons.1 hitems
    obtain ⟨hkeeps, hshows⟩ := hitem h
    obtain ⟨hkeeps', hlength, hshows'⟩ := ih hitems (item.toValue h).2
    rw [itemsToValues]
    refine ⟨hkeeps.trans hkeeps', congrArg (· + 1) hlength, fun k l v hl hv ↦ ?_⟩
    cases k with
    | zero =>
      cases hl
      cases hv
      exact hshows.mono hkeeps'
    | succ k => exact hshows' k l v hl hv

/-- The value of a literal has its shape, and is made of new cells. -/
theorem WellFormed.shows {enums : EnumTable} {leaf : Option ScalarType} {l : Literal}
    (hl : l.WellFormed enums leaf) (hR : ∀ s, s.WellFormed enums leaf → R s s.toValue) (h : Heap) :
    h.Keeps (l.toValue h).2 ∧ l.Shows R (l.toValue h).2 (l.toValue h).1 := by
  induction hl generalizing h with
  | @scalar s hs =>
    rw [toValue_scalar]
    exact ⟨.refl h, .scalar (hR s hs)⟩
  | @array items _ ih =>
    obtain ⟨hkeeps, hlength, hshows⟩ := shows_itemsToValues ih h
    have hnew := Heap.keeps_newArray (itemsToValues items h).2 (itemsToValues items h).1.toArray
    rw [toValue]
    refine ⟨hkeeps.trans hnew, .array Array.getElem?_push_size ?_ fun k l v hl hv ↦ ?_⟩
    · rw [List.size_toArray, hlength]
    · rw [List.getElem?_toArray] at hv
      exact (hshows k l v hl hv).mono hnew
  | @dictionary entries _ hascending _ ih =>
    obtain ⟨hkeeps, hlength, hshows⟩ := @shows_itemsToValues R (entries.map (·.2))
      (List.forall_mem_map.2 ih) h
    rw [toValue, entriesToValues_eq]
    generalize itemsToValues (entries.map (·.2)) h = r at hkeeps hlength hshows
    have hlength' : (entries.map (·.1)).length = r.1.length := by
      rw [hlength, List.length_map, List.length_map]
    have hkeys : ((entries.map (·.1)).zip r.1).map (·.1) = entries.map (·.1) :=
      List.map_fst_zip hlength'.le
    have hvalues : ((entries.map (·.1)).zip r.1).map (·.2) = r.1 := List.map_snd_zip hlength'.ge
    have hentries : (Table.ofList ((entries.map (·.1)).zip r.1)).entries
        = (entries.map (·.1)).zip r.1 := by
      refine Table.entries_ofList (List.pairwise_map.1 ?_)
      rw [hkeys]
      exact List.pairwise_map.2 hascending
    have hnew := Heap.keeps_newRecord r.2 (Table.ofList ((entries.map (·.1)).zip r.1))
    refine ⟨hkeeps.trans hnew, .dictionary Array.getElem?_push_size ?_ fun k l v hl hv ↦ ?_⟩
    · rw [Table.names, hentries, hkeys]
    · rw [Table.values, hentries, hvalues] at hv
      exact (hshows k l v hl hv).mono hnew

end Literal

/-! ## Leaves -/

/-- The value of a scalar, with the double nearest to an integer. -/
inductive Scalar.Shown : Scalar → Value → Prop
  | bool (b : Bool) : Shown (.bool b) (.bool b)
  | int {i : ℤ} {x : Float} (h : IsNearest x i) : Shown (.int i) (.number x)
  | float (x : Float) : Shown (.float x) (.number x)
  | string (s : String) : Shown (.string s) (.string s)
  | url (s : String) : Shown (.url s) (.string s)
  | enum (type member : String) {i : ℤ} {x : Float} (h : IsNearest x i) :
    Shown (.enum type member i) (.number x)

/-- Integer that a scalar stands for. -/
def Scalar.integer? : Scalar → Option ℤ
  | int i => some i
  | enum _ _ i => some i
  | _ => none

/-- The members of all enum types are integers of sixty-four bits. -/
def EnumTable.Fits (enums : EnumTable) : Prop :=
  ∀ name type, enums.type? name = some type → ∀ m ∈ type.members, minInt64 ≤ m.2 ∧ m.2 ≤ maxInt64

namespace Scalar

theorem WellFormed.shown {enums : EnumTable} (henums : enums.Fits) {leaf : Option ScalarType}
    {s : Scalar} (hs : s.WellFormed enums leaf) : s.Shown s.toValue := by
  cases s with
  | bool b => exact .bool b
  | int i => exact .int (Decimal.isNearest_ofInt hs.2.1 hs.2.2)
  | float x => exact .float x
  | string s => exact .string s
  | url s => exact .url s
  | enum name member i =>
    obtain ⟨-, -, hvalue⟩ := hs
    obtain ⟨type, htype, hmember⟩ := Option.bind_eq_some_iff.1 hvalue
    obtain ⟨m, hm, rfl⟩ := Option.map_eq_some_iff.1 hmember
    obtain ⟨hlow, hhigh⟩ := henums name type htype m (List.mem_of_find?_eq_some hm)
    exact .enum name member (Decimal.isNearest_ofInt hlow hhigh)

theorem Shown.exists_number {s : Scalar} {v : Value} {i : ℤ} (h : s.Shown v)
    (hi : s.integer? = some i) : ∃ x, v = .number x ∧ IsNearest x i := by
  cases h with
  | int h =>
    cases hi
    exact ⟨_, rfl, h⟩
  | enum _ _ h =>
    cases hi
    exact ⟨_, rfl, h⟩
  | _ => cases hi

/-- Integers that are doubles are kept, so their values are equal if they are. -/
theorem Shown.equals_iff {s t : Scalar} {v w : Value} {i j : ℤ} (hs : s.Shown v) (ht : t.Shown w)
    (hi : s.integer? = some i) (hj : t.integer? = some j) (hdi : IsDouble i) (hdj : IsDouble j) :
    (v.strictEquals w = true ↔ i = j) ∧ (v.looseEquals w = true ↔ i = j) := by
  obtain ⟨x, rfl, hx⟩ := hs.exists_number hi
  obtain ⟨y, rfl, hy⟩ := ht.exists_number hj
  have hequal : (x == y) = true ↔ i = j := by
    rw [Decimal.beq_iff_value?_eq (hx.value? hdi) (hy.value? hdj), Int.cast_inj]
  exact ⟨hequal, hequal⟩

end Scalar

/-! ## Parsed frames -/

/-- Literal of a property. -/
def Member.literal? : Member → Option Literal
  | property _ _ _ value => some value
  | _ => none

theorem Member.WellFormed.exists_leaf {enums : EnumTable} {m : Member} (hm : m.WellFormed enums)
    {l : Literal} (hl : m.literal? = some l) : ∃ leaf, l.WellFormed enums leaf := by
  cases hm with
  | property _ _ _ _ h =>
    cases hl
    exact ⟨_, h⟩
  | _ => cases hl

/-- Every literal of a parsed frame becomes a value of its shape, in new cells. An integer at a
leaf, and the number of an enum member, becomes the double nearest to it. That is the integer itself
if some double is, as for all up to `2 ^ 53`. Values of integers that are doubles are equal exactly
if the integers are. -/
theorem Frame.shows_literals {enums : EnumTable} {source : String} {f : Frame}
    (hparse : Frame.parse enums source = .ok f) (henums : enums.Fits) :
    (∀ p ∈ f.preorder, ∀ l, p.2.literal? = some l → ∀ h : Heap,
      h.Keeps (l.toValue h).2 ∧ l.Shows Scalar.Shown (l.toValue h).2 (l.toValue h).1) ∧
    (∀ s v i, Scalar.Shown s v → s.integer? = some i →
      ∃ x, v = .number x ∧ IsNearest x i ∧ (IsDouble i → value? x = some (i : ℚ))) ∧
    (∀ s t v w i j, Scalar.Shown s v → Scalar.Shown t w → s.integer? = some i →
      t.integer? = some j → IsDouble i → IsDouble j →
        (v.strictEquals w = true ↔ i = j) ∧ (v.looseEquals w = true ↔ i = j)) ∧
    ∀ i : ℤ, i.natAbs ≤ 2 ^ 53 → IsDouble i := by
  refine ⟨fun p hp l hl h ↦ ?_, fun s v i hs hi ↦ ?_,
    fun s t v w i j hs ht hi hj hdi hdj ↦ hs.equals_iff ht hi hj hdi hdj,
    fun i ↦ Decimal.isDouble_of_natAbs_le⟩
  · have hmember :=
      Member.WellFormed.of_mem_preorderList (wellFormed_of_parse hparse).members _ p hp
    obtain ⟨leaf, hleaf⟩ := hmember.exists_leaf hl
    exact hleaf.shows (fun s hs ↦ hs.shown henums) h
  · obtain ⟨x, rfl, hx⟩ := hs.exists_number hi
    exact ⟨x, rfl, hx, hx.value?⟩

/-- An enum type with one member. -/
def tints : EnumTable := EnumTable.register Table.empty (EnumType.ofMembers "Tint" [("red", 3)])

theorem fits_tints : tints.Fits := by
  intro name type htype m hm
  rw [tints, EnumTable.type?, EnumTable.register, Table.find?_insert] at htype
  split at htype
  · cases htype
    obtain rfl := List.mem_singleton.1 hm
    exact ⟨by decide, by decide⟩
  · cases htype

/-- A dictionary of members of an enum type is declared, and becomes a record. -/
theorem Frame.shows_literals_dictionary : ∃ f p l,
    Frame.parse tints "p: Object \x7b d: Tint \x7b k: red \x7d \x7d" = .ok f ∧ tints.Fits ∧
      p ∈ f.preorder ∧ p.2.literal? = some l ∧
      ((l.toValue {}).2.records[0]?).map Table.names = some ["k"] ∧
      l.Shows Scalar.Shown (l.toValue {}).2 (l.toValue {}).1 ∧ IsDouble (3 : ℤ) := by
  have hrun : Except.okWith (fun f ↦ f.preorder.any fun p ↦ p.2.literal?.any fun l ↦
      ((l.toValue {}).2.records[0]?).map Table.names == some ["k"])
      (Frame.parse tints "p: Object \x7b d: Tint \x7b k: red \x7d \x7d") = true := by
    decide +kernel
  obtain ⟨f, hparse, hrun⟩ := Except.exists_of_okWith hrun
  obtain ⟨p, hp, hrun⟩ := List.any_eq_true.1 hrun
  obtain ⟨l, hl, hnames⟩ := (Option.any_eq_true _ _).1 hrun
  obtain ⟨hshows, -, -, hsmall⟩ := Frame.shows_literals hparse fits_tints
  exact ⟨f, p, l, hparse, fits_tints, hp, hl, beq_iff_eq.1 hnames, (hshows p hp l hl {}).2,
    hsmall 3 (by norm_num)⟩

/-- The declarations of two neighbouring integers, of which one is no double. -/
def neighbours : String :=
  "root: Object \x7b a: Int 9007199254740992 b: Int 9007199254740993 \x7d"

/-- The literal is the integer. -/
def Literal.isInt (i : ℤ) : Literal → Bool
  | .scalar (.int j) => i == j
  | _ => false

theorem Literal.eq_of_isInt {i : ℤ} {l : Literal} (h : l.isInt i = true) :
    l = .scalar (.int i) := by
  unfold isInt at h
  split at h
  · rw [beq_iff_eq.1 h]
  · cases h

/-- Two neighbouring integers are declared, and become the same number. -/
theorem Frame.shows_literals_neighbours : ∃ f p q,
    Frame.parse Table.empty neighbours = .ok f ∧ p ∈ f.preorder ∧ q ∈ f.preorder ∧
      p.2.literal? = some (.scalar (.int 9007199254740992)) ∧
      q.2.literal? = some (.scalar (.int 9007199254740993)) ∧
      ((Literal.scalar (.int 9007199254740992)).toValue {}).1.strictEquals
        ((Literal.scalar (.int 9007199254740993)).toValue {}).1 = true := by
  have hrun : Except.okWith (fun f ↦
      (f.preorder.any fun p ↦ p.2.literal?.any (Literal.isInt 9007199254740992)) &&
        f.preorder.any fun q ↦ q.2.literal?.any (Literal.isInt 9007199254740993))
      (Frame.parse Table.empty neighbours) = true := by
    decide +kernel
  obtain ⟨f, hparse, hrun⟩ := Except.exists_of_okWith hrun
  obtain ⟨hp, hq⟩ := Bool.and_eq_true_iff.1 hrun
  obtain ⟨p, hp, hpl⟩ := List.any_eq_true.1 hp
  obtain ⟨q, hq, hql⟩ := List.any_eq_true.1 hq
  obtain ⟨l, hpl, hl⟩ := (Option.any_eq_true _ _).1 hpl
  obtain ⟨l', hql, hl'⟩ := (Option.any_eq_true _ _).1 hql
  rw [Literal.eq_of_isInt hl] at hpl
  rw [Literal.eq_of_isInt hl'] at hql
  exact ⟨f, p, q, hparse, hp, hq, hpl, hql, by decide +kernel⟩

end ReactiveFrames
