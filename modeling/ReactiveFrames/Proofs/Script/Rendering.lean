import ReactiveFrames.Program
import ReactiveFrames.Proofs.Script.Moments
import Mathlib.Data.Finset.Card
import Mathlib.Data.Finset.Image
import Mathlib.Logic.Relation

/-!
# Texts that end

The text of an array is made of the texts of its items, and the description of an array or a record
of the descriptions of its contents. That is a recursion through the cells of the heap, which
scripts can write to at any time. It comes to an end exactly where no value that it meets contains
itself: a heap has only so many cells, so a longer chain of contents passes through one of them
twice.

Everything that takes the text of a value thus ends exactly if the value does not lead into itself:
a sum, the function `String`, the console, a failure that a script throws, and a key that is no
position.

## Main definitions

* `Loops`: among what a value is made of, there is something that is made of itself.
* `Rendering`: a text for every value which does not loop, by recursion on its parts.
* `Heap.itemsOf`, `Heap.contentsOf`: parts of a value, for its text and for its description.

## Main statements

* `Heap.text_rendering`, `Heap.description_rendering`: texts and descriptions are renderings.
* `Machine.rendersUnlessLooping`: what takes texts ends exactly if they do.
-/

namespace ReactiveFrames.Script

open Relation (ReflTransGen TransGen)

/-! ## Recursion on parts -/

section Parts

variable {α : Type} {parts : α → List α} {u v : α}

/-- The value is a part of the other. -/
def PartOf (parts : α → List α) (u v : α) : Prop := u ∈ parts v

/-- The value is made of one that is made of itself. -/
def Loops (parts : α → List α) (v : α) : Prop :=
  ∃ u, ReflTransGen (PartOf parts) u v ∧ TransGen (PartOf parts) u u

theorem loops_of_self (h : TransGen (PartOf parts) v v) : Loops parts v := ⟨v, .refl, h⟩

theorem Loops.of_part (hu : Loops parts u) (h : u ∈ parts v) : Loops parts v := by
  obtain ⟨x, hx, hself⟩ := hu
  exact ⟨x, hx.tail h, hself⟩

/-- Where the recursion on parts is well-founded, nothing is made of itself. -/
theorem not_loops_of_acc (h : Acc (PartOf parts) v) : ¬Loops parts v := by
  induction h with
  | intro v _ ih =>
    rintro ⟨u, huv, hself⟩
    rcases ReflTransGen.cases_tail huv with rfl | ⟨x, hux, hx⟩
    · -- The last part on the way from the value to itself loops too.
      obtain ⟨x, hvx, hx⟩ := TransGen.tail'_iff.1 hself
      exact ih x hx (loops_of_self (.head' hx hvx))
    · exact ih x hx ⟨u, hux, hself⟩

/-- Texts of values by recursion on their parts, if the recursion is at most so deep. -/
structure Deepening (parts : α → List α) (assemble : α → List String → String)
    (render : Nat → α → Option String) : Prop where
  zero : ∀ v s, render 0 v = some s → parts v = [] ∧ s = assemble v []
  succ : ∀ n v, render (n + 1) v = ((parts v).mapM (render n)).map (assemble v)

/-- Texts of values by recursion on their parts. A value has one exactly if the recursion is
well-founded there, and that is so if the value does not loop. -/
structure Rendering (parts : α → List α) (assemble : α → List String → String)
    (render : α → Option String) : Prop where
  recursion : ∀ v, render v = ((parts v).mapM render).map (assemble v)
  ends_iff : ∀ v, (render v).isSome ↔ Acc (PartOf parts) v
  acc_iff : ∀ v, Acc (PartOf parts) v ↔ ¬Loops parts v

theorem Rendering.isSome_iff {assemble : α → List String → String} {render : α → Option String}
    (h : Rendering parts assemble render) (v : α) : (render v).isSome ↔ ¬Loops parts v :=
  (h.ends_iff v).trans (h.acc_iff v)

theorem mapM_isSome_iff {f : α → Option String} {l : List α} :
    (l.mapM f).isSome ↔ ∀ u ∈ l, (f u).isSome := by
  induction l with
  | nil => exact iff_of_true rfl fun _ hu ↦ absurd hu List.not_mem_nil
  | cons u rest ih =>
    rw [List.mapM_cons, List.forall_mem_cons, ← ih]
    cases f u with
    | none => exact iff_of_false Bool.false_ne_true fun h ↦ Bool.false_ne_true h.1
    | some s => cases rest.mapM f <;> simp

/-- Texts that are there with one function are there with another one that yields no less. -/
theorem mapM_of_forall {f g : α → Option String} {l : List α} {texts : List String}
    (h : ∀ u ∈ l, ∀ s, f u = some s → g u = some s) (hl : l.mapM f = some texts) :
    l.mapM g = some texts := by
  induction l generalizing texts with
  | nil => exact hl
  | cons u rest ih =>
    obtain ⟨hfirst, hrest⟩ := List.forall_mem_cons.1 h
    rw [List.mapM_cons] at hl ⊢
    cases hu : f u with
    | none => rw [hu] at hl; cases hl
    | some s =>
      cases hs : rest.mapM f with
      | none => rw [hu, hs] at hl; cases hl
      | some texts => rwa [hfirst s hu, ih hrest hs, ← hu, ← hs]

namespace Deepening

variable {assemble : α → List String → String} {render : Nat → α → Option String} {n m : Nat}
  (hd : Deepening parts assemble render)
include hd

theorem isSome_succ : (render (n + 1) v).isSome ↔ ∀ u ∈ parts v, (render n u).isSome := by
  rw [hd.succ, Option.isSome_map, mapM_isSome_iff]

/-- A text that is found stays the same when the recursion may be deeper. -/
theorem mono {s : String} (hs : render n v = some s) (hnm : n ≤ m) : render m v = some s := by
  induction n generalizing v s m with
  | zero =>
    cases m with
    | zero => exact hs
    | succ m =>
      obtain ⟨hparts, rfl⟩ := hd.zero v s hs
      rw [hd.succ, hparts]
      rfl
  | succ n ih =>
    obtain ⟨m, rfl⟩ := Nat.exists_eq_add_of_le' hnm
    rw [hd.succ, Option.map_eq_some_iff] at hs
    obtain ⟨texts, htexts, rfl⟩ := hs
    rw [← Nat.add_assoc, hd.succ,
      mapM_of_forall (fun u _ s hs ↦ ih hs (Nat.le_add_left n m)) htexts]
    rfl

theorem acc_of_isSome (hs : (render n v).isSome) : Acc (PartOf parts) v := by
  induction n generalizing v with
  | zero =>
    obtain ⟨s, hs⟩ := Option.isSome_iff_exists.1 hs
    obtain ⟨hparts, -⟩ := hd.zero v s hs
    refine ⟨v, fun u hu ↦ ?_⟩
    rw [PartOf, hparts] at hu
    exact absurd hu List.not_mem_nil
  | succ n ih => exact ⟨v, fun u hu ↦ ih (hd.isSome_succ.1 hs u hu)⟩

/-- A value that does not loop has a text, if the recursion may be deeper than there are cells that
the value leads to. -/
theorem isSome_of_not_loops {cells : Finset α}
    (hcells : ∀ u, ReflTransGen (PartOf parts) u v → parts u ≠ [] → u ∈ cells)
    (hv : ¬Loops parts v) (hn : cells.card < n) : (render n v).isSome := by
  classical
  -- One step down there is one cell less, as nothing leads back to the value.
  induction n generalizing cells v with
  | zero => exact absurd hn (Nat.not_lt_zero _)
  | succ n ih =>
    refine hd.isSome_succ.2 fun u hu ↦ ?_
    have hmem : v ∈ cells := hcells v .refl (List.ne_nil_of_mem hu)
    have hfewer : ∀ x, ReflTransGen (PartOf parts) x u → parts x ≠ [] → x ∈ cells.erase v := by
      intro x hx hparts
      refine Finset.mem_erase.2 ⟨?_, hcells x (hx.tail hu) hparts⟩
      rintro rfl
      exact hv (loops_of_self (.tail' hx hu))
    have hcard : (cells.erase v).card < n := by
      rw [Finset.card_erase_of_mem hmem]
      have hpos : 0 < cells.card := Finset.card_pos.2 ⟨v, hmem⟩
      omega
    exact ih hfewer (fun h ↦ hv (h.of_part hu)) hcard

/-- With one more step than there are cells, the recursion has no bound. -/
theorem rendering {cells : Finset α} (hcells : ∀ u, parts u ≠ [] → u ∈ cells)
    (hn : cells.card < n) : Rendering parts assemble (render n) := by
  have hends (m : Nat) (hm : cells.card < m) (v : α) (hv : ¬Loops parts v) : (render m v).isSome :=
    hd.isSome_of_not_loops (fun u _ hu ↦ hcells u hu) hv hm
  have hacc (m : Nat) (v : α) (hs : (render m v).isSome) : ¬Loops parts v :=
    not_loops_of_acc (hd.acc_of_isSome hs)
  refine {
    recursion := fun v ↦ ?_
    ends_iff := fun v ↦ ⟨hd.acc_of_isSome, fun h ↦ hends n hn v (not_loops_of_acc h)⟩
    acc_iff := fun v ↦ ⟨not_loops_of_acc, fun h ↦ hd.acc_of_isSome (hends n hn v h)⟩ }
  rw [← hd.succ]
  cases hs : render n v with
  | some s => exact (hd.mono hs (Nat.le_succ n)).symm
  | none =>
    have hlonger : ¬(render (n + 1) v).isSome := fun h ↦ by
      have hshorter := hends n hn v (hacc (n + 1) v h)
      rw [hs] at hshorter
      cases hshorter
    exact (Option.not_isSome_iff_eq_none.1 hlonger).symm

end Deepening

end Parts

/-! ## Texts and descriptions -/

namespace Heap

/-- What the text of a value is made of: the items of an array. -/
def itemsOf (h : Heap) : Value → List Value
  | .array ref => (h.items ref).toList
  | _ => []

/-- What the description of a value is made of: the items of an array, and the values in a
record. -/
def contentsOf (h : Heap) : Value → List Value
  | .array ref => (h.items ref).toList
  | .record ref => (h.entries ref).entries.map Prod.snd
  | _ => []

/-- Text of a value, from the texts of its items. -/
def textOf (h : Heap) (v : Value) (texts : List String) : String :=
  match v with
  | .array _ => ",".intercalate texts
  | v => h.atomText v

/-- Description of a value, from the descriptions of its contents. -/
def descriptionOf (h : Heap) (v : Value) (texts : List String) : String :=
  match v with
  | .array _ => "[" ++ ", ".intercalate texts ++ "]"
  | .record ref =>
    "\x7b" ++ ", ".intercalate
      (List.zipWith (fun e text ↦ e.1 ++ ": " ++ text) (h.entries ref).entries texts) ++ "\x7d"
  | .string s => Text.quoted s
  | v => h.atomText v

variable (h : Heap)

theorem deepening_text : Deepening h.itemsOf h.textOf h.textWithin where
  zero v s hs := by
    cases v with
    | array ref => cases hs
    | _ => exact ⟨rfl, (Option.some.inj hs).symm⟩
  succ n v := by cases v <;> rfl

/-- The descriptions of the entries of a record are those of its values, behind their names. -/
theorem mapM_entries (f : Value → Option String) (entries : List (String × Value)) :
    (entries.mapM fun e ↦ (f e.2).map fun text ↦ e.1 ++ ": " ++ text)
      = ((entries.map Prod.snd).mapM f).map
          (List.zipWith (fun e text ↦ e.1 ++ ": " ++ text) entries) := by
  induction entries with
  | nil => rfl
  | cons e rest ih =>
    rw [List.map_cons, List.mapM_cons, List.mapM_cons, ih]
    cases f e.2 with
    | none => rfl
    | some text => cases (rest.map Prod.snd).mapM f <;> rfl

theorem deepening_description :
    Deepening h.contentsOf h.descriptionOf h.descriptionWithin where
  zero v s hs := by
    cases v with
    | array ref | record ref => cases hs
    | _ => exact ⟨rfl, (Option.some.inj hs).symm⟩
  succ n v := by
    cases v with
    | record ref =>
      rw [descriptionWithin, mapM_entries, Option.map_map]
      rfl
    | _ => rfl

/-- All cells that a value can have contents in. -/
theorem exists_cells : ∃ cells : Finset Value, cells.card ≤ h.size ∧
    ∀ u, h.contentsOf u ≠ [] → u ∈ cells := by
  classical
  let arrays := (Finset.range h.arrays.size).image fun n ↦ Value.array ⟨n⟩
  let records := (Finset.range h.records.size).image fun n ↦ Value.record ⟨n⟩
  refine ⟨arrays ∪ records, ?_, fun u hu ↦ ?_⟩
  · have harrays : arrays.card ≤ h.arrays.size :=
      Finset.card_image_le.trans_eq (Finset.card_range _)
    have hrecords : records.card ≤ h.records.size :=
      Finset.card_image_le.trans_eq (Finset.card_range _)
    exact (Finset.card_union_le _ _).trans (Nat.add_le_add harrays hrecords)
  · cases u with
    | array ref =>
      refine Finset.mem_union_left _ (Finset.mem_image.2 ⟨ref.index, Finset.mem_range.2 ?_, rfl⟩)
      by_contra hout
      rw [contentsOf, items, Array.getElem?_eq_none (Nat.le_of_not_lt hout)] at hu
      exact hu rfl
    | record ref =>
      refine Finset.mem_union_right _ (Finset.mem_image.2 ⟨ref.index, Finset.mem_range.2 ?_, rfl⟩)
      by_contra hout
      rw [contentsOf, entries, Array.getElem?_eq_none (Nat.le_of_not_lt hout)] at hu
      exact hu rfl
    | _ => exact absurd rfl hu

theorem itemsOf_subset (v : Value) (hv : h.itemsOf v ≠ []) : h.contentsOf v ≠ [] := by
  cases v with
  | array ref => exact hv
  | _ => exact absurd rfl hv

/-- A value has a text unless its items loop. -/
theorem text_rendering : Rendering h.itemsOf h.textOf h.text? := by
  obtain ⟨cells, hcard, hcells⟩ := h.exists_cells
  exact h.deepening_text.rendering (fun u hu ↦ hcells u (h.itemsOf_subset u hu))
    (Nat.lt_succ_of_le hcard)

/-- A value has a description unless its contents loop. -/
theorem description_rendering : Rendering h.contentsOf h.descriptionOf h.description? := by
  obtain ⟨cells, hcard, hcells⟩ := h.exists_cells
  exact h.deepening_description.rendering hcells (Nat.lt_succ_of_le hcard)

end Heap

/-! ## What takes texts -/

section Uses

variable {σ α : Type} {host : Host σ} {m : Machine σ} {v : Value}

theorem Action.text_of_not_loops (hv : ¬Loops m.heap.itemsOf v) :
    ∃ s, Action.text v m = .ok s m := by
  obtain ⟨s, hs⟩ := Option.isSome_iff_exists.1 ((m.heap.text_rendering.isSome_iff v).2 hv)
  refine ⟨s, ?_⟩
  rw [Action.text, hs]
  rfl

theorem Action.text_of_loops (hv : Loops m.heap.itemsOf v) : Action.text v m = .exhausted m := by
  have hnone : ¬(m.heap.text? v).isSome := fun hs ↦ (m.heap.text_rendering.isSome_iff v).1 hs hv
  rw [Action.text, Option.not_isSome_iff_eq_none.1 hnone]
  rfl

/-- A text is taken, and the rest ends anyway. -/
theorem Action.returns_bind_text_iff {f : String → Action σ α} (hf : ∀ s, (f s m).Returns) :
    ((Action.text v >>= f) m).Returns ↔ ¬Loops m.heap.itemsOf v := by
  by_cases hv : Loops m.heap.itemsOf v
  · rw [Run.bind_of_exhausted (Action.text_of_loops hv)]
    exact iff_of_false id fun h ↦ h hv
  · obtain ⟨s, hs⟩ := Action.text_of_not_loops hv
    rw [Run.bind_of_ok hs]
    exact iff_of_true (hf s) hv

/-- Texts of several values. -/
theorem Action.returns_bind_texts_iff {vs : List Value} {f : List String → Action σ α}
    (hf : ∀ texts, (f texts m).Returns) :
    ((vs.mapM Action.text >>= f) m).Returns ↔ ∀ v ∈ vs, ¬Loops m.heap.itemsOf v := by
  induction vs generalizing f with
  | nil => exact iff_of_true (hf []) fun _ hv ↦ absurd hv List.not_mem_nil
  | cons v vs ih =>
    rw [List.mapM_cons, List.forall_mem_cons, bind_assoc]
    by_cases hv : Loops m.heap.itemsOf v
    · rw [Run.bind_of_exhausted (Action.text_of_loops hv)]
      exact iff_of_false id fun h ↦ h.1 hv
    · obtain ⟨s, hs⟩ := Action.text_of_not_loops hv
      rw [Run.bind_of_ok hs, bind_assoc, and_iff_right hv]
      exact ih fun texts ↦ hf (s :: texts)

/-- Nothing that has no parts loops. -/
theorem not_loops_of_parts_eq_nil {parts : Value → List Value} (hv : parts v = []) :
    ¬Loops parts v := by
  refine not_loops_of_acc ⟨v, fun u hu ↦ ?_⟩
  rw [PartOf, hv] at hu
  exact absurd hu List.not_mem_nil

/-- On a machine, texts and descriptions of all values are renderings, and whatever takes the text
of a value ends exactly if the value does not loop. -/
structure Machine.RendersUnlessLooping (host : Host σ) (m : Machine σ) : Prop where
  text : Rendering m.heap.itemsOf m.heap.textOf m.heap.text?
  description : Rendering m.heap.contentsOf m.heap.descriptionOf m.heap.description?
  sum : ∀ a b, (binaryValue .add a b m).Returns ↔
    (a.isArithmetic ∧ b.isArithmetic) ∨ (¬Loops m.heap.itemsOf a ∧ ¬Loops m.heap.itemsOf b)
  string : ∀ v rest, (Builtin.string.apply (v :: rest) m).Returns ↔ ¬Loops m.heap.itemsOf v
  log : ∀ vs, (Builtin.log.apply vs m).Returns ↔ ∀ v ∈ vs, ¬Loops m.heap.itemsOf v
  throw : ∀ n scope e v u, eval host n scope e m = .ok v u →
    ((exec host (n + 1) scope (.throwValue e) m).Returns ↔ ¬Loops u.heap.itemsOf v)
  read : ∀ object index, (readIndex host object index m).Returns ↔ ¬Loops m.heap.itemsOf index
  write : ∀ object index value, (∀ key, (writeMember host object key value m).Returns) →
    ((writeIndex host object index value m).Returns ↔ ¬Loops m.heap.itemsOf index)

theorem returns_sum_iff (a b : Value) : (binaryValue .add a b m).Returns ↔
    (a.isArithmetic ∧ b.isArithmetic) ∨ (¬Loops m.heap.itemsOf a ∧ ¬Loops m.heap.itemsOf b) := by
  rw [binaryValue]
  by_cases harithmetic : a.isArithmetic && b.isArithmetic
  · rw [if_pos harithmetic]
    exact iff_of_true trivial (.inl (Bool.and_eq_true_iff.1 harithmetic))
  · rw [if_neg harithmetic, ← Bool.and_eq_true_iff, or_iff_right harithmetic]
    by_cases ha : Loops m.heap.itemsOf a
    · rw [Run.bind_of_exhausted (Action.text_of_loops ha)]
      exact iff_of_false id fun h ↦ h.1 ha
    · obtain ⟨s, hs⟩ := Action.text_of_not_loops ha
      rw [Run.bind_of_ok hs, and_iff_right ha]
      exact Action.returns_bind_text_iff fun _ ↦ trivial

theorem returns_readIndex_iff (object index : Value) :
    (readIndex host object index m).Returns ↔ ¬Loops m.heap.itemsOf index := by
  have hmember (key : String) : (readMember host object key m).Returns :=
    (Action.Enters.readMember object key).returns_iff.2 fun _ he ↦ absurd he List.not_mem_nil
  have hkey : ((Action.text index >>= readMember host object) m).Returns
      ↔ ¬Loops m.heap.itemsOf index :=
    Action.returns_bind_text_iff hmember
  cases index with
  | number x =>
    cases object with
    | array ref | string s => exact iff_of_true trivial (not_loops_of_parts_eq_nil rfl)
    | _ => exact hkey
  | _ => cases object <;> exact hkey

theorem returns_writeIndex_iff {object : Value} (index value : Value)
    (hmember : ∀ key, (writeMember host object key value m).Returns) :
    (writeIndex host object index value m).Returns ↔ ¬Loops m.heap.itemsOf index := by
  have hkey : ((Action.text index >>= fun key ↦ writeMember host object key value) m).Returns
      ↔ ¬Loops m.heap.itemsOf index :=
    Action.returns_bind_text_iff hmember
  cases index with
  | number x =>
    cases object with
    | array ref =>
      have hitem : Action.Enters host (writeItem ref x value) m [] := .writeItem ref x value
      refine iff_of_true ?_ (not_loops_of_parts_eq_nil rfl)
      exact hitem.returns_iff.2 fun _ he ↦ absurd he List.not_mem_nil
    | _ => exact hkey
  | _ => cases object <;> exact hkey

/-- On every machine, for every value: the text and the description are what the recursion on its
parts makes of it; they are there exactly if nothing that the value is made of is made of itself;
and sums, `String`, the console, failures that are thrown and keys end exactly then. -/
theorem Machine.rendersUnlessLooping (host : Host σ) (m : Machine σ) :
    m.RendersUnlessLooping host where
  text := m.heap.text_rendering
  description := m.heap.description_rendering
  sum := returns_sum_iff
  string v rest := Action.returns_bind_text_iff fun _ ↦ trivial
  log vs := Action.returns_bind_texts_iff fun _ ↦ trivial
  throw n scope e v u hv := by
    rw [exec, Run.bind_of_ok hv]
    exact Action.returns_bind_text_iff fun _ ↦ trivial
  read := returns_readIndex_iff
  write object index value := returns_writeIndex_iff index value

end Uses

/-- An array in an array has a text. -/
theorem Machine.rendersUnlessLooping_nested : ∃ w : World,
    eval World.scriptHost 6 [] (.array [.array [.bool true], .null]) (World.create 256 16)
        = .ok (.array ⟨1⟩) w ∧
      (Builtin.string.apply [.array ⟨1⟩] w).Returns := by
  let h := ((World.create 256 16).heap.newArray #[.bool true]).2
  let w : World := (World.create 256 16).mapHeap fun _ ↦ (h.newArray #[.array ⟨0⟩, .null]).2
  have htext : w.heap.text? (.array ⟨1⟩) = some "true,null" := by decide +kernel
  have hends : ¬Loops w.heap.itemsOf (.array ⟨1⟩) :=
    (w.heap.text_rendering.isSome_iff _).1 (by rw [htext]; rfl)
  exact ⟨w, rfl, ((Machine.rendersUnlessLooping World.scriptHost w).string _ []).2 hends⟩

/-- An array that a script has put into itself has no text and no description, and a script that
takes its text does not end. -/
theorem array_in_itself_loops : ∃ (v : Value) (w : World),
    World.evaluate "a = []; a.push(a); a" (World.create 256 16) = .ok v w ∧
      Loops w.heap.itemsOf v ∧ w.heap.description? v = none ∧
      ¬(World.evaluate "String(a)" w).Returns := by
  have h : (World.evaluate "a = []; a.push(a); a" (World.create 256 16)).okWith
      (fun v w ↦ (w.heap.text? v).isNone && (w.heap.description? v).isNone &&
        !decide (World.evaluate "String(a)" w).Returns) = true := by decide +kernel
  obtain ⟨v, w, hrun, h⟩ := Outcome.exists_of_okWith h
  simp only [Bool.and_eq_true, Option.isNone_iff_eq_none, Bool.not_eq_true',
    decide_eq_false_iff_not] at h
  obtain ⟨⟨htext, hdescription⟩, hunfinished⟩ := h
  refine ⟨v, w, hrun, ?_, hdescription, hunfinished⟩
  by_contra hends
  have hsome := (w.heap.text_rendering.isSome_iff v).2 hends
  rw [htext] at hsome
  cases hsome

end ReactiveFrames.Script
