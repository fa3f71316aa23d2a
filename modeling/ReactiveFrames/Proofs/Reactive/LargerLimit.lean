import Mathlib.Logic.Relation
import ReactiveFrames.Program
import ReactiveFrames.Proofs.Script.Limit

/-!
# Scripts under a larger limit of calls

What a script can get hold of is what the global variables lead to, and what it is called with. If
no object is among that, then a larger limit of calls makes no difference to a script that does not
hit the smaller one: it ends in the same way, and leaves the same world.

The cells that are reached, together with those that are still to be made, are a region for which
the heap is closed. The functions that are defined outside scripts stay in it too, since the data
that they read are new cells.

## Main definitions

* `World.Reaches`: what scripts reach.
* `World.region`: the cells that are reached or still to be made.

## Main statements

* `World.larger_limit_same`: the larger limit makes no difference.
-/

namespace ReactiveFrames

open Script (Value Heap Region Machine)
open Script.Action (Outgrows)

/-! ## Data in a region -/

namespace Script.Region

variable {R : Region}

theorem HasTable.of_values {t : Table Value} (h : ∀ v ∈ t.values, R.Has v) : R.HasTable t := by
  intro name v hv
  refine h v ?_
  rw [Table.find?] at hv
  rw [Table.values]
  generalize t.entries = entries at hv ⊢
  induction entries with
  | nil => cases hv
  | cons e rest ih =>
    obtain ⟨n, u⟩ := e
    rw [Table.findEntry?] at hv
    split at hv
    · cases hv
      exact List.mem_cons_self
    · exact List.mem_cons_of_mem _ (ih hv)

theorem hasTable_ofList {entries : List (String × Value)} (h : ∀ e ∈ entries, R.Has e.2) :
    R.HasTable (Table.ofList entries) := by
  have hfold (t : Table Value) (ht : R.HasTable t) (entries : List (String × Value))
      (h : ∀ e ∈ entries, R.Has e.2) :
      R.HasTable (entries.foldl (fun t e ↦ t.insert e.1 e.2) t) := by
    induction entries generalizing t with
    | nil => exact ht
    | cons e rest ih =>
      obtain ⟨he, hrest⟩ := List.forall_mem_cons.1 h
      exact ih (t.insert e.1 e.2) (ht.insert he e.1) hrest
  exact hfold Table.empty hasTable_empty entries h

end Script.Region

section Data

variable {R : Region}

mutual

theorem Literal.closed_toValue (l : Literal) {h : Heap} (hh : R.Closed h) :
    R.Has (l.toValue h).1 ∧ R.Closed (l.toValue h).2 := by
  cases l with
  | scalar s => cases s <;> exact ⟨trivial, hh⟩
  | array items =>
    obtain ⟨hvs, hh'⟩ := Literal.closed_itemsToValues items hh
    exact hh'.newArray fun v hv ↦ hvs v (List.mem_toArray.1 hv)
  | dictionary entries =>
    obtain ⟨hvs, hh'⟩ := Literal.closed_entriesToValues entries hh
    exact hh'.newRecord (Region.hasTable_ofList hvs)

theorem Literal.closed_itemsToValues (items : List Literal) {h : Heap} (hh : R.Closed h) :
    R.HasAll (Literal.itemsToValues items h).1 ∧ R.Closed (Literal.itemsToValues items h).2 := by
  cases items with
  | nil => exact ⟨fun _ hv ↦ absurd hv List.not_mem_nil, hh⟩
  | cons item items =>
    obtain ⟨hv, hh'⟩ := item.closed_toValue hh
    obtain ⟨hvs, hh''⟩ := Literal.closed_itemsToValues items hh'
    exact ⟨List.forall_mem_cons.2 ⟨hv, hvs⟩, hh''⟩

theorem Literal.closed_entriesToValues (entries : List (String × Literal)) {h : Heap}
    (hh : R.Closed h) : (∀ e ∈ (Literal.entriesToValues entries h).1, R.Has e.2) ∧
      R.Closed (Literal.entriesToValues entries h).2 := by
  match entries with
  | [] => exact ⟨fun _ he ↦ absurd he List.not_mem_nil, hh⟩
  | (key, value) :: entries =>
    obtain ⟨hv, hh'⟩ := value.closed_toValue hh
    obtain ⟨hvs, hh''⟩ := Literal.closed_entriesToValues entries hh'
    exact ⟨List.forall_mem_cons.2 ⟨hv, hvs⟩, hh''⟩

end

theorem hasTable_initialProperties (className instanceName : String) :
    R.HasTable (initialProperties className instanceName) :=
  (Region.hasTable_empty.insert (v := .string instanceName) trivial _).insert
    (v := .string className) trivial _

mutual

theorem Member.closed_toValue (m : Member) {h : Heap} (hh : R.Closed h) {r : Value × Heap}
    (hr : m.toValue h = .ok r) : R.Has r.1 ∧ R.Closed r.2 := by
  cases m with
  | property _ _ _ value =>
    cases hr
    exact value.closed_toValue hh
  | function => cases hr
  | frame name _ className members =>
    obtain ⟨r', hr', heq⟩ := Except.bind_eq_ok.1 hr
    obtain ⟨ht, hh'⟩ :=
      Member.closed_listToValues members (hasTable_initialProperties className name) hh hr'
    cases heq
    exact hh'.newRecord ht

theorem Member.closed_listToValues (ms : List Member) {entries : Table Value}
    (he : R.HasTable entries) {h : Heap} (hh : R.Closed h) {r : Table Value × Heap}
    (hr : Member.listToValues ms entries h = .ok r) : R.HasTable r.1 ∧ R.Closed r.2 := by
  match ms with
  | [] =>
    cases hr
    exact ⟨he, hh⟩
  | m :: ms =>
    obtain ⟨r', hr', heq⟩ := Except.bind_eq_ok.1 hr
    obtain ⟨hv, hh'⟩ := m.closed_toValue hh hr'
    exact Member.closed_listToValues ms (he.insert hv m.name) hh' heq

end

/-- The record of a data frame is made of new cells. -/
theorem DataReader.closed_read (r : DataReader) (identifier : String) {h : Heap} (hh : R.Closed h)
    {v : Value × Heap} (hv : r.read identifier h = .ok v) : R.Has v.1 ∧ R.Closed v.2 := by
  obtain ⟨frame, hframe⟩ := DataReader.exists_toValue_of_read hv
  obtain ⟨entries, hentries, hv⟩ := Except.bind_eq_ok.1 hframe
  obtain ⟨ht, hh'⟩ := Member.closed_listToValues _ (hasTable_initialProperties _ _) hh hentries
  cases hv
  exact hh'.newRecord ht

/-- Functions outside scripts do the same under a larger limit. -/
theorem Foreign.outgrows_apply {d : Nat} (f : Foreign) {arguments : List Value}
    (ha : R.HasAll arguments) : Outgrows R d R.Has (f.apply arguments) := by
  cases f with
  | echo =>
    have hzoom : (Foreign.echo.apply arguments : Script.Action ObjectGraph Value)
        = Script.Action.zoom fun h ↦ .ok (h.newArray arguments.toArray).1
          (h.newArray arguments.toArray).2 := rfl
    rw [hzoom]
    refine .zoom fun h hh v h' heq ↦ ?_
    cases heq
    exact hh.newArray fun v hv ↦ ha v (List.mem_toArray.1 hv)
  | failing text => exact .fail _
  | readData reader =>
    change Outgrows R d R.Has (readDataValue reader arguments)
    unfold readDataValue
    split
    · next identifier _ =>
      refine ⟨fun w _ _ _ ↦ ?_, fun w hw hle v u hv ↦ ?_⟩
      · have hheap : (Machine.withLimit d w).heap = w.heap := rfl
        rw [hheap]
        cases reader.read identifier w.heap <;> rfl
      · cases hread : reader.read identifier w.heap with
        | ok r =>
          rw [hread] at hv
          cases hv
          obtain ⟨hr, hclosed⟩ := reader.closed_read identifier hw hread
          exact ⟨hr, hclosed, hle⟩
        | error e =>
          rw [hread] at hv
          cases hv
          exact ⟨trivial, hw, hle⟩
    · refine ⟨fun _ _ _ _ ↦ rfl, fun w hw hle v u hv ↦ ?_⟩
      cases hv
      exact ⟨trivial, hw, hle⟩

end Data

/-! ## What scripts reach -/

namespace World

/-- The cell is one that the global variables or the values lead to. -/
def Reaches (w : World) (vs : List Value) (c : Cell) : Prop :=
  ∃ root ∈ (w.heap.globals.values ++ vs).filterMap Cell.ofValue?,
    Relation.ReflTransGen (fun a b ↦ b ∈ w.references a) root c

/-- The cells that are reached, and those that are still to be made. No object is chosen, and all
functions outside scripts are. -/
def region (w : World) (vs : List Value) : Region where
  array ref := w.Reaches vs (.array ref) ∨ w.heap.arrays.size ≤ ref.index
  record ref := w.Reaches vs (.record ref) ∨ w.heap.records.size ≤ ref.index
  closure ref := w.Reaches vs (.closure ref) ∨ w.heap.closures.size ≤ ref.index
  frame ref := w.Reaches vs (.frame ref) ∨ w.heap.frames.size ≤ ref.index
  host _ := False
  foreign _ := True

variable {w : World} {vs : List Value}

theorem Reaches.tail {a b : Cell} (h : w.Reaches vs a) (hb : b ∈ w.references a) :
    w.Reaches vs b := by
  obtain ⟨root, hroot, hpath⟩ := h
  exact ⟨root, hroot, hpath.tail hb⟩

section Closed

variable (hobjects : ∀ o, ¬w.Reaches vs (.object o))
include hobjects

/-- A value whose cell is reached does not lead out of the region. -/
theorem has_region {v : Value} (h : ∀ c, Cell.ofValue? v = some c → w.Reaches vs c) :
    (w.region vs).Has v := by
  cases v with
  | array ref => exact .inl (h _ rfl)
  | record ref => exact .inl (h _ rfl)
  | closure ref => exact .inl (h _ rfl)
  | host ref => exact absurd (h _ rfl) (hobjects _)
  | _ => trivial

theorem has_region_of_root {v : Value} (h : v ∈ w.heap.globals.values ++ vs) :
    (w.region vs).Has v :=
  has_region hobjects fun c hc ↦ ⟨c, List.mem_filterMap.2 ⟨v, h, hc⟩, .refl⟩

theorem has_region_of_references {v : Value} {c : Cell} {us : List Value}
    (href : w.references c = us.filterMap Cell.ofValue?) (hc : w.Reaches vs c) (hv : v ∈ us) :
    (w.region vs).Has v :=
  has_region hobjects fun _ hb ↦ hc.tail (href ▸ List.mem_filterMap.2 ⟨v, hv, hb⟩)

theorem closed_region : (w.region vs).Closed w.heap where
  globals := .of_values fun v hv ↦ has_region_of_root hobjects (List.mem_append_left _ hv)
  locals ref href := by
    refine .of_values fun v hv ↦ ?_
    -- A number that no cell has yet is of the region too, and there is nothing behind it.
    rcases href with hreached | hnew
    · exact has_region_of_references hobjects rfl hreached hv
    · rw [Heap.locals, Array.getElem?_eq_none hnew] at hv
      exact absurd hv List.not_mem_nil
  items ref href v hv := by
    rcases href with hreached | hnew
    · exact has_region_of_references hobjects rfl hreached (Array.mem_toList_iff.2 hv)
    · rw [Heap.items, Array.getElem?_eq_none hnew] at hv
      exact absurd hv (Array.not_mem_empty v)
  entries ref href := by
    refine .of_values fun v hv ↦ ?_
    rcases href with hreached | hnew
    · exact has_region_of_references hobjects rfl hreached hv
    · rw [Heap.entries, Array.getElem?_eq_none hnew] at hv
      exact absurd hv List.not_mem_nil
  scope ref href c hc frame hframe := by
    rcases href with hreached | hnew
    · refine .inl (hreached.tail ?_)
      rw [references, hc]
      exact List.mem_map_of_mem hframe
    · rw [Array.getElem?_eq_none hnew] at hc
      cases hc
  freshArray n hn := .inr hn
  freshRecord n hn := .inr hn
  freshClosure n hn := .inr hn
  freshFrame n hn := .inr hn

end Closed

/-- In the region of what scripts reach, a larger limit makes no difference. -/
theorem compositional_region (w : World) (vs : List Value) (d : Nat) :
    Script.Compositional scriptHost (w.region vs) fun P x ↦ Outgrows (w.region vs) d P x := by
  refine Script.compositional_outgrows (fun _ h ↦ h) fun ref arguments _ ha ↦ ?_
  constructor
  · intro u hu hle hbelow
    have hforeigns : (Machine.withLimit d u).host.foreigns = u.host.foreigns := rfl
    simp only [scriptHost, hostOf, hforeigns] at hbelow ⊢
    cases hf : u.host.foreigns[ref.index]? with
    | none => rfl
    | some f =>
      simp only [hf] at hbelow
      exact (f.outgrows_apply ha).same u hu hle hbelow
  · intro u hu hle v u' h
    simp only [scriptHost, hostOf] at h
    cases hf : u.host.foreigns[ref.index]? with
    | none =>
      simp only [hf] at h
      cases h
      exact ⟨trivial, hu, hle⟩
    | some f =>
      simp only [hf] at h
      exact (f.outgrows_apply ha).yields u hu hle v u' h

/-- If scripts reach no object, a run that does not hit the limit of calls is the same under every
larger limit: the evaluation of a script and the call of a value, with the same value or failure,
and the same variables, cells, console and notices. -/
theorem larger_limit_same (w : World) {d d' : Nat} (hd : d ≤ d') :
    (∀ source, (∀ o, ¬w.Reaches [] (.object o)) →
      Script.StaysBelow (World.evaluate source (Machine.withLimit d w)) →
      World.evaluate source (Machine.withLimit d' w)
        = (World.evaluate source (Machine.withLimit d w)).mapState (Machine.withLimit d')) ∧
    (∀ f arguments, (∀ o, ¬w.Reaches (f :: arguments) (.object o)) →
      Script.StaysBelow (World.call f arguments (Machine.withLimit d w)) →
      World.call f arguments (Machine.withLimit d' w)
        = (World.call f arguments (Machine.withLimit d w)).mapState (Machine.withLimit d')) := by
  constructor
  · intro source hobjects hbelow
    have hprogram := (compositional_region w [] d').runProgram stepBound source
    exact (hprogram.counted _).same (Machine.withLimit d w) (closed_region hobjects) hd hbelow
  · intro f arguments hobjects hbelow
    have hroot (v : Value) (hv : v ∈ f :: arguments) : (w.region (f :: arguments)).Has v :=
      has_region_of_root hobjects (List.mem_append_right _ hv)
    have hcall := ((compositional_region w (f :: arguments) d').evaluation stepBound).call
      (hroot f List.mem_cons_self) fun v hv ↦ hroot v (List.mem_cons_of_mem f hv)
    exact (hcall.counted _).same (Machine.withLimit d w) (closed_region hobjects) hd hbelow

/-- A function that calls itself once. -/
def descending : String :=
  "function f(n) \x7b if (n > 0) return f(n - 1); return n; \x7d f(1);"

/-- From the global variables of a new world only the records are reached that hold built-in
functions. -/
theorem not_reaches_create {vs : List Value} (hvs : vs.filterMap Cell.ofValue? = [])
    (o : ObjectRef) :
    ¬(World.create 256 16).Reaches vs (.object o) := by
  rintro ⟨root, hroot, hpath⟩
  rw [List.filterMap_append, hvs, List.append_nil] at hroot
  have hroots : (World.create 256 16).heap.globals.values.filterMap Cell.ofValue?
      = [.record ⟨1⟩, .record ⟨0⟩] := by
    decide +kernel
  have hreferences : ∀ c ∈ [Cell.record ⟨1⟩, Cell.record ⟨0⟩],
      (World.create 256 16).references c = [] := by
    decide +kernel
  rw [hroots] at hroot
  rcases Relation.ReflTransGen.cases_head hpath with rfl | ⟨c, hc, -⟩
  · simp at hroot
  · rw [hreferences root hroot] at hc
    exact absurd hc List.not_mem_nil

theorem larger_limit_same_descending :
    2 ≤ 5 ∧ (∀ o, ¬(World.create 256 16).Reaches [] (.object o)) ∧
      Script.StaysBelow (World.evaluate descending (Machine.withLimit 2 (World.create 256 16))) ∧
      World.evaluate descending (Machine.withLimit 5 (World.create 256 16))
        = (World.evaluate descending (Machine.withLimit 2 (World.create 256 16))).mapState
          (Machine.withLimit 5) ∧
      World.call (.builtin .string) [.bool true] (Machine.withLimit 5 (World.create 256 16))
        = (World.call (.builtin .string) [.bool true]
          (Machine.withLimit 2 (World.create 256 16))).mapState (Machine.withLimit 5) := by
  have hbelow : Script.StaysBelow
      (World.evaluate descending (Machine.withLimit 2 (World.create 256 16))) :=
    .of_okWith (fun _ _ ↦ true) (by decide +kernel)
  have hcall : Script.StaysBelow
      (World.call (.builtin .string) [.bool true] (Machine.withLimit 2 (World.create 256 16))) :=
    .of_okWith (fun _ _ ↦ true) (by decide +kernel)
  have hsame := larger_limit_same (World.create 256 16) (show 2 ≤ 5 by decide)
  exact ⟨by decide, not_reaches_create rfl, hbelow,
    hsame.1 descending (not_reaches_create rfl) hbelow,
    hsame.2 (.builtin .string) [.bool true] (not_reaches_create rfl) hcall⟩

end World

end ReactiveFrames
