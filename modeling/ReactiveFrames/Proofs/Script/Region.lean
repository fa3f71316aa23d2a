import ReactiveFrames.Script.Eval

/-!
# Regions of the heap

What a script gets hold of is what its variables lead to, and what it makes itself. A region is a
choice of cells, and a heap is closed for it if no variable of a chosen scope and no chosen cell
leads out of the region. Then nothing that a script does with values and scopes of the region leads
out of it either: the primitive actions of the evaluator yield values of the region again, and leave
a closed heap.

Cells that are still to be made belong to every region for which a heap is closed, so that a script
may make new ones. In the region of everything all of this is void.

## Main definitions

* `Region`: a choice of cells, of objects and of functions outside scripts.
* `Region.Closed`: no cell of the region leads out of it.
-/

namespace ReactiveFrames.Script

/-- A choice of cells, of objects outside the heap and of functions outside scripts. -/
structure Region where
  array : ArrayRef → Prop
  record : RecordRef → Prop
  closure : ClosureRef → Prop
  frame : FrameRef → Prop
  host : HostRef → Prop
  foreign : ForeignRef → Prop

namespace Region

/-- Everything. -/
def whole : Region where
  array _ := True
  record _ := True
  closure _ := True
  frame _ := True
  host _ := True
  foreign _ := True

/-- The value does not lead out of the region. -/
def Has (R : Region) : Value → Prop
  | .array ref => R.array ref
  | .record ref => R.record ref
  | .closure ref => R.closure ref
  | .host ref => R.host ref
  | .foreign ref => R.foreign ref
  | _ => True

/-- No value of the table leads out of the region. -/
def HasTable (R : Region) (t : Table Value) : Prop := ∀ name v, t.find? name = some v → R.Has v

/-- No value of the list leads out of the region. -/
def HasAll (R : Region) (vs : List Value) : Prop := ∀ v ∈ vs, R.Has v

/-- The scopes are in the region. -/
def HasScope (R : Region) (scope : Scope) : Prop := ∀ ref ∈ scope, R.frame ref

/-- What a statement yields does not lead out of the region. -/
def HasCompletion (R : Region) (c : Completion) : Prop := R.Has c.result

/-- No cell of the region leads out of it, and neither does a global variable. All cells that are
still to be made are in the region. -/
structure Closed (R : Region) (h : Heap) : Prop where
  globals : R.HasTable h.globals
  locals : ∀ ref, R.frame ref → R.HasTable (h.locals ref)
  items : ∀ ref, R.array ref → ∀ v ∈ h.items ref, R.Has v
  entries : ∀ ref, R.record ref → R.HasTable (h.entries ref)
  scope : ∀ ref, R.closure ref → ∀ c, h.closures[ref.index]? = some c → R.HasScope c.scope
  freshArray : ∀ n, h.arrays.size ≤ n → R.array ⟨n⟩
  freshRecord : ∀ n, h.records.size ≤ n → R.record ⟨n⟩
  freshClosure : ∀ n, h.closures.size ≤ n → R.closure ⟨n⟩
  freshFrame : ∀ n, h.frames.size ≤ n → R.frame ⟨n⟩

/-- Every value is in the region of everything. -/
theorem has_whole (v : Value) : whole.Has v := by
  cases v <;> trivial

theorem hasAll_whole (vs : List Value) : whole.HasAll vs := fun v _ ↦ has_whole v

theorem hasTable_whole (t : Table Value) : whole.HasTable t := fun _ v _ ↦ has_whole v

theorem hasScope_whole (scope : Scope) : whole.HasScope scope := fun _ _ ↦ trivial

theorem closed_whole (h : Heap) : whole.Closed h where
  globals _ v _ := has_whole v
  locals _ _ _ v _ := has_whole v
  items _ _ v _ := has_whole v
  entries _ _ _ v _ := has_whole v
  scope _ _ _ _ _ _ := trivial
  freshArray _ _ := trivial
  freshRecord _ _ := trivial
  freshClosure _ _ := trivial
  freshFrame _ _ := trivial

variable {R : Region}

/-! ## Tables and scopes -/

theorem hasTable_empty : R.HasTable Table.empty := by
  intro name v h
  rw [Table.find?_empty] at h
  cases h

theorem HasTable.insert {t : Table Value} (ht : R.HasTable t) {v : Value} (hv : R.Has v)
    (name : String) : R.HasTable (t.insert name v) := by
  intro other u hu
  rw [Table.find?_insert] at hu
  split at hu
  · cases hu
    exact hv
  · exact ht other u hu

theorem HasTable.getD {t : Table Value} (ht : R.HasTable t) (name : String) :
    R.Has ((t.find? name).getD .undefined) := by
  cases hfind : t.find? name with
  | none => trivial
  | some v => exact ht name v hfind

theorem hasScope_nil : R.HasScope [] := fun _ h ↦ nomatch h

theorem HasScope.cons {scope : Scope} (hs : R.HasScope scope) {ref : FrameRef} (hr : R.frame ref) :
    R.HasScope (ref :: scope) :=
  List.forall_mem_cons.2 ⟨hr, hs⟩

/-! ## Reading -/

theorem Closed.has_lookup {h : Heap} (hh : R.Closed h) {name : String} {scope : Scope}
    (hs : R.HasScope scope) {v : Value} (hv : h.lookup name scope = some v) : R.Has v := by
  induction scope with
  | nil => exact hh.globals name v hv
  | cons ref outer ih =>
    rw [Heap.lookup] at hv
    split at hv
    · next u hu =>
      cases hv
      exact hh.locals ref (hs ref List.mem_cons_self) name v hu
    · exact ih (fun r hr ↦ hs r (List.mem_cons_of_mem _ hr)) hv

theorem has_itemAt {items : Array Value} (hitems : ∀ v ∈ items, R.Has v) (x : Float) :
    R.Has (itemAt items x) := by
  rw [itemAt]
  cases hitem : (Decimal.toNat? x).bind fun n ↦ items[n]? with
  | none => trivial
  | some v =>
    obtain ⟨n, -, hn⟩ := Option.bind_eq_some_iff.1 hitem
    exact hitems v (Array.mem_of_getElem? hn)

theorem has_characterAt (s : String) (x : Float) : R.Has (characterAt s x) := by
  rw [characterAt]
  cases ((Decimal.toPosition? x).bind fun n ↦ s.toList[n]?) <;> trivial

theorem has_unaryValue (op : UnaryOp) (v : Value) : R.Has (unaryValue op v) := by
  cases op <;> trivial

/-! ## Writing variables -/

section Write

variable {h : Heap} (hh : R.Closed h)
include hh

theorem Closed.bindGlobal (name : String) {v : Value} (hv : R.Has v) :
    R.Closed (h.bindGlobal name v) where
  globals := hh.globals.insert hv name
  locals := hh.locals
  items := hh.items
  entries := hh.entries
  scope := hh.scope
  freshArray := hh.freshArray
  freshRecord := hh.freshRecord
  freshClosure := hh.freshClosure
  freshFrame := hh.freshFrame

theorem Closed.bindLocal (ref : FrameRef) (name : String) {v : Value} (hv : R.Has v) :
    R.Closed (h.bindLocal ref name v) where
  globals := hh.globals
  locals r hr := by
    have hold := hh.locals r hr
    rw [Heap.locals] at hold
    rw [Heap.locals, Heap.bindLocal, Array.getElem?_modify]
    split
    · cases hframe : h.frames[r.index]? with
      | none => exact hasTable_empty
      | some t =>
        rw [hframe] at hold
        exact hold.insert hv name
    · exact hold
  items := hh.items
  entries := hh.entries
  scope := hh.scope
  freshArray := hh.freshArray
  freshRecord := hh.freshRecord
  freshClosure := hh.freshClosure
  freshFrame n hn := hh.freshFrame n (by simpa [Heap.bindLocal] using hn)

theorem Closed.declare (name : String) {v : Value} (hv : R.Has v) (scope : Scope) :
    R.Closed (h.declare name v scope) := by
  cases scope with
  | nil => exact hh.bindGlobal name hv
  | cons ref outer => exact hh.bindLocal ref name hv

theorem Closed.assign (name : String) {v : Value} (hv : R.Has v) (scope : Scope) :
    R.Closed (h.assign name v scope) := by
  induction scope with
  | nil => exact hh.bindGlobal name hv
  | cons ref outer ih =>
    rw [Heap.assign]
    split
    · exact hh.bindLocal ref name hv
    · exact ih

/-! ## Making cells -/

theorem Closed.openScope {scope : Scope} (hs : R.HasScope scope) :
    R.HasScope (h.openScope scope).1 ∧ R.Closed (h.openScope scope).2 := by
  refine ⟨hs.cons (hh.freshFrame _ (Nat.le_refl _)), { hh with locals := ?_, freshFrame := ?_ }⟩
  · intro r hr
    rw [Heap.locals, Heap.openScope, Array.getElem?_push]
    split
    · exact hasTable_empty
    · exact hh.locals r hr
  · intro n hn
    rw [Heap.openScope, Array.size_push] at hn
    exact hh.freshFrame n (by omega)

theorem Closed.newArray {items : Array Value} (hitems : ∀ v ∈ items, R.Has v) :
    R.Has (h.newArray items).1 ∧ R.Closed (h.newArray items).2 := by
  refine ⟨hh.freshArray _ (Nat.le_refl _), { hh with items := ?_, freshArray := ?_ }⟩
  · intro r hr v hv
    rw [Heap.items, Heap.newArray, Array.getElem?_push] at hv
    split at hv
    · exact hitems v hv
    · exact hh.items r hr v hv
  · intro n hn
    rw [Heap.newArray, Array.size_push] at hn
    exact hh.freshArray n (by omega)

theorem Closed.newRecord {entries : Table Value} (hentries : R.HasTable entries) :
    R.Has (h.newRecord entries).1 ∧ R.Closed (h.newRecord entries).2 := by
  refine ⟨hh.freshRecord _ (Nat.le_refl _), { hh with entries := ?_, freshRecord := ?_ }⟩
  · intro r hr
    rw [Heap.entries, Heap.newRecord, Array.getElem?_push]
    split
    · exact hentries
    · exact hh.entries r hr
  · intro n hn
    rw [Heap.newRecord, Array.size_push] at hn
    exact hh.freshRecord n (by omega)

theorem Closed.newClosure {c : Closure} (hc : R.HasScope c.scope) :
    R.Has (h.newClosure c).1 ∧ R.Closed (h.newClosure c).2 := by
  refine ⟨hh.freshClosure _ (Nat.le_refl _), { hh with scope := ?_, freshClosure := ?_ }⟩
  · intro r hr d hd
    rw [Heap.newClosure, Array.getElem?_push] at hd
    split at hd
    · cases hd
      exact hc
    · exact hh.scope r hr d hd
  · intro n hn
    rw [Heap.newClosure, Array.size_push] at hn
    exact hh.freshClosure n (by omega)

/-! ## Changing cells -/

theorem Closed.setItems (ref : ArrayRef) {f : Array Value → Array Value}
    (hf : ∀ items : Array Value, (∀ v ∈ items, R.Has v) → ∀ v ∈ f items, R.Has v) :
    R.Closed (h.setItems ref f) := by
  refine { hh with items := ?_, freshArray := ?_ }
  · intro r hr v hv
    have hold := hh.items r hr
    rw [Heap.items] at hold
    rw [Heap.items, Heap.setItems, Array.getElem?_modify] at hv
    split at hv
    · cases hitems : h.arrays[r.index]? with
      | none =>
        rw [hitems] at hv
        exact absurd hv (Array.not_mem_empty v)
      | some items =>
        rw [hitems] at hv hold
        exact hf items hold v hv
    · exact hold v hv
  · intro n hn
    rw [Heap.setItems, Array.size_modify] at hn
    exact hh.freshArray n hn

theorem Closed.setEntry (ref : RecordRef) (name : String) {v : Value} (hv : R.Has v) :
    R.Closed (h.setEntry ref name v) := by
  refine { hh with entries := ?_, freshRecord := ?_ }
  · intro r hr
    have hold := hh.entries r hr
    rw [Heap.entries] at hold
    rw [Heap.entries, Heap.setEntry, Array.getElem?_modify]
    split
    · cases hentries : h.records[r.index]? with
      | none => exact hasTable_empty
      | some t =>
        rw [hentries] at hold
        exact hold.insert hv name
    · exact hold
  · intro n hn
    rw [Heap.setEntry, Array.size_modify] at hn
    exact hh.freshRecord n hn

/-! ## Entering blocks and functions -/

theorem Closed.bindParameters (scope : Scope) (parameters : List String) {arguments : List Value}
    (harguments : R.HasAll arguments) :
    R.Closed (Script.bindParameters scope parameters arguments h) := by
  induction parameters generalizing arguments h with
  | nil => exact hh
  | cons p ps ih =>
    cases arguments with
    | nil => exact ih (hh.declare p (v := .undefined) trivial scope) harguments
    | cons v vs =>
      obtain ⟨hv, hvs⟩ := List.forall_mem_cons.1 harguments
      exact ih (hh.declare p hv scope) hvs

end Write

/-- Items with one of them put in place. -/
theorem has_putItem {items : Array Value} (hitems : ∀ v ∈ items, R.Has v) (n : Nat) {value : Value}
    (hvalue : R.Has value) : ∀ v ∈ putItem items n value, R.Has v := by
  intro v hv
  rw [putItem] at hv
  split at hv
  · rcases Array.mem_or_eq_of_mem_set hv with hv | rfl
    · exact hitems v hv
    · exact hvalue
  · rcases Array.mem_push.1 hv with hv | rfl
    · rcases Array.mem_append.1 hv with hv | hv
      · exact hitems v hv
      · rw [Array.eq_of_mem_replicate hv]
        trivial
    · exact hvalue

end Region

end ReactiveFrames.Script
