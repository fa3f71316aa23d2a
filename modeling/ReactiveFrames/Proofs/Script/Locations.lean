import ReactiveFrames.Proofs.Script.Balance
import ReactiveFrames.Proofs.Script.Variables

/-!
# Replacing a value

A compound assignment and an update replace the value at a target by one that is computed from it.
The parts of the target are expressions, and their values determine a location: a variable, a
property of a value, or a position in an array or a text. A value is replaced in place if the parts
are evaluated once, and the location that was read is then written (`Target.replace`).

The evaluator does something else. It reads the target, and writes it later, and evaluates the parts
of the target both times. So the write may go to another location, and what the parts do happens
twice (`eval_compound`, `eval_update`). This makes no difference if the parts lead to the same
location once the new value is there, and do nothing but that (`Target.Steady`). A variable has no
parts. Parts that only look at variables, properties and positions do nothing, and they lead to
another location only if the new value was computed by something that does more (`Target.Inert`).

## Main definitions

* `Location`: what can be read and written.
* `Target.locate`: the location that a target means.
* `Target.replace`: replaces a value in place.
* `Target.Steady`: the parts of a target can be evaluated once more.

## Main statements

* `eval_compound`, `eval_update`: a target is located for the read and once more for the write.
* `replaceRelocating_eq`: if the target is steady, then the value is replaced in place.
* `Target.steady_variable`, `Target.Inert.steady`: which targets are steady.
-/

namespace ReactiveFrames.Script

open Machine (pinning pinningValue)

variable {σ α β : Type}

/-! ## What is pinned -/

/-- Every access to the host leaves the pins as they were. -/
structure Host.KeepsPins (host : Host σ) : Prop where
  write : ∀ ref property v m, (host.write ref property v m).state.pins = m.pins
  call : ∀ ref arguments m, (host.call ref arguments m).state.pins = m.pins

theorem Machine.scoped_pins : Machine.Scoped fun m m' : Machine σ ↦ m'.pins = m.pins where
  refl _ := rfl
  trans _ _ _ h₁ h₂ := h₂.trans h₁
  heap _ _ := rfl
  log _ _ := rfl
  pinning _ _ _ _ := rfl
  nested _ _ h := h

/-- However an evaluation ends, what it has pinned is pinned no longer. -/
theorem Host.KeepsPins.pins_eval {host : Host σ} (hh : host.KeepsPins) (n : Nat) (scope : Scope)
    (e : Expr) (m : Machine σ) : (eval host n scope e m).state.pins = m.pins :=
  (((Machine.scoped_pins.compositional hh.write hh.call).evaluation n).eval
    (Region.hasScope_whole scope) e).1 m

/-- What is pinned during a chain of computations is pinned during each of them. -/
theorem pinning_bind (pins : List Pin) {x : Action σ α} (hx : ∀ m, (x m).state.pins = m.pins)
    (f : α → Action σ β) :
    pinning pins (x >>= f) = pinning pins x >>= fun a ↦ pinning pins (f a) := by
  funext m
  have hpins := hx { m with pins := pins ++ m.pins }
  cases hrun : x { m with pins := pins ++ m.pins } with
  | ok a u =>
    rw [hrun] at hpins
    change u.pins = pins ++ m.pins at hpins
    -- The pins were those of the whole chain, so pinning anew for what follows pins the same.
    have hpinned : pinning pins x m = .ok a { u with pins := m.pins } := by
      simp only [pinning, hrun, Outcome.mapState]
    rw [Run.bind_of_ok hpinned, pinning, Run.bind_of_ok hrun, pinning, ← hpins]
  | error e u =>
    have hpinned : pinning pins x m = .error e { u with pins := m.pins } := by
      simp only [pinning, hrun, Outcome.mapState]
    rw [Run.bind_of_error hpinned, pinning, Run.bind_of_error hrun, Outcome.mapState]
  | exhausted u =>
    have hpinned : pinning pins x m = .exhausted { u with pins := m.pins } := by
      simp only [pinning, hrun, Outcome.mapState]
    rw [Run.bind_of_exhausted hpinned, pinning, Run.bind_of_exhausted hrun, Outcome.mapState]

theorem eq_ok_of_pinning {pins : List Pin} {x : Action σ α} {m m' : Machine σ} {a : α}
    (h : pinning pins x m = .ok a m') :
    ∃ u, x { m with pins := pins ++ m.pins } = .ok a u ∧ m' = { u with pins := m.pins } := by
  obtain ⟨u, hrun, rfl⟩ := Outcome.mapState_eq_ok.1 h
  exact ⟨u, hrun, rfl⟩

/-! ## Looking -/

/-- However the action ends, it leaves the machine as it is. -/
def Action.Looks (x : Action σ α) : Prop := ∀ m, (x m).state = m

namespace Action.Looks

theorem eq_of_ok {x : Action σ α} (hx : Looks x) {m m' : Machine σ} {a : α} (h : x m = .ok a m') :
    m' = m := by
  have hm := hx m
  rwa [h] at hm

protected theorem pure (a : α) : Looks (Pure.pure a : Action σ α) := fun _ ↦ rfl

protected theorem fail (e : ScriptError) : Looks (Run.fail e : Action σ α) := fun _ ↦ rfl

protected theorem exhaust : Looks (Run.exhaust : Action σ α) := fun _ ↦ rfl

protected theorem bind {x : Action σ α} {f : α → Action σ β} (hx : Looks x)
    (hf : ∀ a, Looks (f a)) : Looks (x >>= f) := by
  intro m
  exact Run.state_bind_of (P := (· = m)) (hx m) fun a u _ hu ↦ (hf a u).trans hu

protected theorem pinning (pins : List Pin) {x : Action σ α} (hx : Looks x) :
    Looks (pinning pins x) := by
  intro m
  rw [Machine.state_pinning, hx]

protected theorem ofHeap (f : Heap → α) : Looks (Action.ofHeap f : Action σ α) := fun _ ↦ rfl

protected theorem ofOption (f : Machine σ → Option α) :
    Looks fun m ↦ (Run.ofOption (f m) m : Outcome _ ScriptError α) := by
  intro m
  dsimp only
  cases f m <;> rfl

protected theorem text (v : Value) : Looks (Action.text v : Action σ String) := .ofOption _

theorem binaryValue (op : BinaryOp) (a b : Value) :
    Looks (Script.binaryValue op a b : Action σ Value) := by
  cases op with
  | add =>
    rw [Script.binaryValue]
    split
    · exact .pure _
    · exact (Looks.text a).bind fun s ↦ (Looks.text b).bind fun t ↦ .pure _
  | _ => exact .pure _

theorem readVariable (name : String) (scope : Scope) :
    Looks (Script.readVariable name scope : Action σ Value) := by
  intro m
  rw [Script.readVariable]
  split <;> rfl

theorem readMember (host : Host σ) (object : Value) (property : String) :
    Looks (Script.readMember host object property) := by
  unfold Script.readMember
  cases object with
  | undefined | null => exact .fail _
  | bool _ | number _ | string _ | closure _ | builtin _ | foreign _ => exact .pure _
  | array ref =>
    dsimp only
    split
    · exact .ofHeap _
    · exact .pure _
  | record ref => exact .ofHeap _
  | host ref => exact fun _ ↦ rfl

theorem readIndex (host : Host σ) (object index : Value) :
    Looks (Script.readIndex host object index) := by
  unfold Script.readIndex
  split
  · exact .ofHeap _
  · exact .pure _
  · exact (Looks.text _).bind fun property ↦ readMember host _ property

end Action.Looks

open ReactiveFrames.Script.Action (Looks)

/-! ## Locations -/

/-- What can be read and written: a variable, a property of a value, or a position in an array or a
text. A property that was named by an index keeps the index. -/
inductive Location where
  | variable (name : String)
  | member (object : Value) (property : String)
  | index (object index : Value) (property : String)
  | item (ref : ArrayRef) (x : Float)
  | character (s : String) (x : Float)

namespace Location

/-- Location at an index of a value. -/
def atIndex (object index : Value) : Action σ Location :=
  match object, index with
  | .array ref, .number x => pure (.item ref x)
  | .string s, .number x => pure (.character s x)
  | object, index => do pure (.index object index (← Action.text index))

section Access

variable (host : Host σ) (scope : Scope)

/-- Value at a location. -/
def read : Location → Action σ Value
  | .variable name => readVariable name scope
  | .member object property => readMember host object property
  | .index object _ property => readMember host object property
  | .item ref x => Action.ofHeap fun h ↦ itemAt (h.items ref) x
  | .character s x => pure (characterAt s x)

/-- Writes a location. Texts cannot be written. -/
def write (v : Value) : Location → Action σ Unit
  | .variable name => Action.onHeap fun h ↦ h.assign name v scope
  | .member object property => writeMember host object property v
  | .index object i property =>
    pinningValue object (pinningValue i (writeMember host object property v))
  | .item ref x => writeItem ref x v
  | .character s x =>
    pinningValue (.string s) (pinningValue (.number x) (writeIndex host (.string s) (.number x) v))

end Access

variable {host : Host σ} {scope : Scope}

theorem looks_read (l : Location) : Looks (l.read host scope) := by
  cases l with
  | «variable» name => exact .readVariable name scope
  | member object property => exact .readMember host object property
  | index object index property => exact .readMember host object property
  | item ref x => exact .ofHeap fun h ↦ itemAt (h.items ref) x
  | character s x => exact .pure _

/-- Items and characters have numbers; all else at an index is a property, named by its text. -/
theorem atIndex_cases (object index : Value) :
    (∃ ref x, object = .array ref ∧ index = .number x) ∨
      (∃ s x, object = .string s ∧ index = .number x) ∨
      ((atIndex object index : Action σ Location)
          = Action.text index >>= fun property ↦ pure (.index object index property)) ∧
        (∀ host : Host σ, readIndex host object index
          = Action.text index >>= fun property ↦ readMember host object property) ∧
        ∀ (host : Host σ) v, writeIndex host object index v
          = Action.text index >>= fun property ↦ writeMember host object property v := by
  cases object with
  | array ref =>
    cases index with
    | number x => exact .inl ⟨ref, x, rfl, rfl⟩
    | _ => exact .inr (.inr ⟨rfl, fun _ ↦ rfl, fun _ _ ↦ rfl⟩)
  | string s =>
    cases index with
    | number x => exact .inr (.inl ⟨s, x, rfl, rfl⟩)
    | _ => exact .inr (.inr ⟨rfl, fun _ ↦ rfl, fun _ _ ↦ rfl⟩)
  | _ => exact .inr (.inr ⟨rfl, fun _ ↦ rfl, fun _ _ ↦ rfl⟩)

theorem looks_atIndex (object index : Value) :
    Looks (atIndex object index : Action σ Location) := by
  rcases atIndex_cases (σ := σ) object index with ⟨ref, x, rfl, rfl⟩ | ⟨s, x, rfl, rfl⟩ | ⟨h, -, -⟩
  · exact .pure _
  · exact .pure _
  · rw [h]
    exact (Looks.text _).bind fun _ ↦ .pure _

/-- Reading at an index is reading the location at the index. -/
theorem readIndex_eq (object index : Value) :
    readIndex host object index = atIndex object index >>= read host scope := by
  rcases atIndex_cases (σ := σ) object index with ⟨ref, x, rfl, rfl⟩ | ⟨s, x, rfl, rfl⟩ | ⟨h, hr, -⟩
  · rfl
  · rfl
  · rw [h, hr, bind_assoc]
    rfl

/-- A text does not depend on what is pinned. -/
theorem pinning_text (pins : List Pin) (v : Value) :
    pinning pins (Action.text v : Action σ String) = Action.text v := by
  funext m
  simp only [pinning, Action.text]
  cases m.heap.text? v <;> rfl

/-- Items do not depend on what is pinned. -/
theorem pinning_writeItem (pins : List Pin) (ref : ArrayRef) (x : Float) (v : Value) :
    pinning pins (writeItem ref x v : Action σ Unit) = writeItem ref x v := by
  funext m
  simp only [pinning, writeItem]
  cases Decimal.toNat? x with
  | none => rfl
  | some n =>
    dsimp only
    split <;> rfl

/-- Writing at an index is writing the location at the index. -/
theorem writeIndex_eq (object index v : Value) :
    pinningValue object (pinningValue index (writeIndex host object index v))
      = atIndex object index >>= write host scope v := by
  have htext (u : Value) (m : Machine σ) : (Action.text u m : Outcome _ ScriptError _).state.pins
      = m.pins := by rw [Looks.text]
  rcases atIndex_cases (σ := σ) object index with ⟨ref, x, rfl, rfl⟩ | ⟨s, x, rfl, rfl⟩ | ⟨h, -, hw⟩
  · change pinning _ (pinning _ (writeItem ref x v)) = writeItem ref x v
    rw [pinning_writeItem, pinning_writeItem]
  · rfl
  · rw [h, hw, bind_assoc, pinningValue, pinningValue, pinning_bind _ (htext index), pinning_text,
      pinning_bind _ (htext index), pinning_text]
    rfl

end Location

/-! ## Targets -/

section Replacing

variable (host : Host σ) (n : Nat) (scope : Scope)

/-- Evaluates the parts of a target. -/
def Target.locate : Target → Action σ Location
  | .variable name => pure (.variable name)
  | .member object property => do pure (.member (← eval host n scope object) property)
  | .index object i => do
    let o ← eval host n scope object
    let j ← pinningValue o (eval host n scope i)
    Location.atIndex o j

/-- Replaces the value at a target by one that is computed from it, in place: the parts of the
target are evaluated once, and the location that was read is written. Yields the old and the new
value. -/
def Target.replace (t : Target) (compute : Value → Action σ Value) : Action σ (Value × Value) := do
  let l ← t.locate host n scope
  let old ← l.read host scope
  let new ← compute old
  l.write host scope new
  pure (old, new)

/-- Replaces the value at a target as `replace` does, but evaluates the parts of the target once
more for the write. -/
def Target.replaceRelocating (t : Target) (compute : Value → Action σ Value) :
    Action σ (Value × Value) := do
  let l ← t.locate host n scope
  let old ← l.read host scope
  let new ← compute old
  let l ← t.locate host n scope
  l.write host scope new
  pure (old, new)

/-- Once the new value has been computed, the parts of the target lead to the location that was
read, and evaluating them does nothing. -/
def Target.Steady (t : Target) (compute : Value → Action σ Value) (m : Machine σ) : Prop :=
  ∀ l u old new u', t.locate host n scope m = .ok l u → l.read host scope u = .ok old u →
    compute old u = .ok new u' → t.locate host n scope u' = .ok l u'

/-- Combines a value with the operand of a compound assignment. -/
def combine (op : BinaryOp) (e : Expr) (old : Value) : Action σ Value := do
  let operand ← pinningValue old (eval host n scope e)
  binaryValue op old operand

end Replacing

/-- The number that is one more or one less than a value. -/
def stepped (increment : Bool) (old : Value) : Value :=
  .number (if increment then old.toNumber + 1.0 else old.toNumber - 1.0)

section Equations

variable {host : Host σ} (hh : host.KeepsPins) {n : Nat} {scope : Scope}

theorem readTarget_eq (t : Target) :
    readTarget host (n + 1) scope t = t.locate host n scope >>= Location.read host scope := by
  cases t with
  | «variable» name => rfl
  | member object property =>
    rw [Target.locate, bind_assoc]
    rfl
  | index object i =>
    rw [Target.locate, bind_assoc]
    refine bind_congr fun o ↦ ?_
    rw [bind_assoc]
    exact bind_congr fun v ↦ Location.readIndex_eq o v

include hh in
theorem writeTarget_eq (t : Target) (v : Value) :
    writeTarget host (n + 1) scope t v = t.locate host n scope >>= Location.write host scope v := by
  cases t with
  | «variable» name => rfl
  | member object property =>
    rw [Target.locate, bind_assoc]
    rfl
  | index object i =>
    rw [Target.locate, bind_assoc]
    refine bind_congr fun o ↦ ?_
    rw [bind_assoc, pinningValue, pinning_bind _ (hh.pins_eval n scope i)]
    exact bind_congr fun j ↦ Location.writeIndex_eq o j v

include hh in
/-- A compound assignment locates its target for the read, and once more for the write. -/
theorem eval_compound (op : BinaryOp) (t : Target) (e : Expr) :
    eval host (n + 2) scope (.assign (some op) t e)
      = Prod.snd <$> t.replaceRelocating host n scope (combine host (n + 1) scope op e) := by
  have heval : eval host (n + 2) scope (.assign (some op) t e)
      = readTarget host (n + 1) scope t >>= fun old ↦
        combine host (n + 1) scope op e old >>= fun new ↦
          writeTarget host (n + 1) scope t new >>= fun _ ↦ pure new := by
    rw [eval.eq_def]
    refine bind_congr fun old ↦ ?_
    rw [combine, bind_assoc]
  simp only [heval, readTarget_eq, writeTarget_eq hh, Target.replaceRelocating, bind_assoc,
    map_bind, map_pure]

include hh in
/-- An update locates its target for the read, and once more for the write. -/
theorem eval_update (increment before : Bool) (t : Target) :
    eval host (n + 2) scope (.update increment before t)
      = (fun r ↦ if before then r.2 else .number r.1.toNumber) <$>
        t.replaceRelocating host n scope fun old ↦ pure (stepped increment old) := by
  have heval : eval host (n + 2) scope (.update increment before t)
      = readTarget host (n + 1) scope t >>= fun old ↦
        writeTarget host (n + 1) scope t (stepped increment old) >>= fun _ ↦
          pure (if before then stepped increment old else .number old.toNumber) := by
    rw [eval.eq_def]
    refine bind_congr fun old ↦ bind_congr fun _ ↦ ?_
    cases before <;> rfl
  simp only [heval, readTarget_eq, writeTarget_eq hh, Target.replaceRelocating, bind_assoc,
    map_bind, map_pure, pure_bind]

/-- If the target is steady, the value is replaced in place. -/
theorem replaceRelocating_eq {t : Target} {compute : Value → Action σ Value} {m : Machine σ}
    (h : t.Steady host n scope compute m) :
    t.replaceRelocating host n scope compute m = t.replace host n scope compute m := by
  refine Run.bind_congr_right fun l u hl ↦ Run.bind_congr_right fun old u₁ hold ↦ ?_
  -- A read leaves the machine as it is, and steadiness is about the machine after the location.
  cases (Location.looks_read l).eq_of_ok hold
  exact Run.bind_congr_right fun new u' hnew ↦ Run.bind_of_ok (h l _ old new u' hl hold hnew) _

end Equations

/-! ## Inert targets -/

/-- The expression consists of literals, variables, properties, positions and operators. -/
inductive Expr.Inert : Expr → Prop
  | number (x : Float) : Inert (.number x)
  | string (s : String) : Inert (.string s)
  | bool (b : Bool) : Inert (.bool b)
  | null : Inert .null
  | undefined : Inert .undefined
  | variable (name : String) : Inert (.variable name)
  | unary (op : UnaryOp) {e : Expr} (he : e.Inert) : Inert (.unary op e)
  | binary (op : BinaryOp) {a b : Expr} (ha : a.Inert) (hb : b.Inert) : Inert (.binary op a b)
  | logical (op : LogicalOp) {a b : Expr} (ha : a.Inert) (hb : b.Inert) : Inert (.logical op a b)
  | conditional {test a b : Expr} (htest : test.Inert) (ha : a.Inert) (hb : b.Inert) :
    Inert (.conditional test a b)
  | member {object : Expr} (hobject : object.Inert) (property : String) :
    Inert (.member object property)
  | index {object i : Expr} (hobject : object.Inert) (hi : i.Inert) : Inert (.index object i)

/-- The parts of the target are inert. -/
inductive Target.Inert : Target → Prop
  | variable (name : String) : Inert (.variable name)
  | member {object : Expr} (hobject : object.Inert) (property : String) :
    Inert (.member object property)
  | index {object i : Expr} (hobject : object.Inert) (hi : i.Inert) : Inert (.index object i)

section Inert

variable {host : Host σ} {n : Nat} {scope : Scope} {t : Target} {m : Machine σ}

/-- The evaluation of an inert expression leaves the machine as it is. -/
theorem Expr.Inert.looks {e : Expr} (he : e.Inert) (n : Nat) : Looks (eval host n scope e) := by
  -- On the bound: the parts of an inert expression are inert, and have one step less.
  induction n generalizing e with
  | zero => exact .exhaust
  | succ n ih =>
    rw [eval.eq_def]
    cases he with
    | number | string | bool | null | undefined => exact .pure _
    | «variable» name => exact .readVariable name scope
    | unary op he =>
      dsimp only
      split
      · exact .ofHeap _
      · exact (ih he).bind fun v ↦ .pure _
    | binary op ha hb =>
      exact (ih ha).bind fun a ↦ ((ih hb).pinning _).bind fun b ↦ .binaryValue op a b
    | logical op ha hb =>
      refine (ih ha).bind fun a ↦ ?_
      split
      · exact .pure a
      · exact .pure a
      · exact (ih hb).pinning _
    | conditional htest ha hb =>
      refine (ih htest).bind fun v ↦ ?_
      split
      · exact ih ha
      · exact ih hb
    | member hobject property => exact (ih hobject).bind fun v ↦ .readMember host v property
    | index hobject hi =>
      exact (ih hobject).bind fun o ↦ ((ih hi).pinning _).bind fun j ↦ .readIndex host o j

theorem looks_combine {e : Expr} (he : e.Inert) (op : BinaryOp) (old : Value) :
    Looks (combine host n scope op e old) :=
  ((he.looks n).pinning _).bind fun operand ↦ .binaryValue op old operand

namespace Target

theorem Inert.looks (ht : t.Inert) : Looks (t.locate host n scope) := by
  cases ht with
  | «variable» name => exact .pure _
  | member hobject property => exact (hobject.looks n).bind fun v ↦ .pure _
  | index hobject hi =>
    exact (hobject.looks n).bind fun o ↦ ((hi.looks n).pinning _).bind fun j ↦
      Location.looks_atIndex o j

/-- A variable is steady, whatever the new value is computed by. -/
theorem steady_variable (name : String) (compute : Value → Action σ Value) (m : Machine σ) :
    (Target.variable name).Steady host n scope compute m := by
  intro l u old new u' hl _ _
  cases hl
  rfl

/-- An inert target is steady if the computation of the new value leaves the machine as it is. -/
theorem Inert.steady (ht : t.Inert) {compute : Value → Action σ Value}
    (hcompute : ∀ old, Looks (compute old)) (m : Machine σ) : t.Steady host n scope compute m := by
  intro l u old new u' hl _ hnew
  cases (hcompute old).eq_of_ok hnew
  cases ht.looks.eq_of_ok hl
  exact hl

end Target

end Inert

/-! ## What has been written -/

namespace Heap

theorem find?_entries_setEntry {h : Heap} {ref : RecordRef} (href : ref.index < h.records.size)
    (name : String) (v : Value) : ((h.setEntry ref name v).entries ref).find? name = some v := by
  rw [entries, setEntry, Array.getElem?_modify, if_pos rfl, Array.getElem?_eq_getElem href]
  exact (Table.find?_insert ..).trans (if_pos rfl)

theorem items_setItems {h : Heap} {ref : ArrayRef} (href : ref.index < h.arrays.size)
    (f : Array Value → Array Value) : (h.setItems ref f).items ref = f (h.items ref) := by
  rw [items, items, setItems, Array.getElem?_modify, if_pos rfl, Array.getElem?_eq_getElem href]
  rfl

end Heap

theorem readVariable_of_lookup {m : Machine σ} {name : String} {scope : Scope} {v : Value}
    (h : m.heap.lookup name scope = some v) : readVariable name scope m = .ok v m := by
  rw [readVariable, h]

theorem getElem?_putItem (items : Array Value) (n : Nat) (v : Value) :
    (putItem items n v)[n]? = some v := by
  rw [putItem]
  split
  · simp
  · next hn =>
    have hsize : (items ++ Array.replicate (n - items.size) Value.undefined).size = n := by
      rw [Array.size_append, Array.size_replicate]
      omega
    rw [Array.getElem?_push, if_pos hsize.symm]

end ReactiveFrames.Script
