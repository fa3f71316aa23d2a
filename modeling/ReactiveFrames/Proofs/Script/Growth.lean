import ReactiveFrames.Proofs.Basic
import ReactiveFrames.Proofs.Settling
import ReactiveFrames.Script.Eval

/-!
# What a script does to its machine

Apart from writes to objects, and from functions that are defined outside scripts, a script changes
the variables and the cells of the heap, the console, the counts and the pins. The objects outside
the heap stay as they are, the limit of calls too, and no closure that exists is ever changed: this
is the relation `Machine.Grows`. A notice that a script gives is a detail.

An action is local if it relates every machine to the one that it leaves. The primitive actions of
the evaluator are local. Properties of machines that do not notice growth are `GrowthClosed`.
-/

namespace ReactiveFrames.Script

variable {σ α β : Type}

/-! ## Heaps -/

/-- Every closure of the one heap is in the other one, under the same number. -/
def Heap.Extends (h h' : Heap) : Prop :=
  ∀ (n : Nat) (c : Closure), h.closures[n]? = some c → h'.closures[n]? = some c

namespace Heap.Extends

variable {h h' h'' : Heap}

protected theorem refl (h : Heap) : h.Extends h := fun _ _ hc ↦ hc

protected theorem trans (h₁ : h.Extends h') (h₂ : h'.Extends h'') : h.Extends h'' :=
  fun n c hc ↦ h₂ n c (h₁ n c hc)

/-- A heap with the same closures extends another one. -/
theorem of_closures_eq (heq : h'.closures = h.closures) : h.Extends h' := fun n c hc ↦ by
  rwa [heq]

end Heap.Extends

namespace Heap

theorem extends_newClosure (h : Heap) (c : Closure) : h.Extends (h.newClosure c).2 := by
  intro n d hd
  obtain ⟨hn, -⟩ := Array.getElem?_eq_some_iff.1 hd
  simpa [newClosure, Array.getElem?_push, hn.ne] using hd

theorem closures_declare (h : Heap) (name : String) (v : Value) (scope : Scope) :
    (h.declare name v scope).closures = h.closures := by
  cases scope <;> rfl

theorem closures_assign (h : Heap) (name : String) (v : Value) (scope : Scope) :
    (h.assign name v scope).closures = h.closures := by
  induction scope with
  | nil => rfl
  | cons ref outer ih =>
    rw [assign]
    split
    · rfl
    · exact ih

theorem closures_bindParameters (scope : Scope) (parameters : List String)
    (arguments : List Value) (h : Heap) :
    (bindParameters scope parameters arguments h).closures = h.closures := by
  induction parameters generalizing arguments h with
  | nil => rfl
  | cons p ps ih =>
    cases arguments with
    | nil => rw [bindParameters, ih, closures_declare]
    | cons v vs => rw [bindParameters, ih, closures_declare]

end Heap

/-! ## Machines -/

/-- What becomes of a machine while scripts run on it that reach nothing outside the heap. -/
structure Machine.Grows (m m' : Machine σ) : Prop where
  host : m'.host = m.host
  maxDepth : m'.maxDepth = m.maxDepth
  heap : m.heap.Extends m'.heap
  /-- New notices are details. -/
  notices : ∀ n ∈ m'.notices, n ∈ m.notices ∨ n.detail = true

namespace Machine.Grows

variable {m m' m'' : Machine σ}

protected theorem refl (m : Machine σ) : m.Grows m :=
  ⟨rfl, rfl, .refl _, fun _ hn ↦ .inl hn⟩

protected theorem trans (h₁ : m.Grows m') (h₂ : m'.Grows m'') : m.Grows m'' where
  host := h₂.host.trans h₁.host
  maxDepth := h₂.maxDepth.trans h₁.maxDepth
  heap := h₁.heap.trans h₂.heap
  notices n hn := (h₂.notices n hn).elim (h₁.notices n) .inr

theorem pins (m : Machine σ) (p : List Pin) : m.Grows { m with pins := p } :=
  ⟨rfl, rfl, .refl _, fun _ hn ↦ .inl hn⟩

theorem depth (m : Machine σ) (d : Nat) : m.Grows { m with depth := d } :=
  ⟨rfl, rfl, .refl _, fun _ hn ↦ .inl hn⟩

/-- A machine with another heap that extends the one it has. -/
theorem of_heap {h : Heap} (hh : m.heap.Extends h) : m.Grows { m with heap := h } :=
  ⟨rfl, rfl, hh, fun _ hn ↦ .inl hn⟩

end Machine.Grows

/-- A property of machines that does not depend on what scripts change. -/
def Machine.GrowthClosed (I : Machine σ → Prop) : Prop := ∀ m m', m.Grows m' → I m → I m'

theorem Machine.GrowthClosed.failures {I : Machine σ → Prop} (hI : Machine.GrowthClosed I)
    (m : Machine σ) (n : Nat) (hm : I m) : I { m with failures := n } :=
  hI m _ ⟨rfl, rfl, .refl _, fun _ hn ↦ .inl hn⟩ hm

/-! ## Local actions -/

/-- The action reaches nothing outside the heap. -/
def Action.IsLocal (x : Action σ α) : Prop := ∀ m : Machine σ, m.Grows (x m).state

namespace Action.IsLocal

theorem tracks {I : Machine σ → Prop} (hI : Machine.GrowthClosed I) {x : Action σ α}
    (hx : x.IsLocal) : Run.Tracks I x fun _ ↦ x :=
  .of_preserves fun m hm ↦ hI m _ (hx m) hm

protected theorem pure (a : α) : (Pure.pure a : Action σ α).IsLocal := fun m ↦ .refl m

protected theorem bind {x : Action σ α} {f : α → Action σ β} (hx : x.IsLocal)
    (hf : ∀ a, (f a).IsLocal) : Action.IsLocal (x >>= f) := by
  intro m
  exact Run.state_bind_of (P := m.Grows) (hx m) fun a m' _ hm' ↦ hm'.trans (hf a m')

theorem ofOption (f : Machine σ → Option α) :
    Action.IsLocal fun m ↦ (Run.ofOption (f m) m : Outcome _ ScriptError α) := by
  intro m
  dsimp only
  cases f m <;> exact .refl m

theorem text (v : Value) : (Action.text v : Action σ String).IsLocal := ofOption _

theorem description (v : Value) : (Action.description v : Action σ String).IsLocal := ofOption _

theorem ofHeap (f : Heap → α) : (Action.ofHeap f : Action σ α).IsLocal := fun m ↦ .refl m

theorem onHeap {f : Heap → Heap} (hf : ∀ h : Heap, h.Extends (f h)) :
    (Action.onHeap f : Action σ Unit).IsLocal := fun m ↦ .of_heap (hf m.heap)

theorem allocate {f : Heap → α × Heap} (hf : ∀ h : Heap, h.Extends (f h).2) :
    (Action.allocate f : Action σ α).IsLocal := fun m ↦ .of_heap (hf m.heap)

theorem mapM_text (vs : List Value) : Action.IsLocal (vs.mapM (Action.text (σ := σ))) := by
  induction vs with
  | nil => exact .pure []
  | cons v vs ih =>
    rw [List.mapM_cons]
    exact (text v).bind fun s ↦ ih.bind fun ss ↦ .pure _

/-! ### The primitive actions of the evaluator -/

theorem builtin (f : Builtin) (arguments : List Value) :
    (f.apply arguments : Action σ Value).IsLocal := by
  cases f with
  | log =>
    exact (mapM_text arguments).bind fun parts ↦ .bind (fun m ↦ ⟨rfl, rfl, .refl _, fun _ ↦ .inl⟩)
      fun _ ↦ .pure _
  | string =>
    cases arguments with
    | nil => exact .pure _
    | cons v _ => exact (text v).bind fun s ↦ .pure _
  | number => cases arguments <;> exact .pure _
  | abs | floor | ceil | round | sqrt | min | max | pow => exact .pure _

theorem binaryValue (op : BinaryOp) (a b : Value) :
    (Script.binaryValue op a b : Action σ Value).IsLocal := by
  cases op with
  | add =>
    rw [Script.binaryValue]
    split
    · exact .pure _
    · exact (text a).bind fun s ↦ (text b).bind fun t ↦ .pure _
  | _ => exact .pure _

theorem readVariable (name : String) (scope : Scope) :
    (Script.readVariable name scope : Action σ Value).IsLocal := by
  intro m
  rw [Script.readVariable]
  split <;> exact .refl m

theorem assign (name : String) (v : Value) (scope : Scope) :
    (Action.onHeap fun h ↦ h.assign name v scope : Action σ Unit).IsLocal :=
  onHeap fun h ↦ .of_closures_eq (h.closures_assign name v scope)

theorem declare (name : String) (v : Value) (scope : Scope) :
    (Action.onHeap fun h ↦ h.declare name v scope : Action σ Unit).IsLocal :=
  onHeap fun h ↦ .of_closures_eq (h.closures_declare name v scope)

theorem setEntry (ref : RecordRef) (name : String) (v : Value) :
    (Action.onHeap fun h ↦ h.setEntry ref name v : Action σ Unit).IsLocal :=
  onHeap fun _ ↦ .of_closures_eq rfl

theorem openScope (scope : Scope) :
    (Action.allocate fun h ↦ h.openScope scope : Action σ Scope).IsLocal :=
  allocate fun _ ↦ .of_closures_eq rfl

theorem newArray (items : Array Value) :
    (Action.allocate fun h ↦ h.newArray items : Action σ Value).IsLocal :=
  allocate fun _ ↦ .of_closures_eq rfl

theorem newRecord (entries : Table Value) :
    (Action.allocate fun h ↦ h.newRecord entries : Action σ Value).IsLocal :=
  allocate fun _ ↦ .of_closures_eq rfl

theorem newClosure (c : Closure) :
    (Action.allocate fun h ↦ h.newClosure c : Action σ Value).IsLocal :=
  allocate fun h ↦ h.extends_newClosure c

theorem writeItem (ref : ArrayRef) (x : Float) (v : Value) :
    (Script.writeItem ref x v : Action σ Unit).IsLocal := by
  intro m
  rw [Script.writeItem]
  split
  · split
    · exact .of_heap (.of_closures_eq rfl)
    · exact .refl m
  · exact .refl m

theorem arrayMethod {method : String} {ref : ArrayRef} {arguments : List Value}
    {x : Action σ Value} (h : Script.arrayMethod? method ref arguments = some x) : x.IsLocal := by
  unfold Script.arrayMethod? at h
  split at h
  · cases h
    exact allocate fun _ ↦ .of_closures_eq rfl
  · cases h
    exact allocate fun _ ↦ .of_closures_eq rfl
  · cases h

theorem hoist (body : List Stmt) (scope : Scope) :
    (Script.hoist body scope : Action σ Unit).IsLocal := by
  refine onHeap fun h ↦ ?_
  induction body generalizing h with
  | nil => exact .refl h
  | cons s rest ih =>
    rw [List.foldl_cons]
    refine Heap.Extends.trans ?_ (ih _)
    split
    · exact (h.extends_newClosure _).trans (.of_closures_eq (Heap.closures_declare ..))
    · exact .refl h

end Action.IsLocal

end ReactiveFrames.Script
