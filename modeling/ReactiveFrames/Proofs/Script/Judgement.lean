import ReactiveFrames.Proofs.Script.Region

/-!
# Judgements about evaluation

A judgement says something of an action and of the values that it yields. If it holds of the
primitive actions, and of every action that is put together from actions of which it holds, then it
holds of every evaluation: this is one induction on the bound, with a lemma for each function of the
evaluator, and it does not depend on what the judgement says.

The judgement speaks of a region. Evaluation starts with scopes and values of the region, and all
that it yields is in the region again, so that a judgement may presuppose a closed heap, and needs
to hold only of those accesses to the host that start from the region.

## Main definitions

* `Machine.limited`: a computation that is refused if too many closures are being called.
* `Action.zoom`: a computation on the heap, as one on the machine.
* `loopRound`: a round of a loop, once the test has been made.
* `Compositional`: the rules of a judgement.
* `Compositional.evaluation`: a judgement with these rules holds of every evaluation.
-/

namespace ReactiveFrames.Script

open Machine (nested pinning pinningValue pinningValues)

variable {σ α β : Type}

/-! ## The parts of the evaluator -/

/-- A computation on the heap, as one on the machine. -/
def Action.zoom (f : Run Heap ScriptError α) : Action σ α := fun m ↦
  match f m.heap with
  | .ok a h => .ok a { m with heap := h }
  | .error e h => .error e { m with heap := h }
  | .exhausted h => .exhausted { m with heap := h }

/-- A computation that is refused if as many closures are being called as may be. -/
def Machine.limited (x : Action σ α) : Action σ α := fun m ↦
  if m.maxDepth ≤ m.depth then .error .callDepth m else x m

/-- A closure is called by running its body, with its parameters bound in a new scope. -/
theorem callClosure_succ (host : Host σ) (n : Nat) (ref : ClosureRef) (arguments : List Value) :
    callClosure host (n + 1) ref arguments = Machine.limited (do
      match ← Action.ofHeap fun h ↦ h.closures[ref.index]? with
      | none => pure .undefined
      | some c =>
        let scope ← Action.allocate fun h ↦ ((h.openScope c.scope).1,
          bindParameters (h.openScope c.scope).1 c.function.parameters arguments
            (h.openScope c.scope).2)
        Completion.result <$> nested (pinning [.scope scope]
          (execBlock host n scope c.function.body))) := by
  funext m
  unfold callClosure Machine.limited
  by_cases hdepth : m.maxDepth ≤ m.depth
  · simp only [if_pos hdepth]
  · simp only [if_neg hdepth]
    change _ = Run.bind (Action.ofHeap fun h ↦ h.closures[ref.index]?) _ m
    unfold Run.bind Action.ofHeap
    cases hc : m.heap.closures[ref.index]? with
    | none =>
      simp only [hc]
      rfl
    | some c =>
      simp only [hc]
      rfl

/-- Value of a variable, on the heap. -/
def Heap.readVariable (name : String) (scope : Scope) : Run Heap ScriptError Value := fun h ↦
  match h.lookup name scope with
  | some v => .ok v h
  | none => .error (.undefinedVariable name) h

/-- Writes an item of an array, on the heap. -/
def Heap.writeItem (ref : ArrayRef) (x : Float) (v : Value) : Run Heap ScriptError Unit := fun h ↦
  match Decimal.toNat? x with
  | some n =>
    if n < (h.items ref).size + maxGrowth then
      .ok () (h.setItems ref fun items ↦ putItem items n v)
    else .error (.arrayIndex (Decimal.plain x)) h
  | none => .error (.arrayIndex (Decimal.plain x)) h

theorem readVariable_eq_zoom (name : String) (scope : Scope) :
    (readVariable name scope : Action σ Value) = Action.zoom (Heap.readVariable name scope) := by
  funext m
  unfold readVariable Action.zoom Heap.readVariable
  cases m.heap.lookup name scope <;> rfl

theorem writeItem_eq_zoom (ref : ArrayRef) (x : Float) (v : Value) :
    (writeItem ref x v : Action σ Unit) = Action.zoom (Heap.writeItem ref x v) := by
  funext m
  unfold writeItem Action.zoom Heap.writeItem
  cases Decimal.toNat? x with
  | none => rfl
  | some n =>
    dsimp only
    split <;> rfl

/-- A round of a loop and what follows it, once the test has been made. -/
def loopRound (host : Host σ) (n : Nat) (scope : Scope) (test update : Option Expr) (body : Stmt)
    (goes : Bool) : Action σ Completion :=
  if goes then do
    match ← exec host n scope body with
    | .broke => pure .normal
    | .returned v => pure (.returned v)
    | _ =>
      match update with
      | some e => do
        let _ ← eval host n scope e
        loop host n scope test update body
      | none => loop host n scope test update body
  else pure .normal

theorem loop_without_test (host : Host σ) (n : Nat) (scope : Scope) (update : Option Expr)
    (body : Stmt) :
    loop host (n + 1) scope none update body = loopRound host n scope none update body true := by
  rw [loop.eq_def]
  exact pure_bind true (loopRound host n scope none update body)

theorem loop_with_test (host : Host σ) (n : Nat) (scope : Scope) (e : Expr) (update : Option Expr)
    (body : Stmt) :
    loop host (n + 1) scope (some e) update body =
      eval host n scope e >>= fun v ↦ loopRound host n scope (some e) update body v.isTruthy := by
  rw [loop.eq_def]
  exact bind_congr fun v ↦ pure_bind v.isTruthy (loopRound host n scope (some e) update body)

/-- The rules of a judgement about actions with a host, in a region. -/
structure Compositional (host : Host σ) (R : Region)
    (holds : ∀ {α : Type}, (α → Prop) → Action σ α → Prop) : Prop where
  exhaust : ∀ {α : Type} {P : α → Prop}, holds P Run.exhaust
  pure : ∀ {α : Type} {P : α → Prop} {a : α}, P a → holds P (Pure.pure a)
  fail : ∀ {α : Type} {P : α → Prop} (e : ScriptError), holds P (Run.fail e)
  bind : ∀ {α β : Type} {P : α → Prop} {Q : β → Prop} {x : Action σ α} {f : α → Action σ β},
    holds P x → (∀ a, P a → holds Q (f a)) → holds Q (x >>= f)
  pinning : ∀ {α : Type} {P : α → Prop} {x : Action σ α} (pins : List Pin),
    holds P x → holds P (pinning pins x)
  nested : ∀ {α : Type} {P : α → Prop} {x : Action σ α}, holds P x → holds P (nested x)
  limited : ∀ {α : Type} {P : α → Prop} {x : Action σ α}, holds P x → holds P (Machine.limited x)
  zoom : ∀ {α : Type} {P : α → Prop} {f : Run Heap ScriptError α},
    (∀ h, R.Closed h → ∀ a h', f h = .ok a h' → P a ∧ R.Closed h') → holds P (Action.zoom f)
  log : ∀ line, holds (fun _ ↦ True) (Run.update (Machine.log line))
  read : ∀ ref property, R.host ref →
    holds R.Has fun m ↦ .ok (host.read ref property m) m
  write : ∀ ref property v, R.host ref → R.Has v →
    holds (fun _ ↦ True) (host.write ref property v)
  call : ∀ ref arguments, R.foreign ref → R.HasAll arguments →
    holds R.Has (host.call ref arguments)

namespace Compositional

variable {host : Host σ} {R : Region} {holds : ∀ {α : Type}, (α → Prop) → Action σ α → Prop}
  (hc : Compositional host R holds)
include hc

/-! ## Primitive actions -/

section Primitive

theorem map {P : α → Prop} {Q : β → Prop} {x : Action σ α} (hx : holds P x) {f : α → β}
    (hf : ∀ a, P a → Q (f a)) : holds Q (f <$> x) := by
  rw [← bind_pure_comp]
  exact hc.bind hx fun a ha ↦ hc.pure (hf a ha)

theorem ofHeap {P : α → Prop} {f : Heap → α} (hf : ∀ h, R.Closed h → P (f h)) :
    holds P (Action.ofHeap f) := by
  have hzoom : (Action.ofHeap f : Action σ α) = Action.zoom fun h ↦ .ok (f h) h := rfl
  rw [hzoom]
  refine hc.zoom fun h hh a h' heq ↦ ?_
  cases heq
  exact ⟨hf h hh, hh⟩

theorem allocate {P : α → Prop} {f : Heap → α × Heap}
    (hf : ∀ h, R.Closed h → P (f h).1 ∧ R.Closed (f h).2) : holds P (Action.allocate f) := by
  have hzoom : (Action.allocate f : Action σ α) = Action.zoom fun h ↦ .ok (f h).1 (f h).2 := rfl
  rw [hzoom]
  refine hc.zoom fun h hh a h' heq ↦ ?_
  cases heq
  exact hf h hh

theorem onHeap {f : Heap → Heap} (hf : ∀ h, R.Closed h → R.Closed (f h)) :
    holds (fun _ ↦ True) (Action.onHeap f) := by
  have hzoom : (Action.onHeap f : Action σ Unit) = Action.zoom fun h ↦ .ok () (f h) := rfl
  rw [hzoom]
  refine hc.zoom fun h hh a h' heq ↦ ?_
  cases heq
  exact ⟨trivial, hf h hh⟩

/-- A text that is read off the heap may be without end. -/
theorem ofOption (f : Heap → Option String) :
    holds (fun _ ↦ True) (fun m ↦ Run.ofOption (f m.heap) m : Action σ String) := by
  have hzoom : (fun m ↦ Run.ofOption (f m.heap) m : Action σ String)
      = Action.zoom fun h ↦ Run.ofOption (f h) h := by
    funext m
    unfold Action.zoom
    dsimp only
    cases f m.heap <;> rfl
  rw [hzoom]
  refine hc.zoom fun h hh a h' heq ↦ ?_
  cases hf : f h with
  | none =>
    rw [hf] at heq
    cases heq
  | some s =>
    rw [hf] at heq
    cases heq
    exact ⟨trivial, hh⟩

theorem text (v : Value) : holds (fun _ ↦ True) (Action.text v : Action σ String) :=
  hc.ofOption fun h ↦ h.text? v

theorem description (v : Value) : holds (fun _ ↦ True) (Action.description v : Action σ String) :=
  hc.ofOption fun h ↦ h.description? v

theorem texts (vs : List Value) :
    holds (fun _ ↦ True) (vs.mapM (Action.text (σ := σ))) := by
  induction vs with
  | nil => exact hc.pure trivial
  | cons v vs ih =>
    rw [List.mapM_cons]
    exact hc.bind (hc.text v) fun _ _ ↦ hc.bind ih fun _ _ ↦ hc.pure trivial

theorem builtin (f : Builtin) (arguments : List Value) :
    holds R.Has (f.apply arguments : Action σ Value) := by
  cases f with
  | log =>
    exact hc.bind (hc.texts arguments) fun _ _ ↦ hc.bind (hc.log _) fun _ _ ↦ hc.pure trivial
  | string =>
    cases arguments with
    | nil => exact hc.pure trivial
    | cons v _ => exact hc.bind (hc.text v) fun _ _ ↦ hc.pure trivial
  | number => cases arguments <;> exact hc.pure trivial
  | abs | floor | ceil | round | sqrt | min | max | pow => exact hc.pure trivial

theorem binaryValue (op : BinaryOp) (a b : Value) :
    holds R.Has (Script.binaryValue op a b : Action σ Value) := by
  cases op with
  | add =>
    rw [Script.binaryValue]
    split
    · exact hc.pure trivial
    · exact hc.bind (hc.text a) fun _ _ ↦ hc.bind (hc.text b) fun _ _ ↦ hc.pure trivial
  | _ => exact hc.pure trivial

theorem readVariable (name : String) {scope : Scope} (hs : R.HasScope scope) :
    holds R.Has (Script.readVariable name scope : Action σ Value) := by
  rw [readVariable_eq_zoom]
  refine hc.zoom fun h hh v h' heq ↦ ?_
  unfold Heap.readVariable at heq
  split at heq
  · next hlookup =>
    cases heq
    exact ⟨hh.has_lookup hs hlookup, hh⟩
  · cases heq

theorem writeItem (ref : ArrayRef) (x : Float) {v : Value} (hv : R.Has v) :
    holds (fun _ ↦ True) (Script.writeItem ref x v : Action σ Unit) := by
  rw [writeItem_eq_zoom]
  refine hc.zoom fun h hh u h' heq ↦ ⟨trivial, ?_⟩
  unfold Heap.writeItem at heq
  split at heq
  · split at heq
    · cases heq
      exact hh.setItems ref fun items hitems ↦ Region.has_putItem hitems _ hv
    · cases heq
  · cases heq

theorem arrayMethod {method : String} {ref : ArrayRef} (hr : R.array ref) {arguments : List Value}
    (ha : R.HasAll arguments) {x : Action σ Value}
    (hx : arrayMethod? method ref arguments = some x) : holds R.Has x := by
  unfold arrayMethod? at hx
  split at hx
  · cases hx
    refine hc.allocate fun h hh ↦ ⟨trivial, hh.setItems ref fun items hitems v hv ↦ ?_⟩
    rcases Array.mem_append.1 hv with hv | hv
    · exact hitems v hv
    · exact ha v (List.mem_toArray.1 hv)
  · cases hx
    refine hc.allocate fun h hh ↦ ⟨?_, hh.setItems ref fun items hitems v hv ↦ ?_⟩
    · cases hback : (h.items ref).back? with
      | none => trivial
      | some v => exact hh.items ref hr v (Array.mem_of_back? hback)
    · rw [← Array.mem_toList_iff, Array.toList_pop] at hv
      exact hitems v (Array.mem_toList_iff.1 (List.dropLast_subset _ hv))
  · cases hx

theorem hoist (body : List Stmt) {scope : Scope} (hs : R.HasScope scope) :
    holds (fun _ ↦ True) (Script.hoist body scope : Action σ Unit) := by
  refine hc.onHeap fun h hh ↦ ?_
  induction body generalizing h with
  | nil => exact hh
  | cons s rest ih =>
    rw [List.foldl_cons]
    refine ih _ ?_
    split
    · next f =>
      obtain ⟨hv, hnew⟩ := hh.newClosure (c := ⟨f, scope⟩) hs
      exact hnew.declare _ hv scope
    · exact hh

theorem readMember {object : Value} (ho : R.Has object) (property : String) :
    holds R.Has (Script.readMember host object property) := by
  unfold Script.readMember
  cases object with
  | undefined | null => exact hc.fail _
  | bool _ | number _ | closure _ | builtin _ | foreign _ => exact hc.pure trivial
  | string s =>
    refine hc.pure ?_
    split <;> trivial
  | array ref =>
    dsimp only
    split
    · exact hc.ofHeap fun _ _ ↦ trivial
    · exact hc.pure trivial
  | record ref => exact hc.ofHeap fun h hh ↦ (hh.entries ref ho).getD property
  | host ref => exact hc.read ref property ho

theorem readIndex {object index : Value} (ho : R.Has object) :
    holds R.Has (Script.readIndex host object index) := by
  unfold Script.readIndex
  split
  · next ref x => exact hc.ofHeap fun h hh ↦ Region.has_itemAt (hh.items ref ho) x
  · exact hc.pure (Region.has_characterAt _ _)
  · exact hc.bind (hc.text _) fun property _ ↦ hc.readMember ho property

theorem writeMember {object v : Value} (ho : R.Has object) (hv : R.Has v) (property : String) :
    holds (fun _ ↦ True) (Script.writeMember host object property v) := by
  unfold Script.writeMember
  cases object with
  | record ref => exact hc.onHeap fun h hh ↦ hh.setEntry ref property hv
  | host ref => exact hc.write ref property v ho hv
  | _ => exact hc.bind (hc.description _) fun _ _ ↦ hc.fail _

theorem writeIndex {object index v : Value} (ho : R.Has object) (hv : R.Has v) :
    holds (fun _ ↦ True) (Script.writeIndex host object index v) := by
  unfold Script.writeIndex
  split
  · exact hc.writeItem _ _ hv
  · exact hc.bind (hc.text _) fun property _ ↦ hc.writeMember ho hv property

end Primitive

end Compositional

/-! ## The evaluator -/

/-- The judgement holds of every function of the evaluator with the bound `n`, if what it is given
is in the region. -/
structure EvaluationHolds (host : Host σ) (R : Region)
    (holds : ∀ {α : Type}, (α → Prop) → Action σ α → Prop) (n : Nat) : Prop where
  eval : ∀ {scope}, R.HasScope scope → ∀ e, holds R.Has (eval host n scope e)
  evalAll : ∀ {scope}, R.HasScope scope → ∀ es, holds R.HasAll (evalAll host n scope es)
  evalEntries : ∀ {scope done}, R.HasScope scope → R.HasTable done → ∀ es,
    holds R.HasTable (evalEntries host n scope done es)
  readTarget : ∀ {scope}, R.HasScope scope → ∀ t, holds R.Has (readTarget host n scope t)
  writeTarget : ∀ {scope v}, R.HasScope scope → R.Has v → ∀ t,
    holds (fun _ ↦ True) (writeTarget host n scope t v)
  callMethod : ∀ {receiver arguments}, R.Has receiver → R.HasAll arguments → ∀ method,
    holds R.Has (callMethod host n receiver method arguments)
  call : ∀ {f arguments}, R.Has f → R.HasAll arguments → holds R.Has (call host n f arguments)
  callClosure : ∀ {ref arguments}, R.closure ref → R.HasAll arguments →
    holds R.Has (callClosure host n ref arguments)
  execBlock : ∀ {scope}, R.HasScope scope → ∀ body,
    holds R.HasCompletion (execBlock host n scope body)
  execAll : ∀ {scope}, R.HasScope scope → ∀ body,
    holds R.HasCompletion (execAll host n scope body)
  exec : ∀ {scope}, R.HasScope scope → ∀ s, holds R.HasCompletion (exec host n scope s)
  declareAll : ∀ {scope}, R.HasScope scope → ∀ declared,
    holds (fun _ ↦ True) (declareAll host n scope declared)
  loop : ∀ {scope}, R.HasScope scope → ∀ test update body,
    holds R.HasCompletion (loop host n scope test update body)

namespace EvaluationHolds

variable {host : Host σ} {R : Region} {holds : ∀ {α : Type}, (α → Prop) → Action σ α → Prop}
  (hc : Compositional host R holds) {n : Nat} (ih : EvaluationHolds host R holds n)
  {scope : Scope}

include hc in
theorem zero : EvaluationHolds host R holds 0 where
  eval _ _ := hc.exhaust
  evalAll _ _ := hc.exhaust
  evalEntries _ _ _ := hc.exhaust
  readTarget _ _ := hc.exhaust
  writeTarget _ _ _ := hc.exhaust
  callMethod _ _ _ := hc.exhaust
  call _ _ := hc.exhaust
  callClosure _ _ := hc.exhaust
  execBlock _ _ := hc.exhaust
  execAll _ _ := hc.exhaust
  exec _ _ := hc.exhaust
  declareAll _ _ := hc.exhaust
  loop _ _ _ _ := hc.exhaust

include hc ih

theorem eval_succ (hs : R.HasScope scope) (e : Expr) :
    holds R.Has (Script.eval host (n + 1) scope e) := by
  unfold Script.eval
  cases e with
  | number _ | string _ | bool _ | null | undefined => exact hc.pure trivial
  | «variable» name => exact hc.readVariable name hs
  | array items =>
    refine hc.bind (ih.evalAll hs items) fun vs hvs ↦ hc.allocate fun h hh ↦ ?_
    exact hh.newArray fun v hv ↦ hvs v (List.mem_toArray.1 hv)
  | object entries =>
    exact hc.bind (ih.evalEntries hs Region.hasTable_empty entries) fun t ht ↦
      hc.allocate fun h hh ↦ hh.newRecord ht
  | function f => exact hc.allocate fun h hh ↦ hh.newClosure hs
  | unary op operand =>
    dsimp only
    split
    · exact hc.ofHeap fun _ _ ↦ trivial
    · exact hc.bind (ih.eval hs _) fun v _ ↦ hc.pure (Region.has_unaryValue _ v)
  | binary op left right =>
    exact hc.bind (ih.eval hs left) fun a _ ↦
      hc.bind (hc.pinning _ (ih.eval hs right)) fun b _ ↦ hc.binaryValue op a b
  | logical op left right =>
    refine hc.bind (ih.eval hs left) fun a ha ↦ ?_
    split
    · exact hc.pure ha
    · exact hc.pure ha
    · exact hc.pinning _ (ih.eval hs right)
  | conditional test consequent alternate =>
    refine hc.bind (ih.eval hs test) fun v _ ↦ ?_
    split
    · exact ih.eval hs consequent
    · exact ih.eval hs alternate
  | assign op target value =>
    cases op with
    | none =>
      refine hc.bind (ih.eval hs value) fun v hv ↦ ?_
      exact hc.bind (hc.pinning _ (ih.writeTarget hs hv target)) fun _ _ ↦ hc.pure hv
    | some op =>
      refine hc.bind (ih.readTarget hs target) fun current _ ↦ ?_
      refine hc.bind (hc.pinning _ (ih.eval hs value)) fun operand _ ↦ ?_
      refine hc.bind (hc.binaryValue op current operand) fun v hv ↦ ?_
      exact hc.bind (ih.writeTarget hs hv target) fun _ _ ↦ hc.pure hv
  | update increment before target =>
    refine hc.bind (ih.readTarget hs target) fun v _ ↦ ?_
    exact hc.bind (ih.writeTarget (v := .number _) hs trivial target) fun _ _ ↦ hc.pure trivial
  | member object property =>
    exact hc.bind (ih.eval hs object) fun v hv ↦ hc.readMember hv property
  | index object index =>
    exact hc.bind (ih.eval hs object) fun v hv ↦
      hc.bind (hc.pinning _ (ih.eval hs index)) fun i _ ↦ hc.readIndex hv
  | call callee arguments =>
    -- A call of a member is a method call; all other callees are treated alike.
    cases callee with
    | member object property =>
      refine hc.bind (ih.eval hs object) fun v hv ↦ hc.pinning _ ?_
      exact hc.bind (ih.evalAll hs arguments) fun vs hvs ↦ ih.callMethod hv hvs property
    | _ =>
      refine hc.bind (ih.eval hs _) fun f hf ↦ ?_
      exact hc.bind (hc.pinning _ (ih.evalAll hs arguments)) fun vs hvs ↦ ih.call hf hvs

theorem evalAll_succ (hs : R.HasScope scope) (es : List Expr) :
    holds R.HasAll (Script.evalAll host (n + 1) scope es) := by
  unfold Script.evalAll
  cases es with
  | nil => exact hc.pure fun _ h ↦ nomatch h
  | cons e rest =>
    refine hc.bind (ih.eval hs e) fun v hv ↦ ?_
    refine hc.bind (hc.pinning _ (ih.evalAll hs rest)) fun vs hvs ↦ ?_
    exact hc.pure (List.forall_mem_cons.2 ⟨hv, hvs⟩)

theorem evalEntries_succ {done : Table Value} (hs : R.HasScope scope) (hd : R.HasTable done)
    (es : List (String × Expr)) :
    holds R.HasTable (Script.evalEntries host (n + 1) scope done es) := by
  unfold Script.evalEntries
  cases es with
  | nil => exact hc.pure hd
  | cons entry rest =>
    refine hc.bind (hc.pinning _ (ih.eval hs entry.2)) fun v hv ↦ ?_
    exact ih.evalEntries hs (hd.insert hv entry.1) rest

theorem readTarget_succ (hs : R.HasScope scope) (t : Target) :
    holds R.Has (Script.readTarget host (n + 1) scope t) := by
  unfold Script.readTarget
  cases t with
  | «variable» name => exact hc.readVariable name hs
  | member object property =>
    exact hc.bind (ih.eval hs object) fun v hv ↦ hc.readMember hv property
  | index object index =>
    exact hc.bind (ih.eval hs object) fun v hv ↦
      hc.bind (hc.pinning _ (ih.eval hs index)) fun i _ ↦ hc.readIndex hv

theorem writeTarget_succ {v : Value} (hs : R.HasScope scope) (hv : R.Has v) (t : Target) :
    holds (fun _ ↦ True) (Script.writeTarget host (n + 1) scope t v) := by
  unfold Script.writeTarget
  cases t with
  | «variable» name => exact hc.onHeap fun h hh ↦ hh.assign name hv scope
  | member object property =>
    exact hc.bind (ih.eval hs object) fun o ho ↦ hc.writeMember ho hv property
  | index object index =>
    refine hc.bind (ih.eval hs object) fun o ho ↦ hc.pinning _ ?_
    exact hc.bind (ih.eval hs index) fun i _ ↦ hc.pinning _ (hc.writeIndex ho hv)

theorem callMethod_succ {receiver : Value} {arguments : List Value} (hr : R.Has receiver)
    (ha : R.HasAll arguments) (method : String) :
    holds R.Has (Script.callMethod host (n + 1) receiver method arguments) := by
  unfold Script.callMethod
  dsimp only
  split
  · next x hx =>
    split at hx
    · exact hc.arrayMethod hr ha hx
    · cases hx
  · exact hc.bind (hc.readMember hr method) fun f hf ↦ ih.call hf ha

theorem call_succ {f : Value} {arguments : List Value} (hf : R.Has f) (ha : R.HasAll arguments) :
    holds R.Has (Script.call host (n + 1) f arguments) := by
  unfold Script.call
  cases f with
  | closure ref => exact hc.pinning _ (ih.callClosure hf ha)
  | builtin f => exact hc.builtin f arguments
  | foreign ref => exact hc.call ref arguments hf ha
  | _ => exact hc.bind (hc.description _) fun _ _ ↦ hc.fail _

theorem callClosure_succ {ref : ClosureRef} {arguments : List Value} (hr : R.closure ref)
    (ha : R.HasAll arguments) : holds R.Has (Script.callClosure host (n + 1) ref arguments) := by
  rw [Script.callClosure_succ]
  refine hc.limited <| hc.bind (P := fun c ↦ ∀ d, c = some d → R.HasScope d.scope)
    (hc.ofHeap fun h hh d hd ↦ hh.scope ref hr d hd) fun c hcl ↦ ?_
  cases c with
  | none => exact hc.pure trivial
  | some c =>
    refine hc.bind (P := R.HasScope) (hc.allocate fun h hh ↦ ?_) fun scope hs ↦ ?_
    · obtain ⟨hs, hopen⟩ := hh.openScope (hcl c rfl)
      exact ⟨hs, hopen.bindParameters _ _ ha⟩
    · exact hc.map (hc.nested (hc.pinning _ (ih.execBlock hs _))) fun _ h ↦ h

theorem execBlock_succ (hs : R.HasScope scope) (body : List Stmt) :
    holds R.HasCompletion (Script.execBlock host (n + 1) scope body) := by
  unfold Script.execBlock
  exact hc.bind (hc.hoist body hs) fun _ _ ↦ ih.execAll hs body

theorem execAll_succ (hs : R.HasScope scope) (body : List Stmt) :
    holds R.HasCompletion (Script.execAll host (n + 1) scope body) := by
  unfold Script.execAll
  cases body with
  | nil => exact hc.pure trivial
  | cons s rest =>
    refine hc.bind (ih.exec hs s) fun c hcompletion ↦ ?_
    cases c with
    | normal => exact ih.execAll hs rest
    | _ => exact hc.pure hcompletion

theorem exec_succ (hs : R.HasScope scope) (s : Stmt) :
    holds R.HasCompletion (Script.exec host (n + 1) scope s) := by
  unfold Script.exec
  cases s with
  | expression e => exact hc.bind (ih.eval hs e) fun _ _ ↦ hc.pure trivial
  | declare declared => exact hc.bind (ih.declareAll hs declared) fun _ _ ↦ hc.pure trivial
  | function _ | breakLoop | continueLoop | empty => exact hc.pure trivial
  | returnValue e =>
    cases e with
    | none => exact hc.pure trivial
    | some e => exact hc.bind (ih.eval hs e) fun v hv ↦ hc.pure hv
  | branch test consequent alternate =>
    refine hc.bind (ih.eval hs test) fun v _ ↦ ?_
    split
    · exact ih.exec hs consequent
    · cases alternate with
      | none => exact hc.pure trivial
      | some s => exact ih.exec hs s
  | whileLoop test body => exact ih.loop hs _ _ _
  | forLoop init test update body =>
    refine hc.bind (hc.allocate fun h hh ↦ hh.openScope hs) fun inner hinner ↦ hc.pinning _ ?_
    cases init with
    | none => exact ih.loop hinner _ _ _
    | some s => exact hc.bind (ih.exec hinner s) fun _ _ ↦ ih.loop hinner _ _ _
  | block body =>
    exact hc.bind (hc.allocate fun h hh ↦ hh.openScope hs) fun inner hinner ↦
      hc.pinning _ (ih.execBlock hinner body)
  | throwValue e =>
    exact hc.bind (ih.eval hs e) fun v _ ↦ hc.bind (hc.text v) fun _ _ ↦ hc.fail _

theorem declareAll_succ (hs : R.HasScope scope) (declared : List (String × Option Expr)) :
    holds (fun _ ↦ True) (Script.declareAll host (n + 1) scope declared) := by
  unfold Script.declareAll
  cases declared with
  | nil => exact hc.pure trivial
  | cons d rest =>
    obtain ⟨name, initial⟩ := d
    have hrest (v : Value) (hv : R.Has v) :=
      hc.bind (hc.onHeap (f := fun h ↦ h.declare name v scope) fun h hh ↦ hh.declare name hv scope)
        fun _ _ ↦ ih.declareAll hs rest
    cases initial with
    | none => exact hc.bind (hc.pure (a := Value.undefined) (P := R.Has) trivial) hrest
    | some e => exact hc.bind (ih.eval hs e) hrest

theorem loopRound (hs : R.HasScope scope) (test update : Option Expr) (body : Stmt) (goes : Bool) :
    holds R.HasCompletion (Script.loopRound host n scope test update body goes) := by
  unfold Script.loopRound
  cases goes with
  | false => exact hc.pure trivial
  | true =>
    refine hc.bind (ih.exec hs body) fun c hcompletion ↦ ?_
    cases c with
    | broke => exact hc.pure trivial
    | returned v => exact hc.pure hcompletion
    | normal | continued =>
      cases update with
      | none => exact ih.loop hs _ _ _
      | some e => exact hc.bind (ih.eval hs e) fun _ _ ↦ ih.loop hs _ _ _

theorem loop_succ (hs : R.HasScope scope) (test update : Option Expr) (body : Stmt) :
    holds R.HasCompletion (Script.loop host (n + 1) scope test update body) := by
  cases test with
  | none =>
    rw [loop_without_test]
    exact ih.loopRound hc hs _ _ _ _
  | some e =>
    rw [loop_with_test]
    exact hc.bind (ih.eval hs e) fun v _ ↦ ih.loopRound hc hs _ _ _ _

end EvaluationHolds

namespace Compositional

variable {host : Host σ} {R : Region} {holds : ∀ {α : Type}, (α → Prop) → Action σ α → Prop}
  (hc : Compositional host R holds)
include hc

/-- A judgement that follows the rules holds of every evaluation. -/
theorem evaluation (n : Nat) : EvaluationHolds host R holds n := by
  -- On the bound: the functions of the evaluator call each other with one step less.
  induction n with
  | zero => exact .zero hc
  | succ n ih =>
    exact {
      eval := ih.eval_succ hc
      evalAll := ih.evalAll_succ hc
      evalEntries := ih.evalEntries_succ hc
      readTarget := ih.readTarget_succ hc
      writeTarget := ih.writeTarget_succ hc
      callMethod := ih.callMethod_succ hc
      call := ih.call_succ hc
      callClosure := ih.callClosure_succ hc
      execBlock := ih.execBlock_succ hc
      execAll := ih.execAll_succ hc
      exec := ih.exec_succ hc
      declareAll := ih.declareAll_succ hc
      loop := ih.loop_succ hc }

/-! ## Programs -/

theorem runStatements (n : Nat) {last : Value} (hl : R.Has last) (body : List Stmt) :
    holds R.Has (Script.runStatements host n last body) := by
  have hevaluation := hc.evaluation n
  induction body generalizing last with
  | nil => exact hc.pure hl
  | cons s rest ih =>
    cases s with
    | expression e =>
      exact hc.bind (hc.pinning _ (hevaluation.eval Region.hasScope_nil e)) fun v hv ↦ ih hv
    | _ =>
      refine hc.bind (hc.pinning _ (hevaluation.exec Region.hasScope_nil _)) fun c hcompletion ↦ ?_
      cases c with
      | returned v => exact hc.pure hcompletion
      | _ => exact ih hl

theorem runProgram (n : Nat) (source : String) :
    holds R.Has (Script.runProgram host n source) := by
  unfold Script.runProgram
  split
  · exact hc.fail _
  · next body _ =>
    exact hc.bind (hc.hoist body Region.hasScope_nil) fun _ _ ↦
      hc.runStatements n (show R.Has .undefined from trivial) body

end Compositional

end ReactiveFrames.Script
