import ReactiveFrames.Proofs.Script.Growth
import ReactiveFrames.Proofs.Script.Judgement

/-!
# Evaluation under other bounds and other hosts

One induction over the evaluator serves every statement about scripts. Let `I` be a property of
machines that scripts do not notice, and let a host be tracked on `I` by a family of hosts: it
restores `I` in every write and call, and the family comes to answer as the host does. Then every
evaluation with a host and a bound is tracked by the evaluations with the family and larger bounds.

With a constant family this says that evaluation preserves what the host preserves, and that it
depends on the host no more than on the states with `I`; with a constant host it says that a bound
that suffices is not noticed.

The induction is on the bound, with a lemma for each function of the evaluator.
-/

open Filter

namespace ReactiveFrames.Script

open Machine (nested pinning pinningValue pinningValues GrowthClosed)

variable {σ α ε : Type}

/-! ## Hosts and bounds -/

/-- The family comes to answer as the host does in states with a property, which the host
preserves. -/
structure Host.Tracks (I : Machine σ → Prop) (h : Host σ) (H : ℕ → Host σ) : Prop where
  read : ∀ m, I m → ∀ ref property,
    ∀ᶠ k in atTop, (H k).read ref property m = h.read ref property m
  write : ∀ ref property v,
    Run.Tracks I (h.write ref property v) fun k ↦ (H k).write ref property v
  call : ∀ ref arguments, Run.Tracks I (h.call ref arguments) fun k ↦ (H k).call ref arguments

/-- A run is tracked by a family of bounded runs whenever the bounds are at least `n`. -/
def TracksFrom (I : Machine σ → Prop) (n : ℕ) (x : Run (Machine σ) ε α)
    (y : ℕ → ℕ → Run (Machine σ) ε α) : Prop :=
  ∀ b : ℕ → ℕ, (∀ᶠ k in atTop, n ≤ b k) → Run.Tracks I x fun k ↦ y k (b k)

namespace TracksFrom

variable {I : Machine σ → Prop} {n : ℕ} {x : Run (Machine σ) ε α}
  {y : ℕ → ℕ → Run (Machine σ) ε α}

theorem exhaust : TracksFrom I n (Run.exhaust : Run (Machine σ) ε α) y := fun _ _ ↦ .exhaust

/-- Bounds that are at least `n + 1` are successors of bounds that are at least `n`. -/
theorem succ (h : ∀ b : ℕ → ℕ, (∀ᶠ k in atTop, n ≤ b k) →
    Run.Tracks I x fun k ↦ y k (b k + 1)) : TracksFrom I (n + 1) x y := by
  intro b hb
  have hpred : ∀ᶠ k in atTop, n ≤ b k - 1 := hb.mono fun k hk ↦ by omega
  refine (h _ hpred).congr (hb.mono fun k hk ↦ ?_)
  rw [Nat.sub_add_cancel (by omega)]

end TracksFrom

/-! ## Pins and calls under way -/

section Scoped

variable {I : Machine σ → Prop} {x : Run (Machine σ) ε α} {y : ℕ → Run (Machine σ) ε α}

/-- What is pinned does not matter to the property. -/
theorem tracks_pinning_of (hI : ∀ (m : Machine σ) p, I m → I { m with pins := p }) (pins : List Pin)
    (h : Run.Tracks I x y) : Run.Tracks I (pinning pins x) fun k ↦ pinning pins (y k) := by
  intro m hm hr
  have hm' : I { m with pins := pins ++ m.pins } := hI m _ hm
  rw [pinning, Outcome.returns_mapState] at hr
  obtain ⟨hres, hy⟩ := h _ hm' hr
  refine ⟨?_, hy.mono fun k hk ↦ by simp only [pinning, hk]⟩
  rw [Machine.state_pinning]
  exact hI _ _ hres

variable (hI : GrowthClosed I)
include hI

theorem tracks_pinning (pins : List Pin) (h : Run.Tracks I x y) :
    Run.Tracks I (pinning pins x) fun k ↦ pinning pins (y k) :=
  tracks_pinning_of (fun m p ↦ hI m _ (.pins m p)) pins h

theorem tracks_nested (h : Run.Tracks I x y) :
    Run.Tracks I (nested x) fun k ↦ nested (y k) := by
  intro m hm hr
  have hm' : I { m with depth := m.depth + 1 } := hI m _ (.depth m _) hm
  rw [nested, Outcome.returns_mapState] at hr
  obtain ⟨hres, hy⟩ := h _ hm' hr
  refine ⟨?_, hy.mono fun k hk ↦ by simp only [nested, hk]⟩
  rw [Machine.state_nested]
  exact hI _ _ (.depth _ _) hres

theorem tracks_counted {x : Action σ α} {y : ℕ → Action σ α} (notice : String)
    (h : Run.Tracks I x y) : Run.Tracks I (counted notice x) fun k ↦ counted notice (y k) := by
  intro m hm hr
  have hx := h m hm
  unfold counted at hr ⊢
  cases hxm : x m with
  | exhausted m' => simp [hxm] at hr
  | ok a m' =>
    rw [hxm] at hx
    exact ⟨(hx trivial).1, (hx trivial).2.mono fun k hk ↦ by simp only [hk]⟩
  | error e m' =>
    rw [hxm] at hx
    refine ⟨hI m' _ ⟨rfl, rfl, .refl _, fun n hn ↦ ?_⟩ (hx trivial).1,
      (hx trivial).2.mono fun k hk ↦ by simp only [hk]⟩
    rcases Array.mem_push.1 hn with hn | rfl
    · exact .inl hn
    · exact .inr rfl

end Scoped

/-! ## The evaluator -/

section Evaluator

/-- Every function of the evaluator with the bound `n` is tracked by itself under larger bounds. -/
structure EvaluationTracks (I : Machine σ → Prop) (h : Host σ) (H : ℕ → Host σ) (n : ℕ) :
    Prop where
  eval : ∀ scope e, TracksFrom I n (eval h n scope e) fun k j ↦ eval (H k) j scope e
  evalAll : ∀ scope es, TracksFrom I n (evalAll h n scope es) fun k j ↦ evalAll (H k) j scope es
  evalEntries : ∀ scope done es, TracksFrom I n (evalEntries h n scope done es)
    fun k j ↦ evalEntries (H k) j scope done es
  readTarget : ∀ scope t, TracksFrom I n (readTarget h n scope t)
    fun k j ↦ readTarget (H k) j scope t
  writeTarget : ∀ scope t v, TracksFrom I n (writeTarget h n scope t v)
    fun k j ↦ writeTarget (H k) j scope t v
  callMethod : ∀ receiver method arguments,
    TracksFrom I n (callMethod h n receiver method arguments)
      fun k j ↦ callMethod (H k) j receiver method arguments
  call : ∀ f arguments, TracksFrom I n (call h n f arguments) fun k j ↦ call (H k) j f arguments
  callClosure : ∀ ref arguments, TracksFrom I n (callClosure h n ref arguments)
    fun k j ↦ callClosure (H k) j ref arguments
  execBlock : ∀ scope body, TracksFrom I n (execBlock h n scope body)
    fun k j ↦ execBlock (H k) j scope body
  execAll : ∀ scope body, TracksFrom I n (execAll h n scope body)
    fun k j ↦ execAll (H k) j scope body
  exec : ∀ scope s, TracksFrom I n (exec h n scope s) fun k j ↦ exec (H k) j scope s
  declareAll : ∀ scope ds, TracksFrom I n (declareAll h n scope ds)
    fun k j ↦ declareAll (H k) j scope ds
  loop : ∀ scope test update body, TracksFrom I n (loop h n scope test update body)
    fun k j ↦ loop (H k) j scope test update body

variable {I : Machine σ → Prop} (hI : GrowthClosed I) {h : Host σ} {H : ℕ → Host σ}
  (hH : h.Tracks I H)

include hI hH in
theorem tracks_readMember (object : Value) (property : String) :
    Run.Tracks I (readMember h object property) fun k ↦ readMember (H k) object property := by
  unfold readMember
  cases object with
  | undefined | null => exact .fail _
  | bool _ | number _ | string _ | closure _ | builtin _ | foreign _ => exact .pure _
  | array ref =>
    dsimp only
    split
    · exact (Action.IsLocal.ofHeap _).tracks hI
    · exact .pure _
  | record ref => exact (Action.IsLocal.ofHeap _).tracks hI
  | host ref =>
    intro m hm _
    exact ⟨hm, (hH.read m hm ref property).mono fun k hk ↦ by dsimp only; rw [hk]⟩

include hI hH in
theorem tracks_readIndex (object index : Value) :
    Run.Tracks I (readIndex h object index) fun k ↦ readIndex (H k) object index := by
  unfold readIndex
  split
  · exact (Action.IsLocal.ofHeap _).tracks hI
  · exact .pure _
  · exact ((Action.IsLocal.text _).tracks hI).bind fun p ↦ tracks_readMember hI hH _ p

include hI hH in
theorem tracks_writeMember (object : Value) (property : String) (v : Value) :
    Run.Tracks I (writeMember h object property v) fun k ↦ writeMember (H k) object property v := by
  unfold writeMember
  cases object with
  | record ref => exact (Action.IsLocal.setEntry _ _ _).tracks hI
  | host ref => exact hH.write ref property v
  | _ => exact ((Action.IsLocal.description _).tracks hI).bind fun _ ↦ .fail _

include hI hH in
theorem tracks_writeIndex (object index v : Value) :
    Run.Tracks I (writeIndex h object index v) fun k ↦ writeIndex (H k) object index v := by
  unfold writeIndex
  split
  · exact (Action.IsLocal.writeItem _ _ _).tracks hI
  · exact ((Action.IsLocal.text _).tracks hI).bind fun p ↦ tracks_writeMember hI hH _ p v

namespace EvaluationTracks

variable {n : ℕ}

theorem zero : EvaluationTracks I h H 0 where
  eval _ _ := .exhaust
  evalAll _ _ := .exhaust
  evalEntries _ _ _ := .exhaust
  readTarget _ _ := .exhaust
  writeTarget _ _ _ := .exhaust
  callMethod _ _ _ := .exhaust
  call _ _ := .exhaust
  callClosure _ _ := .exhaust
  execBlock _ _ := .exhaust
  execAll _ _ := .exhaust
  exec _ _ := .exhaust
  declareAll _ _ := .exhaust
  loop _ _ _ _ := .exhaust

variable (ih : EvaluationTracks I h H n)
include hI ih

include hH in
theorem eval_succ (scope : Scope) (e : Expr) :
    TracksFrom I (n + 1) (Script.eval h (n + 1) scope e)
      fun k j ↦ Script.eval (H k) j scope e := by
  refine .succ fun b hb ↦ ?_
  unfold Script.eval
  cases e with
  | number _ | string _ | bool _ | null | undefined => exact .pure _
  | «variable» name => exact (Action.IsLocal.readVariable _ _).tracks hI
  | array items =>
    exact (ih.evalAll _ _ b hb).bind fun vs ↦ (Action.IsLocal.newArray _).tracks hI
  | object entries =>
    exact (ih.evalEntries _ _ _ b hb).bind fun es ↦ (Action.IsLocal.newRecord _).tracks hI
  | function f => exact (Action.IsLocal.newClosure _).tracks hI
  | unary op operand =>
    dsimp only
    split
    · exact (Action.IsLocal.ofHeap _).tracks hI
    · exact (ih.eval _ _ b hb).bind fun v ↦ .pure _
  | binary op left right =>
    exact (ih.eval _ _ b hb).bind fun v ↦
      (tracks_pinning hI _ (ih.eval _ _ b hb)).bind fun w ↦
        (Action.IsLocal.binaryValue _ _ _).tracks hI
  | logical op left right =>
    refine (ih.eval _ _ b hb).bind fun v ↦ ?_
    split
    · exact .pure v
    · exact .pure v
    · exact tracks_pinning hI _ (ih.eval _ _ b hb)
  | conditional test consequent alternate =>
    refine (ih.eval _ _ b hb).bind fun v ↦ ?_
    split <;> exact ih.eval _ _ b hb
  | assign op target value =>
    cases op with
    | none =>
      exact (ih.eval _ _ b hb).bind fun v ↦
        (tracks_pinning hI _ (ih.writeTarget _ _ _ b hb)).bind fun _ ↦ .pure v
    | some op =>
      exact (ih.readTarget _ _ b hb).bind fun v ↦
        (tracks_pinning hI _ (ih.eval _ _ b hb)).bind fun w ↦
          ((Action.IsLocal.binaryValue _ _ _).tracks hI).bind fun r ↦
            (ih.writeTarget _ _ _ b hb).bind fun _ ↦ .pure r
  | update increment before target =>
    exact (ih.readTarget _ _ b hb).bind fun v ↦
      (ih.writeTarget _ _ _ b hb).bind fun _ ↦ .pure _
  | member object property =>
    exact (ih.eval _ _ b hb).bind fun v ↦ tracks_readMember hI hH v property
  | index object index =>
    exact (ih.eval _ _ b hb).bind fun v ↦
      (tracks_pinning hI _ (ih.eval _ _ b hb)).bind fun i ↦ tracks_readIndex hI hH v i
  | call callee arguments =>
    -- A call of a member is a method call; all other callees are treated alike.
    cases callee with
    | member object property =>
      exact (ih.eval _ _ b hb).bind fun v ↦ tracks_pinning hI _ <|
        (ih.evalAll _ _ b hb).bind fun vs ↦ ih.callMethod _ _ _ b hb
    | _ =>
      exact (ih.eval _ _ b hb).bind fun f ↦
        (tracks_pinning hI _ (ih.evalAll _ _ b hb)).bind fun vs ↦ ih.call _ _ b hb

theorem evalAll_succ (scope : Scope) (es : List Expr) :
    TracksFrom I (n + 1) (Script.evalAll h (n + 1) scope es)
      fun k j ↦ Script.evalAll (H k) j scope es := by
  refine .succ fun b hb ↦ ?_
  unfold Script.evalAll
  cases es with
  | nil => exact .pure []
  | cons e rest =>
    exact (ih.eval scope e b hb).bind fun v ↦
      (tracks_pinning hI _ (ih.evalAll scope rest b hb)).bind fun vs ↦ .pure _

theorem evalEntries_succ (scope : Scope) (done : Table Value) (es : List (String × Expr)) :
    TracksFrom I (n + 1) (Script.evalEntries h (n + 1) scope done es)
      fun k j ↦ Script.evalEntries (H k) j scope done es := by
  refine .succ fun b hb ↦ ?_
  unfold Script.evalEntries
  cases es with
  | nil => exact .pure done
  | cons entry rest =>
    exact (tracks_pinning hI _ (ih.eval scope entry.2 b hb)).bind fun v ↦
      ih.evalEntries scope _ rest b hb

include hH in
theorem readTarget_succ (scope : Scope) (t : Target) :
    TracksFrom I (n + 1) (Script.readTarget h (n + 1) scope t)
      fun k j ↦ Script.readTarget (H k) j scope t := by
  refine .succ fun b hb ↦ ?_
  unfold Script.readTarget
  cases t with
  | «variable» name => exact (Action.IsLocal.readVariable _ _).tracks hI
  | member object property =>
    exact (ih.eval _ _ b hb).bind fun v ↦ tracks_readMember hI hH v property
  | index object index =>
    exact (ih.eval _ _ b hb).bind fun v ↦
      (tracks_pinning hI _ (ih.eval _ _ b hb)).bind fun i ↦ tracks_readIndex hI hH v i

include hH in
theorem writeTarget_succ (scope : Scope) (t : Target) (v : Value) :
    TracksFrom I (n + 1) (Script.writeTarget h (n + 1) scope t v)
      fun k j ↦ Script.writeTarget (H k) j scope t v := by
  refine .succ fun b hb ↦ ?_
  unfold Script.writeTarget
  cases t with
  | «variable» name => exact (Action.IsLocal.assign _ _ _).tracks hI
  | member object property =>
    exact (ih.eval _ _ b hb).bind fun o ↦ tracks_writeMember hI hH o property v
  | index object index =>
    exact (ih.eval _ _ b hb).bind fun o ↦ tracks_pinning hI _ <|
      (ih.eval _ _ b hb).bind fun i ↦ tracks_pinning hI _ (tracks_writeIndex hI hH o i v)

include hH in
theorem callMethod_succ (receiver : Value) (method : String) (arguments : List Value) :
    TracksFrom I (n + 1) (Script.callMethod h (n + 1) receiver method arguments)
      fun k j ↦ Script.callMethod (H k) j receiver method arguments := by
  refine .succ fun b hb ↦ ?_
  unfold Script.callMethod
  dsimp only
  split
  · next x hx =>
    split at hx
    · exact (Action.IsLocal.arrayMethod hx).tracks hI
    · cases hx
  · exact (tracks_readMember hI hH receiver method).bind fun f ↦ ih.call f arguments b hb

include hH in
theorem call_succ (f : Value) (arguments : List Value) :
    TracksFrom I (n + 1) (Script.call h (n + 1) f arguments)
      fun k j ↦ Script.call (H k) j f arguments := by
  refine .succ fun b hb ↦ ?_
  unfold Script.call
  cases f with
  | closure ref => exact tracks_pinning hI _ (ih.callClosure ref arguments b hb)
  | builtin f => exact (Action.IsLocal.builtin f arguments).tracks hI
  | foreign ref => exact hH.call ref arguments
  | _ => exact ((Action.IsLocal.description _).tracks hI).bind fun _ ↦ .fail _

theorem callClosure_succ (ref : ClosureRef) (arguments : List Value) :
    TracksFrom I (n + 1) (Script.callClosure h (n + 1) ref arguments)
      fun k j ↦ Script.callClosure (H k) j ref arguments := by
  refine .succ fun b hb m hm hr ↦ ?_
  unfold Script.callClosure at hr ⊢
  dsimp only at hr ⊢
  split_ifs at hr ⊢ with hdepth
  · exact ⟨hm, .of_forall fun _ ↦ rfl⟩
  · cases hc : m.heap.closures[ref.index]? with
    | none => exact ⟨hm, .of_forall fun _ ↦ rfl⟩
    | some c =>
      rw [hc] at hr
      have hbody := tracks_nested hI (tracks_pinning hI [.scope (m.heap.openScope c.scope).1]
        (ih.execBlock (m.heap.openScope c.scope).1 c.function.body b hb))
      refine (hbody.map Completion.result) _ (hI m _ (.of_heap ?_) hm) hr
      exact .of_closures_eq (Heap.closures_bindParameters ..)

theorem execBlock_succ (scope : Scope) (body : List Stmt) :
    TracksFrom I (n + 1) (Script.execBlock h (n + 1) scope body)
      fun k j ↦ Script.execBlock (H k) j scope body := by
  refine .succ fun b hb ↦ ?_
  unfold Script.execBlock
  exact ((Action.IsLocal.hoist body scope).tracks hI).bind fun _ ↦ ih.execAll scope body b hb

omit hI in
theorem execAll_succ (scope : Scope) (body : List Stmt) :
    TracksFrom I (n + 1) (Script.execAll h (n + 1) scope body)
      fun k j ↦ Script.execAll (H k) j scope body := by
  refine .succ fun b hb ↦ ?_
  unfold Script.execAll
  cases body with
  | nil => exact .pure _
  | cons s rest =>
    refine (ih.exec scope s b hb).bind fun c ↦ ?_
    cases c with
    | normal => exact ih.execAll scope rest b hb
    | _ => exact .pure _

theorem exec_succ (scope : Scope) (s : Stmt) :
    TracksFrom I (n + 1) (Script.exec h (n + 1) scope s)
      fun k j ↦ Script.exec (H k) j scope s := by
  refine .succ fun b hb ↦ ?_
  unfold Script.exec
  cases s with
  | expression e => exact (ih.eval _ _ b hb).bind fun _ ↦ .pure _
  | declare ds => exact (ih.declareAll _ _ b hb).bind fun _ ↦ .pure _
  | function _ | breakLoop | continueLoop | empty => exact .pure _
  | returnValue e =>
    cases e with
    | none => exact .pure _
    | some e => exact (ih.eval _ _ b hb).bind fun v ↦ .pure _
  | branch test consequent alternate =>
    refine (ih.eval _ _ b hb).bind fun v ↦ ?_
    split
    · exact ih.exec _ _ b hb
    · cases alternate with
      | none => exact .pure _
      | some s => exact ih.exec _ _ b hb
  | whileLoop test body => exact ih.loop _ _ _ _ b hb
  | forLoop init test update body =>
    refine ((Action.IsLocal.openScope _).tracks hI).bind fun inner ↦ tracks_pinning hI _ ?_
    cases init with
    | none => exact ih.loop _ _ _ _ b hb
    | some s => exact (ih.exec _ _ b hb).bind fun _ ↦ ih.loop _ _ _ _ b hb
  | block body =>
    exact ((Action.IsLocal.openScope _).tracks hI).bind fun inner ↦
      tracks_pinning hI _ (ih.execBlock _ _ b hb)
  | throwValue e =>
    exact (ih.eval _ _ b hb).bind fun v ↦
      ((Action.IsLocal.text v).tracks hI).bind fun _ ↦ .fail _

theorem declareAll_succ (scope : Scope) (ds : List (String × Option Expr)) :
    TracksFrom I (n + 1) (Script.declareAll h (n + 1) scope ds)
      fun k j ↦ Script.declareAll (H k) j scope ds := by
  refine .succ fun b hb ↦ ?_
  unfold Script.declareAll
  cases ds with
  | nil => exact .pure ()
  | cons d rest =>
    obtain ⟨name, initial⟩ := d
    have hrest (v : Value) := ((Action.IsLocal.declare name v scope).tracks hI).bind
      fun _ ↦ ih.declareAll scope rest b hb
    cases initial with
    | none => exact (Run.Tracks.pure Value.undefined).bind hrest
    | some e => exact (ih.eval _ _ b hb).bind hrest

omit hI in
theorem loopRound {b : ℕ → ℕ} (hb : ∀ᶠ k in atTop, n ≤ b k) (scope : Scope)
    (test update : Option Expr) (body : Stmt) (goes : Bool) :
    Run.Tracks I (Script.loopRound h n scope test update body goes)
      fun k ↦ Script.loopRound (H k) (b k) scope test update body goes := by
  unfold Script.loopRound
  cases goes with
  | false => exact .pure _
  | true =>
    refine (ih.exec scope body b hb).bind fun c ↦ ?_
    cases c with
    | broke | returned _ => exact .pure _
    | normal | continued =>
      cases update with
      | none => exact ih.loop _ _ _ _ b hb
      | some e => exact (ih.eval _ _ b hb).bind fun _ ↦ ih.loop _ _ _ _ b hb

omit hI in
theorem loop_succ (scope : Scope) (test update : Option Expr) (body : Stmt) :
    TracksFrom I (n + 1) (Script.loop h (n + 1) scope test update body)
      fun k j ↦ Script.loop (H k) j scope test update body := by
  refine .succ fun b hb ↦ ?_
  cases test with
  | none =>
    simp only [loop_without_test]
    exact ih.loopRound hb _ _ _ _ _
  | some e =>
    simp only [loop_with_test]
    exact (ih.eval _ _ b hb).bind fun v ↦ ih.loopRound hb _ _ _ _ _

end EvaluationTracks

include hI hH in
/-- If a host is tracked by a family of hosts, then so is every evaluation with it. -/
theorem evaluationTracks (n : ℕ) : EvaluationTracks I h H n := by
  induction n with
  | zero => exact .zero
  | succ n ih =>
    exact {
      eval := ih.eval_succ hI hH
      evalAll := ih.evalAll_succ hI
      evalEntries := ih.evalEntries_succ hI
      readTarget := ih.readTarget_succ hI hH
      writeTarget := ih.writeTarget_succ hI hH
      callMethod := ih.callMethod_succ hI hH
      call := ih.call_succ hI hH
      callClosure := ih.callClosure_succ hI
      execBlock := ih.execBlock_succ hI
      execAll := ih.execAll_succ
      exec := ih.exec_succ hI
      declareAll := ih.declareAll_succ hI
      loop := ih.loop_succ }

/-! ## Entry points -/

variable {n : ℕ} {b : ℕ → ℕ} (hb : ∀ᶠ k in atTop, n ≤ b k)

include hI hH hb in
theorem tracks_callValue (f : Value) (arguments : List Value) :
    Run.Tracks I (callValue h n f arguments) fun k ↦ callValue (H k) (b k) f arguments :=
  tracks_counted hI _ ((evaluationTracks hI hH n).call f arguments b hb)

include hI hH hb in
theorem tracks_runStatements (last : Value) (body : List Stmt) :
    Run.Tracks I (runStatements h n last body)
      fun k ↦ runStatements (H k) (b k) last body := by
  have htracks := evaluationTracks hI hH n
  induction body generalizing last with
  | nil => exact .pure last
  | cons s rest ih =>
    cases s with
    | expression e =>
      exact (tracks_pinning hI [.value last] (htracks.eval [] e b hb)).bind ih
    | _ =>
      refine (tracks_pinning hI [.value last] (htracks.exec [] _ b hb)).bind fun c ↦ ?_
      cases c with
      | returned v => exact .pure v
      | _ => exact ih last

include hI hH hb in
theorem tracks_evaluate (source : String) :
    Run.Tracks I (evaluate h n source) fun k ↦ evaluate (H k) (b k) source := by
  refine tracks_counted hI _ ?_
  unfold runProgram
  split
  · exact .fail _
  · next body _ =>
    exact ((Action.IsLocal.hoist body []).tracks hI).bind fun _ ↦
      tracks_runStatements hI hH hb .undefined body

end Evaluator

end ReactiveFrames.Script
