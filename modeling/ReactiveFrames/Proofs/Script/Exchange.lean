import ReactiveFrames.Proofs.Script.Moments
import ReactiveFrames.Proofs.Script.Tracking

/-!
# Tasks under an exchanged host

One host agrees with another one if it answers alike wherever an access to that one returns. A task
that comes to its end with the one then comes to the same end with the other, and what it enters on
the way is the same too (`Task.enters_eq_of_returns`).

This tells that a task makes no write. If it comes to its end with a host that gives up on writes,
then so does everything that it enters with the host that it is run with
(`Task.returns_withoutWrites`). No write is among that, nor among what is entered from there.

## Main definitions

* `Host.Agrees`: one host answers as another one does, wherever that returns.
* `Host.withoutWrites`: a host that gives up on writes.
* `Expr.isPlain`, `Stmt.isPlain`: a syntactic reason for not even noticing the host.
-/

namespace ReactiveFrames.Script

open Machine (pinning pinningValue pinningValues)

variable {σ α : Type} {h H : Host σ}

/-! ## Hosts -/

/-- Wherever an access to the first host returns, the second one answers alike. -/
structure Host.Agrees (h H : Host σ) : Prop where
  read : H.read = h.read
  write : ∀ ref property v m, (h.write ref property v m).Returns →
    H.write ref property v m = h.write ref property v m
  call : ∀ ref arguments m, (h.call ref arguments m).Returns →
    H.call ref arguments m = h.call ref arguments m

/-- The host, except that it gives up on writes. -/
def Host.withoutWrites (h : Host σ) : Host σ where
  read := h.read
  write _ _ _ := Run.exhaust
  call := h.call

/-- A host agrees with the one that gives up on its writes. -/
theorem Host.agrees_withoutWrites (h : Host σ) : h.withoutWrites.Agrees h where
  read := rfl
  write _ _ _ m hr := absurd hr (Outcome.not_returns_exhausted m)
  call _ _ _ _ := rfl

/-- The actions agree wherever the first one returns. -/
abbrev Action.Agrees (x y : Action σ α) : Prop := Run.Tracks (fun _ ↦ True) x fun _ ↦ y

theorem Host.Agrees.tracks (hH : h.Agrees H) : h.Tracks (fun _ ↦ True) fun _ ↦ H where
  read _ _ ref property := .of_forall fun _ ↦ by rw [hH.read]
  write ref property v m _ hr := ⟨trivial, .of_forall fun _ ↦ hH.write ref property v m hr⟩
  call ref arguments m _ hr := ⟨trivial, .of_forall fun _ ↦ hH.call ref arguments m hr⟩

theorem readMember_of_agrees (hH : h.Agrees H) (object : Value) (property : String) :
    readMember H object property = readMember h object property := by
  cases object with
  | host ref =>
    unfold readMember
    rw [hH.read]
  | _ => rfl

/-! ## Lists of events -/

namespace Event

/-- The second list is the first one, if all events of that come to an end with the host. -/
def Alike (h : Host σ) (events events' : List (Event σ)) : Prop :=
  (∀ e ∈ events, e.Returns h) → events' = events

namespace Alike

variable {m m' : Machine σ} {x y : Action σ α} {next next' : α → Machine σ → List (Event σ)}

protected theorem refl (events : List (Event σ)) : Alike h events events := fun _ ↦ rfl

/-- What follows an action that needs no host. -/
theorem after (hnext : ∀ a u, Alike h (next a u) (next' a u)) :
    Alike h (after x m next) (Event.after x m next') := by
  unfold Event.after
  cases x m with
  | ok a u => exact hnext a u
  | error => exact .refl _
  | exhausted => exact .refl _

theorem append (events : List (Event σ)) {rest rest' : List (Event σ)}
    (hrest : Alike h rest rest') : Alike h (events ++ rest) (events ++ rest') := fun hall ↦
  congrArg _ (hrest fun e he ↦ hall e (List.mem_append_right _ he))

/-- An event and what follows it. If it comes to its end, then the actions have the same outcome. -/
theorem cons {e : Event σ} (he : e.Returns h → (x m).Returns) (hxy : x.Agrees y)
    (hnext : ∀ a u, Alike h (next a u) (next' a u)) :
    Alike h (e :: Event.after x m next) (e :: Event.after y m next') := by
  intro hall
  obtain ⟨hreturns, hrest⟩ := List.forall_mem_cons.1 hall
  have hsame : y m = x m := (hxy.eq_of_returns trivial (he hreturns)).2
  have hafter : Event.after y m next' = Event.after x m next' := by
    unfold Event.after
    rw [hsame]
  rw [hafter, after hnext hrest]

/-- A task and what follows it. -/
theorem task {n : Nat} {t : Task} (ht : t.run h n = x.forget) (hxy : x.Agrees y)
    (hnext : ∀ a u, Alike h (next a u) (next' a u)) :
    Alike h (.task n t m :: Event.after x m next) (.task n t m :: Event.after y m next') := by
  refine cons (fun hr ↦ ?_) hxy hnext
  change (t.run h n m).Returns at hr
  rw [ht] at hr
  exact (Run.returns_map _ _ _).1 hr

/-- A task that is run with further values pinned, and what follows it. -/
theorem pinned {n : Nat} {t : Task} {pins : List Pin} (ht : t.run h n = x.forget)
    (hxy : x.Agrees y) (hnext : ∀ a u, Alike h (next a u) (next' a u)) :
    Alike h (.task n t (m.pin pins) :: Event.after (pinning pins x) m next)
      (.task n t (m.pin pins) :: Event.after (pinning pins y) m next') := by
  refine cons (fun hr ↦ ?_) (tracks_pinning (fun _ _ _ _ ↦ trivial) pins hxy) hnext
  change (t.run h n (m.pin pins)).Returns at hr
  rw [ht] at hr
  exact (Outcome.returns_mapState _ _).2 ((Run.returns_map _ _ _).1 hr)

end Alike

end Event

/-! ## What tasks enter -/

section Enters

open Event (Alike)

/-- Every function of the evaluator with the bound `n` agrees with itself under the second host. -/
abbrev EvaluationAgrees (h H : Host σ) (n : Nat) : Prop :=
  EvaluationTracks (fun _ ↦ True) h (fun _ ↦ H) n

variable {n : Nat} (hE : EvaluationAgrees h H n) {m : Machine σ}

include hE

theorem agrees_eval (scope : Scope) (e : Expr) :
    (eval h n scope e).Agrees (eval H n scope e) :=
  hE.eval scope e (fun _ ↦ n) (.of_forall fun _ ↦ le_rfl)

theorem agrees_evalAll (scope : Scope) (es : List Expr) :
    (evalAll h n scope es).Agrees (evalAll H n scope es) :=
  hE.evalAll scope es (fun _ ↦ n) (.of_forall fun _ ↦ le_rfl)

theorem agrees_readTarget (scope : Scope) (t : Target) :
    (readTarget h n scope t).Agrees (readTarget H n scope t) :=
  hE.readTarget scope t (fun _ ↦ n) (.of_forall fun _ ↦ le_rfl)

theorem agrees_exec (scope : Scope) (s : Stmt) :
    (exec h n scope s).Agrees (exec H n scope s) :=
  hE.exec scope s (fun _ ↦ n) (.of_forall fun _ ↦ le_rfl)

theorem alike_evalEnters (scope : Scope) (e : Expr) :
    Alike h (evalEnters h n scope e m) (evalEnters H n scope e m) := by
  have heval := agrees_eval hE scope
  have hevalAll := agrees_evalAll hE scope
  cases e with
  | binary op left right =>
    exact .task rfl (heval left) fun a u ↦ .pinned rfl (heval right) fun b u ↦ .refl _
  | logical op left right => exact .task rfl (heval left) fun a u ↦ .refl _
  | conditional test consequent alternate => exact .task rfl (heval test) fun v u ↦ .refl _
  | assign op target value =>
    cases op with
    | none => exact .task rfl (heval value) fun v u ↦ .refl _
    | some op =>
      refine .task rfl (agrees_readTarget hE scope target) fun a u ↦ ?_
      exact .pinned rfl (heval value) fun b u ↦ .append _ (.after fun v u ↦ .refl _)
  | update increment before target =>
    exact .task rfl (agrees_readTarget hE scope target) fun v u ↦ .refl _
  | index object index =>
    exact .task rfl (heval object) fun o u ↦ .pinned rfl (heval index) fun i u ↦ .refl _
  | call callee arguments =>
    cases callee with
    | member object property =>
      exact .task rfl (heval object) fun o u ↦ .task rfl (hevalAll arguments) fun vs u ↦ .refl _
    | _ =>
      exact .task rfl (heval _) fun f u ↦ .pinned rfl (hevalAll arguments) fun vs u ↦ .refl _
  | _ => exact .refl _

theorem alike_writeTargetEnters (scope : Scope) (target : Target) (v : Value) :
    Alike h (writeTargetEnters h n scope target v m) (writeTargetEnters H n scope target v m) := by
  have heval := agrees_eval hE scope
  cases target with
  | «variable» => exact .refl _
  | member object property => exact .task rfl (heval object) fun o u ↦ .refl _
  | index object index =>
    exact .task rfl (heval object) fun o u ↦ .task rfl (heval index) fun i u ↦ .refl _

theorem alike_execEnters (scope : Scope) (s : Stmt) :
    Alike h (execEnters h n scope s m) (execEnters H n scope s m) := by
  have heval := agrees_eval hE scope
  unfold execEnters
  cases s with
  | returnValue value => cases value <;> exact .refl _
  | branch test consequent alternate => exact .task rfl (heval test) fun v u ↦ .refl _
  | forLoop init test update body =>
    refine .after fun inner u ↦ ?_
    cases init with
    | none => exact .refl _
    | some s => exact .task rfl (agrees_exec hE inner s) fun c u ↦ .refl _
  | throwValue e => exact .task rfl (heval e) fun v u ↦ .refl _
  | _ => exact .refl _

theorem alike_roundEnters (scope : Scope) (test update : Option Expr) (body : Stmt) (goes : Bool) :
    Alike h (roundEnters h n scope test update body goes m)
      (roundEnters H n scope test update body goes m) := by
  unfold roundEnters
  cases goes with
  | false => exact .refl _
  | true =>
    refine .task rfl (agrees_exec hE scope body) fun c u ↦ ?_
    cases c with
    | broke | returned => exact .refl _
    | normal | continued =>
      cases update with
      | none => exact .refl _
      | some e => exact .task rfl (agrees_eval hE scope e) fun _ u ↦ .refl _

theorem alike_statementsEnter (last : Value) (body : List Stmt) :
    Alike h (statementsEnter h n last body m) (statementsEnter H n last body m) := by
  cases body with
  | nil => exact .refl _
  | cons s rest =>
    cases s with
    | expression e => exact .pinned rfl (agrees_eval hE [] e) fun v u ↦ .refl _
    | _ => exact .pinned rfl (agrees_exec hE [] _) fun c u ↦ .refl _

end Enters

/-- What a task enters is the same with both hosts, if it comes to its end with the first one. -/
theorem Task.alike_enters (hH : h.Agrees H) (n : Nat) (t : Task) (m : Machine σ) :
    Event.Alike h (t.enters h n m) (t.enters H n m) := by
  have hE (n : Nat) : EvaluationAgrees h H n := evaluationTracks (fun _ _ _ _ ↦ trivial) hH.tracks n
  cases n with
  | zero =>
    -- Only the statements of a program are entered without a step.
    cases t with
    | statements last body => exact alike_statementsEnter (hE 0) last body
    | _ => exact .refl _
  | succ n =>
    have heval := agrees_eval (hE n)
    cases t with
    | program source => exact .refl _
    | statements last body => exact alike_statementsEnter (hE (n + 1)) last body
    | eval scope e => exact alike_evalEnters (hE n) scope e
    | evalAll scope es =>
      cases es with
      | nil => exact .refl _
      | cons e rest => exact .task rfl (heval scope e) fun v u ↦ .refl _
    | evalEntries scope done entries =>
      cases entries with
      | nil => exact .refl _
      | cons entry rest => exact .pinned rfl (heval scope entry.2) fun v u ↦ .refl _
    | readTarget scope target =>
      cases target with
      | index object index => exact alike_evalEnters (hE n) scope (.index object index)
      | _ => exact .refl _
    | writeTarget scope target v => exact alike_writeTargetEnters (hE n) scope target v
    | callMethod receiver method arguments =>
      simp only [Task.enters, readMember_of_agrees hH]
      exact .refl _
    | call f arguments => exact .refl _
    | callClosure ref arguments => exact .refl _
    | execBlock scope body => exact .refl _
    | execAll scope body =>
      cases body with
      | nil => exact .refl _
      | cons s rest => exact .task rfl (agrees_exec (hE n) scope s) fun c u ↦ .refl _
    | exec scope s => exact alike_execEnters (hE n) scope s
    | declareAll scope declared =>
      cases declared with
      | nil => exact .refl _
      | cons d rest =>
        obtain ⟨name, initial⟩ := d
        cases initial with
        | none => exact .refl _
        | some e => exact .task rfl (heval scope e) fun v u ↦ .refl _
    | loop scope test update body =>
      cases test with
      | none => exact alike_roundEnters (hE n) scope none update body true
      | some e =>
        refine .task rfl (heval scope e) fun v u ↦ ?_
        exact alike_roundEnters (hE n) scope (some e) update body v.isTruthy

/-- What a task enters that comes to its end comes to its end as well. -/
theorem Task.returns_of_mem_enters {host : Host σ} {n : Nat} {t : Task} {m : Machine σ}
    {e : Event σ} (hr : (t.run host n m).Returns) (he : e ∈ t.enters host n m) :
    e.Returns host := by
  cases n with
  | zero => exact (Task.enters_zero host he).returns_iff.1 hr e he
  | succ n => exact (Task.returns_iff host n t m).1 hr e he

/-- A task that comes to its end with one host enters the same with a host that agrees. -/
theorem Task.enters_eq_of_returns (hH : h.Agrees H) {n : Nat} {t : Task} {m : Machine σ}
    (hr : (t.run h n m).Returns) : t.enters H n m = t.enters h n m :=
  Task.alike_enters hH n t m fun _ he ↦ Task.returns_of_mem_enters hr he

/-! ## Tasks that make no write -/

/-- A task that comes to its end with a host that gives up on writes enters only what does so
too. -/
theorem Task.returns_withoutWrites {host : Host σ} {n : Nat} {t : Task} {m : Machine σ}
    {e : Event σ} (hr : (t.run host.withoutWrites n m).Returns) (he : e ∈ t.enters host n m) :
    e.Returns host.withoutWrites := by
  rw [Task.enters_eq_of_returns host.agrees_withoutWrites hr] at he
  exact Task.returns_of_mem_enters hr he

/-- A task that comes to its end with a host that gives up on writes makes none. -/
theorem Task.write_notMem_enters {host : Host σ} {n : Nat} {t : Task} {m u : Machine σ}
    {ref : HostRef} {property : String} {v : Value}
    (hr : (t.run host.withoutWrites n m).Returns) :
    .write ref property v u ∉ t.enters host n m := fun he ↦
  Task.returns_withoutWrites hr he

/-- The call of a value from outside a script comes to its end as the task does. -/
theorem Task.returns_call_iff {host : Host σ} {n : Nat} {f : Value} {arguments : List Value}
    {m : Machine σ} :
    ((Task.call f arguments).run host n m).Returns ↔ (callValue host n f arguments m).Returns := by
  refine (Run.returns_map _ _ _).trans ?_
  unfold callValue counted
  cases Script.call host n f arguments m <;> exact Iff.rfl

/-! ## Bodies that need no host -/

/-- An expression of literals, variables and operators. It needs no host. -/
def Expr.isPlain : Expr → Bool
  | number _ | string _ | bool _ | null | undefined | «variable» _ => true
  | unary _ operand => operand.isPlain
  | binary _ left right => left.isPlain && right.isPlain
  | logical _ left right => left.isPlain && right.isPlain
  | conditional test consequent alternate =>
    test.isPlain && consequent.isPlain && alternate.isPlain
  | _ => false

/-- A statement that yields, throws or drops the values of plain expressions. -/
def Stmt.isPlain : Stmt → Bool
  | expression e => e.isPlain
  | returnValue value => value.all Expr.isPlain
  | branch test consequent none => test.isPlain && consequent.isPlain
  | branch test consequent (some s) => test.isPlain && consequent.isPlain && s.isPlain
  | throwValue e => e.isPlain
  | empty => true
  | _ => false

/-- The value is a closure with a plain body. -/
def Value.isPlainClosure (h : Heap) : Value → Bool
  | .closure ref => (h.closures[ref.index]?).any fun c ↦ c.function.body.all Stmt.isPlain
  | _ => false

theorem Value.exists_of_isPlainClosure {h : Heap} {f : Value} (hf : f.isPlainClosure h = true) :
    ∃ ref c, f = .closure ref ∧ h.closures[ref.index]? = some c ∧
      c.function.body.all Stmt.isPlain = true := by
  cases f with
  | closure ref =>
    obtain ⟨hc, hbody⟩ := (Option.any_eq_true_iff_get _ _).1 hf
    exact ⟨ref, _, rfl, (Option.some_get hc).symm, hbody⟩
  | _ => cases hf

theorem eval_of_isPlain {e : Expr} (he : e.isPlain = true) (n : Nat) (scope : Scope) :
    eval H n scope e = eval h n scope e := by
  induction n generalizing e with
  | zero =>
    unfold eval
    rfl
  | succ n ih =>
    unfold eval
    cases e with
    | unary op operand =>
      have hoperand : eval H n scope operand = eval h n scope operand := ih he
      cases op <;> cases operand <;> simp only [hoperand]
    | binary op left right =>
      obtain ⟨hleft, hright⟩ := Bool.and_eq_true_iff.1 he
      simp only [ih hleft, ih hright]
    | logical op left right =>
      obtain ⟨hleft, hright⟩ := Bool.and_eq_true_iff.1 he
      simp only [ih hleft, ih hright]
    | conditional test consequent alternate =>
      obtain ⟨hboth, halternate⟩ := Bool.and_eq_true_iff.1 he
      obtain ⟨htest, hconsequent⟩ := Bool.and_eq_true_iff.1 hboth
      simp only [ih htest, ih hconsequent, ih halternate]
    | number | string | bool | null | undefined | «variable» => rfl
    | _ => cases he

theorem exec_of_isPlain {s : Stmt} (hs : s.isPlain = true) (n : Nat) (scope : Scope) :
    exec H n scope s = exec h n scope s := by
  induction n generalizing s with
  | zero =>
    unfold exec
    rfl
  | succ n ih =>
    have heval {e : Expr} (he : e.isPlain = true) : eval H n scope e = eval h n scope e :=
      eval_of_isPlain he n scope
    unfold exec
    cases s with
    | expression e => simp only [heval hs]
    | returnValue value =>
      cases value with
      | none => rfl
      | some e => simp only [heval (e := e) hs]
    | branch test consequent alternate =>
      cases alternate with
      | none =>
        obtain ⟨htest, hconsequent⟩ := Bool.and_eq_true_iff.1 hs
        simp only [heval htest, ih hconsequent]
      | some s =>
        obtain ⟨hboth, halternate⟩ := Bool.and_eq_true_iff.1 hs
        obtain ⟨htest, hconsequent⟩ := Bool.and_eq_true_iff.1 hboth
        simp only [heval htest, ih hconsequent, ih halternate]
    | throwValue e => simp only [heval hs]
    | empty => rfl
    | _ => cases hs

theorem execAll_of_isPlain {body : List Stmt} (hbody : body.all Stmt.isPlain = true) (n : Nat)
    (scope : Scope) : execAll H n scope body = execAll h n scope body := by
  induction n generalizing body with
  | zero =>
    unfold execAll
    rfl
  | succ n ih =>
    unfold execAll
    cases body with
    | nil => rfl
    | cons s rest =>
      obtain ⟨hs, hrest⟩ := Bool.and_eq_true_iff.1 hbody
      simp only [exec_of_isPlain (h := h) hs n scope, ih hrest]

theorem callValue_of_isPlain {m : Machine σ} {ref : ClosureRef} {c : Closure}
    (hc : m.heap.closures[ref.index]? = some c) (hbody : c.function.body.all Stmt.isPlain = true)
    (n : Nat) (arguments : List Value) :
    callValue H n (.closure ref) arguments m = callValue h n (.closure ref) arguments m := by
  have hexec (n : Nat) (scope : Scope) :
      execBlock H n scope c.function.body = execBlock h n scope c.function.body := by
    cases n with
    | zero => unfold execBlock; rfl
    | succ n => unfold execBlock; rw [execAll_of_isPlain (h := h) hbody n scope]
  have hclosure (n : Nat) (pins : List Pin) : callClosure H n ref arguments (m.pin pins)
      = callClosure h n ref arguments (m.pin pins) := by
    cases n with
    | zero => unfold callClosure; rfl
    | succ n =>
      unfold callClosure
      have hc : (m.pin pins).heap.closures[ref.index]? = some c := hc
      simp only [hc, hexec]
  have hcall : call H n (.closure ref) arguments m = call h n (.closure ref) arguments m := by
    cases n with
    | zero => unfold call; rfl
    | succ n =>
      unfold call
      exact congrArg (Outcome.mapState fun u ↦ { u with pins := m.pins }) (hclosure n _)
  unfold callValue counted
  rw [hcall]

end ReactiveFrames.Script
