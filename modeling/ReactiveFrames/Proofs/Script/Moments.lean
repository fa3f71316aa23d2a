import ReactiveFrames.Proofs.Script.Balance
import ReactiveFrames.Proofs.Settling

/-!
# What an evaluation enters

While a script is evaluated, an expression or statement is under way together with those that it is
a part of, and with the calls that have led to it. To speak of that, the functions of the evaluator
are tasks, and `Task.enters` lists what a task enters in the course of its run, in order, each with
the machine that it is entered with: the tasks for its parts, the accesses to the host, and the
texts of values. What follows a part that fails is not entered.

Nothing is left out: a task comes to an end if and only if everything does that it enters
(`Task.returns_iff`).

## Main definitions

* `Task`, `Task.run`: what the evaluator can be asked to do.
* `Event`, `Task.enters`: what is entered on the way.
-/

namespace ReactiveFrames.Script

open Machine (nested pinning pinningValue pinningValues)

variable {σ α β : Type}

/-! ## Tasks -/

/-- What the evaluator can be asked to do: one constructor for each of its functions. -/
inductive Task where
  | eval (scope : Scope) (e : Expr)
  | evalAll (scope : Scope) (es : List Expr)
  | evalEntries (scope : Scope) (done : Table Value) (entries : List (String × Expr))
  | readTarget (scope : Scope) (target : Target)
  | writeTarget (scope : Scope) (target : Target) (v : Value)
  | callMethod (receiver : Value) (method : String) (arguments : List Value)
  | call (f : Value) (arguments : List Value)
  | callClosure (ref : ClosureRef) (arguments : List Value)
  | execBlock (scope : Scope) (body : List Stmt)
  | execAll (scope : Scope) (body : List Stmt)
  | exec (scope : Scope) (s : Stmt)
  | declareAll (scope : Scope) (declared : List (String × Option Expr))
  | loop (scope : Scope) (test update : Option Expr) (body : Stmt)
  | statements (last : Value) (body : List Stmt)
  | program (source : String)

/-- Runs an action for what it does, without its value. -/
def Action.forget (x : Action σ α) : Action σ Unit := (fun _ ↦ ()) <$> x

/-- Runs a task. -/
def Task.run (host : Host σ) (n : Nat) : Task → Action σ Unit
  | eval scope e => (Script.eval host n scope e).forget
  | evalAll scope es => (Script.evalAll host n scope es).forget
  | evalEntries scope done entries => (Script.evalEntries host n scope done entries).forget
  | readTarget scope target => (Script.readTarget host n scope target).forget
  | writeTarget scope target v => (Script.writeTarget host n scope target v).forget
  | callMethod receiver method arguments =>
    (Script.callMethod host n receiver method arguments).forget
  | call f arguments => (Script.call host n f arguments).forget
  | callClosure ref arguments => (Script.callClosure host n ref arguments).forget
  | execBlock scope body => (Script.execBlock host n scope body).forget
  | execAll scope body => (Script.execAll host n scope body).forget
  | exec scope s => (Script.exec host n scope s).forget
  | declareAll scope declared => (Script.declareAll host n scope declared).forget
  | loop scope test update body => (Script.loop host n scope test update body).forget
  | statements last body => (runStatements host n last body).forget
  | program source => (runProgram host n source).forget

/-- What becomes of the value of an action does not matter to the machine. -/
theorem Action.state_map (f : α → β) (x : Action σ α) (m : Machine σ) :
    ((f <$> x : Action σ β) m).state = (x m).state := by
  change (Run.bind x _ m).state = _
  unfold Run.bind
  cases x m <;> rfl

theorem Action.state_forget (x : Action σ α) (m : Machine σ) :
    (x.forget m).state = (x m).state :=
  Action.state_map _ x m

theorem Action.Balances.forget {x : Action σ α} (hx : Balances x) : Balances x.forget := by
  intro m
  rw [Action.state_forget]
  exact hx m

/-- However a task ends, the counters are as they were, if they are after every access to the
host. -/
theorem Task.balances {host : Host σ} (hh : host.Balances) (n : Nat) (t : Task) :
    Action.Balances (t.run host n) := by
  have hevaluation := hh.compositional.evaluation n
  cases t with
  | eval scope e => exact (hevaluation.eval (Region.hasScope_whole scope) e).1.forget
  | evalAll scope es => exact (hevaluation.evalAll (Region.hasScope_whole scope) es).1.forget
  | evalEntries scope done entries =>
    exact (hevaluation.evalEntries (Region.hasScope_whole scope) (Region.hasTable_whole done)
      entries).1.forget
  | readTarget scope target =>
    exact (hevaluation.readTarget (Region.hasScope_whole scope) target).1.forget
  | writeTarget scope target v =>
    exact (hevaluation.writeTarget (Region.hasScope_whole scope) (Region.has_whole v)
      target).1.forget
  | callMethod receiver method arguments =>
    exact (hevaluation.callMethod (Region.has_whole receiver) (Region.hasAll_whole arguments)
      method).1.forget
  | call f arguments =>
    exact (hevaluation.call (Region.has_whole f) (Region.hasAll_whole arguments)).1.forget
  | callClosure ref arguments =>
    exact (hevaluation.callClosure trivial (Region.hasAll_whole arguments)).1.forget
  | execBlock scope body =>
    exact (hevaluation.execBlock (Region.hasScope_whole scope) body).1.forget
  | execAll scope body => exact (hevaluation.execAll (Region.hasScope_whole scope) body).1.forget
  | exec scope s => exact (hevaluation.exec (Region.hasScope_whole scope) s).1.forget
  | declareAll scope declared =>
    exact (hevaluation.declareAll (Region.hasScope_whole scope) declared).1.forget
  | loop scope test update body =>
    exact (hevaluation.loop (Region.hasScope_whole scope) test update body).1.forget
  | statements last body =>
    exact (hh.compositional.runStatements n (Region.has_whole last) body).1.forget
  | program source => exact (hh.compositional.runProgram n source).1.forget

/-- Closures whose bodies the task runs itself. -/
def Task.bodies : Task → Nat
  | callClosure .. => 1
  | _ => 0

theorem Task.bodies_le_one (t : Task) : t.bodies ≤ 1 := by
  cases t <;> simp [bodies]

/-! ## Events -/

/-- What can be entered in the course of a task, with the machine that it is entered with. -/
inductive Event (σ : Type) where
  | task (bound : Nat) (t : Task) (m : Machine σ)
  | write (ref : HostRef) (property : String) (v : Value) (m : Machine σ)
  | foreign (ref : ForeignRef) (arguments : List Value) (m : Machine σ)
  | text (v : Value) (m : Machine σ)
  | description (v : Value) (m : Machine σ)

namespace Event

/-- Machine that the event starts with. -/
def machine : Event σ → Machine σ
  | task _ _ m => m
  | write _ _ _ m => m
  | foreign _ _ m => m
  | text _ m => m
  | description _ m => m

/-- What is entered comes to an end. -/
def Returns (host : Host σ) : Event σ → Prop
  | task n t m => (t.run host n m).Returns
  | write ref property v m => (host.write ref property v m).Returns
  | foreign ref arguments m => (host.call ref arguments m).Returns
  | text v m => (Action.text v m).Returns
  | description v m => (Action.description v m).Returns

/-- What is entered after an action, if that yields a value. -/
def after (x : Action σ α) (m : Machine σ) (next : α → Machine σ → List (Event σ)) :
    List (Event σ) :=
  match x m with
  | .ok a u => next a u
  | _ => []

theorem forall_mem_after {P : Event σ → Prop} {x : Action σ α} {m : Machine σ}
    {next : α → Machine σ → List (Event σ)} (h : ∀ a u, x m = .ok a u → ∀ e ∈ next a u, P e) :
    ∀ e ∈ after x m next, P e := by
  unfold after
  split
  · exact h _ _ ‹_›
  · exact fun _ he ↦ absurd he List.not_mem_nil

/-- Nothing is entered after an action after which nothing is entered. -/
theorem after_nil (x : Action σ α) (m : Machine σ) :
    after x m (fun _ _ ↦ ([] : List (Event σ))) = [] := by
  unfold after
  cases x m <;> rfl

end Event

open Event (after)

/-- Machine with further pins. -/
def Machine.pin (pins : List Pin) (m : Machine σ) : Machine σ := { m with pins := pins ++ m.pins }

/-! ## What a task enters -/

section Enters

variable (host : Host σ) (n : Nat)

/-- Texts that a sum takes. -/
def binaryEnters (op : BinaryOp) (a b : Value) (m : Machine σ) : List (Event σ) :=
  match op with
  | .add =>
    if a.isArithmetic && b.isArithmetic then []
    else .text a m :: after (Action.text a) m fun _ u ↦ [.text b u]
  | _ => []

/-- Texts that are taken one after the other. -/
def textsEnter : List Value → Machine σ → List (Event σ)
  | [], _ => []
  | v :: vs, m => .text v m :: after (Action.text v) m fun _ u ↦ textsEnter vs u

/-- Texts that a built-in function takes. -/
def builtinEnters (f : Builtin) (arguments : List Value) (m : Machine σ) : List (Event σ) :=
  match f, arguments with
  | .log, arguments => textsEnter arguments m
  | .string, v :: _ => [.text v m]
  | _, _ => []

/-- What the value at an index enters. -/
def indexEnters (object index : Value) (m : Machine σ) : List (Event σ) :=
  match object, index with
  | .array _, .number _ => []
  | .string _, .number _ => []
  | _, index => [.text index m]

/-- What the write of a property enters. -/
def memberWriteEnters (object : Value) (property : String) (v : Value) (m : Machine σ) :
    List (Event σ) :=
  match object with
  | .record _ => []
  | .host ref => [.write ref property v m]
  | object => [.description object m]

/-- What a write at an index enters. -/
def indexWriteEnters (object index v : Value) (m : Machine σ) : List (Event σ) :=
  match object, index with
  | .array _, .number _ => []
  | object, index =>
    .text index m :: after (Action.text index) m fun p u ↦ memberWriteEnters object p v u

/-- What an expression enters. -/
def evalEnters (scope : Scope) (e : Expr) (m : Machine σ) : List (Event σ) :=
  match e with
  | .array items => [.task n (.evalAll scope items) m]
  | .object entries => [.task n (.evalEntries scope .empty entries) m]
  | .unary op operand =>
    match op, operand with
    | .typeOf, .variable _ => []
    | _, operand => [.task n (.eval scope operand) m]
  | .binary op left right =>
    .task n (.eval scope left) m :: after (eval host n scope left) m fun a u ↦
      .task n (.eval scope right) (u.pin [.value a]) ::
        after (pinningValue a (eval host n scope right)) u fun b u ↦ binaryEnters op a b u
  | .logical op left right =>
    .task n (.eval scope left) m :: after (eval host n scope left) m fun a u ↦
      match op, a.isTruthy with
      | .and, false => []
      | .or, true => []
      | _, _ => [.task n (.eval scope right) (u.pin [.value a])]
  | .conditional test consequent alternate =>
    .task n (.eval scope test) m :: after (eval host n scope test) m fun v u ↦
      if v.isTruthy then [.task n (.eval scope consequent) u]
      else [.task n (.eval scope alternate) u]
  | .assign none target value =>
    .task n (.eval scope value) m :: after (eval host n scope value) m fun v u ↦
      [.task n (.writeTarget scope target v) (u.pin [.value v])]
  | .assign (some op) target value =>
    .task n (.readTarget scope target) m :: after (readTarget host n scope target) m fun a u ↦
      .task n (.eval scope value) (u.pin [.value a]) ::
        after (pinningValue a (eval host n scope value)) u fun b u ↦
          binaryEnters op a b u ++ after (binaryValue op a b) u fun v u ↦
            [.task n (.writeTarget scope target v) u]
  | .update increment _ target =>
    .task n (.readTarget scope target) m :: after (readTarget host n scope target) m fun v u ↦
      [.task n (.writeTarget scope target
        (.number (if increment then v.toNumber + 1.0 else v.toNumber - 1.0))) u]
  | .member object _ => [.task n (.eval scope object) m]
  | .index object index =>
    .task n (.eval scope object) m :: after (eval host n scope object) m fun o u ↦
      .task n (.eval scope index) (u.pin [.value o]) ::
        after (pinningValue o (eval host n scope index)) u fun i u ↦ indexEnters o i u
  | .call (.member object property) arguments =>
    .task n (.eval scope object) m :: after (eval host n scope object) m fun o u ↦
      .task n (.evalAll scope arguments) (u.pin [.value o]) ::
        after (evalAll host n scope arguments) (u.pin [.value o]) fun vs u ↦
          [.task n (.callMethod o property vs) u]
  | .call callee arguments =>
    .task n (.eval scope callee) m :: after (eval host n scope callee) m fun f u ↦
      .task n (.evalAll scope arguments) (u.pin [.value f]) ::
        after (pinningValue f (evalAll host n scope arguments)) u fun vs u ↦
          [.task n (.call f vs) u]
  | _ => []

/-- What the write of a target enters. -/
def writeTargetEnters (scope : Scope) (target : Target) (v : Value) (m : Machine σ) :
    List (Event σ) :=
  match target with
  | .variable _ => []
  | .member object property =>
    .task n (.eval scope object) m :: after (eval host n scope object) m fun o u ↦
      memberWriteEnters o property v u
  | .index object index =>
    .task n (.eval scope object) m :: after (eval host n scope object) m fun o u ↦
      .task n (.eval scope index) (u.pin [.value o]) ::
        after (eval host n scope index) (u.pin [.value o]) fun i u ↦
          indexWriteEnters o i v (u.pin [.value i])

/-- What a statement enters. -/
def execEnters (scope : Scope) (s : Stmt) (m : Machine σ) : List (Event σ) :=
  match s with
  | .expression e => [.task n (.eval scope e) m]
  | .declare declared => [.task n (.declareAll scope declared) m]
  | .returnValue (some e) => [.task n (.eval scope e) m]
  | .branch test consequent alternate =>
    .task n (.eval scope test) m :: after (eval host n scope test) m fun v u ↦
      if v.isTruthy then [.task n (.exec scope consequent) u]
      else match alternate with
        | some s => [.task n (.exec scope s) u]
        | none => []
  | .whileLoop test body => [.task n (.loop scope (some test) none body) m]
  | .forLoop init test update body =>
    after (Action.allocate fun h ↦ h.openScope scope) m fun inner u ↦
      match init with
      | some s =>
        .task n (.exec inner s) (u.pin [.scope inner]) ::
          after (exec host n inner s) (u.pin [.scope inner]) fun _ u ↦
            [.task n (.loop inner test update body) u]
      | none => [.task n (.loop inner test update body) (u.pin [.scope inner])]
  | .block body =>
    after (Action.allocate fun h ↦ h.openScope scope) m fun inner u ↦
      [.task n (.execBlock inner body) (u.pin [.scope inner])]
  | .throwValue e =>
    .task n (.eval scope e) m :: after (eval host n scope e) m fun v u ↦ [.text v u]
  | _ => []

/-- What is entered after the test of a loop. -/
def roundEnters (scope : Scope) (test update : Option Expr) (body : Stmt) (goes : Bool)
    (m : Machine σ) : List (Event σ) :=
  if goes then
    .task n (.exec scope body) m :: after (exec host n scope body) m fun c u ↦
      match c with
      | .broke => []
      | .returned _ => []
      | _ =>
        match update with
        | some e =>
          .task n (.eval scope e) u :: after (eval host n scope e) u fun _ u ↦
            [.task n (.loop scope test update body) u]
        | none => [.task n (.loop scope test update body) u]
  else []

/-- What a statement of a program enters, and the ones behind it. -/
def statementsEnter (last : Value) (body : List Stmt) (m : Machine σ) : List (Event σ) :=
  match body with
  | [] => []
  | .expression e :: rest =>
    .task n (.eval [] e) (m.pin [.value last]) ::
      after (pinningValue last (eval host n [] e)) m fun v u ↦ [.task n (.statements v rest) u]
  | s :: rest =>
    .task n (.exec [] s) (m.pin [.value last]) ::
      after (pinningValue last (exec host n [] s)) m fun c u ↦
        match c with
        | .returned _ => []
        | _ => [.task n (.statements last rest) u]

/-- What a call of a closure enters: its body, which counts as under way from then on, unless as
many closures are being called as may be. -/
def callClosureEnters (ref : ClosureRef) (arguments : List Value) (m : Machine σ) :
    List (Event σ) :=
  if m.maxDepth ≤ m.depth then []
  else
    match m.heap.closures[ref.index]? with
    | none => []
    | some c =>
      let (scope, h) := m.heap.openScope c.scope
      let h := bindParameters scope c.function.parameters arguments h
      [.task n (.execBlock scope c.function.body)
        ({ m with heap := h, depth := m.depth + 1 }.pin [.scope scope])]

/-- What a program enters. -/
def programEnters (source : String) (m : Machine σ) : List (Event σ) :=
  match parse source with
  | .error _ => []
  | .ok body => after (hoist body []) m fun _ u ↦ [.task n (.statements .undefined body) u]

/-- What a task enters, in order. -/
def Task.enters (host : Host σ) : Nat → Task → Machine σ → List (Event σ)
  | n, program source, m => programEnters n source m
  | n, statements last body, m => statementsEnter host n last body m
  | 0, _, _ => []
  | n + 1, eval scope e, m => evalEnters host n scope e m
  | n + 1, evalAll scope es, m =>
    match es with
    | [] => []
    | e :: rest =>
      .task n (.eval scope e) m :: after (Script.eval host n scope e) m fun v u ↦
        [.task n (.evalAll scope rest) (u.pin [.value v])]
  | n + 1, evalEntries scope done entries, m =>
    match entries with
    | [] => []
    | (name, e) :: rest =>
      .task n (.eval scope e) (m.pin (done.values.map .value)) ::
        after (pinningValues done.values (Script.eval host n scope e)) m fun v u ↦
          [.task n (.evalEntries scope (done.insert name v) rest) u]
  | n + 1, readTarget scope target, m =>
    match target with
    | .variable _ => []
    | .member object _ => [.task n (.eval scope object) m]
    | .index object index => evalEnters host n scope (.index object index) m
  | n + 1, writeTarget scope target v, m => writeTargetEnters host n scope target v m
  | n + 1, callMethod receiver method arguments, m =>
    let own : Option (Action σ Value) := match receiver with
      | .array ref => arrayMethod? method ref arguments
      | _ => none
    match own with
    | some _ => []
    | none => after (readMember host receiver method) m fun f u ↦ [.task n (.call f arguments) u]
  | n + 1, call f arguments, m =>
    match f with
    | .closure ref =>
      [.task n (.callClosure ref arguments) (m.pin ((f :: arguments).map .value))]
    | .builtin f => builtinEnters f arguments m
    | .foreign ref => [.foreign ref arguments m]
    | f => [.description f m]
  | n + 1, callClosure ref arguments, m => callClosureEnters n ref arguments m
  | n + 1, execBlock scope body, m =>
    after (hoist body scope) m fun _ u ↦ [.task n (.execAll scope body) u]
  | n + 1, execAll scope body, m =>
    match body with
    | [] => []
    | s :: rest =>
      .task n (.exec scope s) m :: after (Script.exec host n scope s) m fun c u ↦
        match c with
        | .normal => [.task n (.execAll scope rest) u]
        | _ => []
  | n + 1, exec scope s, m => execEnters host n scope s m
  | n + 1, declareAll scope declared, m =>
    match declared with
    | [] => []
    | (name, some e) :: rest =>
      .task n (.eval scope e) m :: after (Script.eval host n scope e) m fun v u ↦
        [.task n (.declareAll scope rest) (u.mapHeap fun h ↦ h.declare name v scope)]
    | (name, none) :: rest =>
      [.task n (.declareAll scope rest) (m.mapHeap fun h ↦ h.declare name .undefined scope)]
  | n + 1, loop scope test update body, m =>
    match test with
    | some e =>
      .task n (.eval scope e) m :: after (Script.eval host n scope e) m fun v u ↦
        roundEnters host n scope test update body v.isTruthy u
    | none => roundEnters host n scope test update body true m

end Enters

/-! ## Nothing is left out -/

/-- What the events are to an action that is run on a machine: the action comes to an end if
and only if all of them do, and they are entered while as many closures are being called as
before it. -/
structure Action.Enters (host : Host σ) (x : Action σ α) (m : Machine σ) (events : List (Event σ)) :
    Prop where
  returns_iff : (x m).Returns ↔ ∀ e ∈ events, e.Returns host
  level : host.Balances → ∀ e ∈ events, m.SameDepth e.machine
  balanced : host.Balances → m.SameDepth (x m).state

namespace Action.Enters

variable {host : Host σ} {x : Action σ α} {m : Machine σ} {events : List (Event σ)}

/-- An action that yields a value, and enters nothing. -/
theorem of_ok {a : α} {u : Machine σ} (h : x m = .ok a u) (hu : m.SameDepth u) :
    Enters host x m [] where
  returns_iff := by
    rw [h]
    exact iff_of_true trivial fun _ he ↦ absurd he List.not_mem_nil
  level _ _ he := absurd he List.not_mem_nil
  balanced _ := by rwa [h]

/-- An action that fails, and enters nothing. -/
theorem of_error {e : ScriptError} (h : x m = .error e m) : Enters host x m [] where
  returns_iff := by
    rw [h]
    exact iff_of_true trivial fun _ he ↦ absurd he List.not_mem_nil
  level _ _ he := absurd he List.not_mem_nil
  balanced _ := by
    rw [h]
    exact .refl m

theorem single {e : Event σ} (h : (x m).Returns ↔ e.Returns host) (he : e.machine = m)
    (hx : host.Balances → m.SameDepth (x m).state) : Enters host x m [e] where
  returns_iff := by
    rw [List.forall_mem_singleton]
    exact h
  level _ := by
    rw [List.forall_mem_singleton, he]
    exact .refl m
  balanced := hx

/-- A task enters itself. -/
theorem task {n : Nat} (t : Task) (h : x.forget = t.run host n) :
    Enters host x m [.task n t m] := by
  have hrun : t.run host n m = x.forget m := by rw [h]
  refine single ?_ rfl fun hh ↦ ?_
  · change _ ↔ (t.run host n m).Returns
    rw [hrun]
    exact (Run.returns_map _ _ _).symm
  · have hbalanced := (t.balances hh n m).toSameDepth
    rwa [hrun, Action.state_forget] at hbalanced

protected theorem pure (a : α) : Enters host (Pure.pure a : Action σ α) m [] :=
  of_ok rfl (.refl m)

protected theorem fail (e : ScriptError) : Enters host (Run.fail e : Action σ α) m [] :=
  of_error rfl

protected theorem bind {f : α → Action σ β} {next : α → Machine σ → List (Event σ)}
    (hx : Enters host x m events) (hf : ∀ a u, Enters host (f a) u (next a u)) :
    Enters host (x >>= f) m (events ++ after x m next) where
  returns_iff := by
    rw [List.forall_mem_append, ← hx.returns_iff]
    change (Run.bind x f m).Returns ↔ _
    unfold Run.bind after
    cases h : x m with
    | ok a u => exact (hf a u).returns_iff.trans (iff_of_eq (true_and _).symm)
    | error e u => exact iff_of_true trivial ⟨trivial, fun _ he ↦ absurd he List.not_mem_nil⟩
    | exhausted u => exact iff_of_false id fun h ↦ h.1
  level hh := by
    refine List.forall_mem_append.2 ⟨hx.level hh, Event.forall_mem_after fun a u h e he ↦ ?_⟩
    have hu := hx.balanced hh
    rw [h] at hu
    exact hu.trans ((hf a u).level hh e he)
  balanced hh := Run.state_bind_of (P := m.SameDepth) (hx.balanced hh) fun a u _ hu ↦
    hu.trans ((hf a u).balanced hh)

/-- What follows an action and enters nothing does not matter. -/
theorem bind_nil {f : α → Action σ β} (hx : Enters host x m events)
    (hf : ∀ a u, Enters host (f a) u []) : Enters host (x >>= f) m events := by
  have hbind : Enters host (x >>= f) m (events ++ after x m fun _ _ ↦ []) := hx.bind hf
  rwa [Event.after_nil, List.append_nil] at hbind

/-- What comes after an action that yields a value and enters nothing. -/
theorem step {f : α → Action σ β} {a : α} {u : Machine σ} (h : x m = .ok a u) (hu : m.SameDepth u)
    (hf : Enters host (f a) u events) : Enters host (x >>= f) m events := by
  have hrun : (x >>= f) m = f a u := by
    change Run.bind x f m = _
    unfold Run.bind
    rw [h]
  exact {
    returns_iff := by
      rw [hrun]
      exact hf.returns_iff
    level := fun hh e he ↦ hu.trans (hf.level hh e he)
    balanced := fun hh ↦ by
      rw [hrun]
      exact hu.trans (hf.balanced hh) }

theorem pinning {pins : List Pin} (hx : Enters host x (m.pin pins) events) :
    Enters host (pinning pins x) m events where
  returns_iff := by
    rw [Machine.pinning, Outcome.returns_mapState]
    exact hx.returns_iff
  level hh e he := by
    obtain ⟨hdepth, hmax⟩ := hx.level hh e he
    exact ⟨hdepth, hmax⟩
  balanced hh := by
    rw [Machine.state_pinning]
    obtain ⟨hdepth, hmax⟩ := hx.balanced hh
    exact ⟨hdepth, hmax⟩

theorem forget (hx : Enters host x m events) : Enters host x.forget m events :=
  hx.bind_nil fun _ _ ↦ .pure _

theorem ofOption (f : Machine σ → Option String) {e : Event σ} (he : e.machine = m)
    (h : (Run.ofOption (f m) m : Outcome _ ScriptError String).Returns ↔ e.Returns host) :
    Enters host (fun m ↦ Run.ofOption (f m) m : Action σ String) m [e] := by
  refine single h he fun _ ↦ ?_
  cases f m <;> exact .refl m

theorem text (v : Value) : Enters host (Action.text v) m [.text v m] :=
  ofOption (fun m ↦ m.heap.text? v) rfl Iff.rfl

theorem description (v : Value) : Enters host (Action.description v) m [.description v m] :=
  ofOption (fun m ↦ m.heap.description? v) rfl Iff.rfl

theorem ofHeap (f : Heap → α) : Enters host (Action.ofHeap f) m [] := of_ok rfl (.refl m)

theorem onHeap (f : Heap → Heap) : Enters host (Action.onHeap f) m [] := of_ok rfl ⟨rfl, rfl⟩

theorem allocate (f : Heap → α × Heap) : Enters host (Action.allocate f) m [] :=
  of_ok rfl ⟨rfl, rfl⟩

/-! ### The primitive actions of the evaluator -/

theorem readVariable (name : String) (scope : Scope) :
    Enters host (Script.readVariable name scope) m [] := by
  cases h : m.heap.lookup name scope with
  | some v => exact of_ok (a := v) (by simp only [Script.readVariable, h]) (.refl m)
  | none =>
    exact of_error (e := .undefinedVariable name) (by simp only [Script.readVariable, h])

theorem readMember (object : Value) (property : String) :
    Enters host (Script.readMember host object property) m [] := by
  unfold Script.readMember
  cases object with
  | undefined | null => exact .fail _
  | bool _ | number _ | string _ | closure _ | builtin _ | foreign _ => exact .pure _
  | array ref =>
    dsimp only
    split
    · exact .ofHeap _
    · exact .pure _
  | record ref => exact .ofHeap _
  | host ref => exact of_ok rfl (.refl m)

theorem readIndex (object index : Value) :
    Enters host (Script.readIndex host object index) m (indexEnters object index m) := by
  have hother : Enters host (do Script.readMember host object (← Action.text index)) m
      [.text index m] :=
    (text index).bind_nil fun property u ↦ readMember object property
  cases object with
  | array ref =>
    cases index with
    | number x => exact of_ok rfl (.refl m)
    | _ => exact hother
  | string s =>
    cases index with
    | number x => exact .pure _
    | _ => exact hother
  | _ => exact hother

theorem writeItem (ref : ArrayRef) (x : Float) (v : Value) :
    Enters host (Script.writeItem ref x v) m [] := by
  unfold Script.writeItem
  cases hx : Decimal.toNat? x with
  | none => exact of_error rfl
  | some n =>
    by_cases hn : n < (m.heap.items ref).size + maxGrowth
    · exact of_ok (if_pos hn) ⟨rfl, rfl⟩
    · exact of_error (if_neg hn)

theorem writeMember (object : Value) (property : String) (v : Value) :
    Enters host (Script.writeMember host object property v) m
      (memberWriteEnters object property v m) := by
  unfold Script.writeMember memberWriteEnters
  cases object with
  | record ref => exact .onHeap _
  | host ref => exact single Iff.rfl rfl fun hh ↦ (hh.write ref property v m).toSameDepth
  | _ => exact (description _).bind_nil fun _ _ ↦ .fail _

theorem writeIndex (object index v : Value) :
    Enters host (Script.writeIndex host object index v) m (indexWriteEnters object index v m) := by
  have htext : Enters host (Action.text index) m [.text index m] := text index
  have hother := htext.bind fun property u ↦ writeMember (m := u) object property v
  cases object with
  | array ref =>
    cases index with
    | number x => exact writeItem ref x v
    | _ => exact hother
  | _ => exact hother

theorem binaryValue (op : BinaryOp) (a b : Value) :
    Enters host (Script.binaryValue op a b) m (binaryEnters op a b m) := by
  unfold Script.binaryValue binaryEnters
  cases op with
  | add =>
    dsimp only
    split
    · exact .pure _
    · exact (text a).bind fun s u ↦ (text b).bind_nil fun _ _ ↦ .pure _
  | _ => exact .pure _

theorem texts (vs : List Value) : Enters host (vs.mapM Action.text) m (textsEnter vs m) := by
  induction vs generalizing m with
  | nil => exact .pure _
  | cons v vs ih =>
    rw [List.mapM_cons]
    exact (text v).bind fun s u ↦ ih.bind_nil fun _ _ ↦ .pure _

theorem builtin (f : Builtin) (arguments : List Value) :
    Enters host (f.apply arguments) m (builtinEnters f arguments m) := by
  cases f with
  | log => exact (texts arguments).bind_nil fun _ u ↦ step rfl ⟨rfl, rfl⟩ (.pure _)
  | string =>
    cases arguments with
    | nil => exact .pure _
    | cons v _ => exact (text v).bind_nil fun _ _ ↦ .pure _
  | number => cases arguments <;> exact .pure _
  | abs | floor | ceil | round | sqrt | min | max | pow => exact .pure _

theorem arrayMethod {method : String} {ref : ArrayRef} {arguments : List Value}
    {x : Action σ Value} (h : arrayMethod? method ref arguments = some x) : Enters host x m [] := by
  unfold arrayMethod? at h
  split at h
  · cases h
    exact .allocate _
  · cases h
    exact .allocate _
  · cases h

/-! ### The evaluator -/

section Evaluator

variable (n : Nat) (scope : Scope)

theorem eval (e : Expr) :
    Enters host (Script.eval host (n + 1) scope e) m (evalEnters host n scope e m) := by
  have heval (m : Machine σ) (e : Expr) :
      Enters host (Script.eval host n scope e) m [.task n (.eval scope e) m] :=
    task _ rfl
  have hevalAll (m : Machine σ) (es : List Expr) :
      Enters host (Script.evalAll host n scope es) m [.task n (.evalAll scope es) m] :=
    task _ rfl
  unfold Script.eval evalEnters
  cases e with
  | number _ | string _ | bool _ | null | undefined => exact .pure _
  | «variable» name => exact readVariable name scope
  | array items => exact (hevalAll m items).bind_nil fun _ _ ↦ .allocate _
  | object entries =>
    exact bind_nil (task (.evalEntries scope .empty entries) rfl) fun _ _ ↦ .allocate _
  | function f => exact .allocate _
  | unary op operand =>
    have hother := (heval m operand).bind_nil (f := fun v ↦ Pure.pure (unaryValue op v))
      fun _ _ ↦ .pure _
    cases op with
    | typeOf =>
      cases operand with
      | «variable» name => exact .ofHeap _
      | _ => exact hother
    | _ => exact hother
  | binary op left right =>
    exact (heval m left).bind fun a u ↦ (heval _ right).pinning.bind fun b u ↦ binaryValue op a b
  | logical op left right =>
    refine (heval m left).bind fun a u ↦ ?_
    have hright := (heval (u.pin [.value a]) right).pinning
    cases op <;> cases a.isTruthy
    · exact .pure a
    · exact hright
    · exact hright
    · exact .pure a
  | conditional test consequent alternate =>
    refine (heval m test).bind fun v u ↦ ?_
    split
    · exact heval u consequent
    · exact heval u alternate
  | assign op target value =>
    cases op with
    | none =>
      refine (heval m value).bind fun v u ↦ bind_nil (pinning ?_) fun _ _ ↦ .pure _
      exact task _ rfl
    | some op =>
      refine Enters.bind (task _ rfl) fun a u ↦ ?_
      refine (heval _ value).pinning.bind fun b u ↦ (binaryValue op a b).bind fun v u ↦ ?_
      exact bind_nil (task _ rfl) fun _ _ ↦ .pure _
  | update increment before target =>
    refine Enters.bind (task _ rfl) fun v u ↦ ?_
    exact bind_nil (task _ rfl) fun _ _ ↦ .pure _
  | member object property =>
    exact (heval m object).bind_nil fun v u ↦ readMember v property
  | index object index =>
    exact (heval m object).bind fun o u ↦ (heval _ index).pinning.bind fun i u ↦ readIndex o i
  | call callee arguments =>
    cases callee with
    | member object property =>
      refine (heval m object).bind fun o u ↦ pinning ?_
      exact (hevalAll _ arguments).bind fun vs u ↦ task _ rfl
    | _ =>
      refine (heval m _).bind fun f u ↦ (hevalAll _ arguments).pinning.bind fun vs u ↦ ?_
      exact task _ rfl

theorem evalAll (es : List Expr) :
    Enters host (Script.evalAll host (n + 1) scope es) m
      (Task.enters host (n + 1) (.evalAll scope es) m) := by
  unfold Script.evalAll
  cases es with
  | nil => exact .pure _
  | cons e rest =>
    refine Enters.bind (task _ rfl) fun v u ↦ ?_
    exact (pinning (task _ rfl)).bind_nil fun _ _ ↦ .pure _

theorem evalEntries (done : Table Value) (entries : List (String × Expr)) :
    Enters host (Script.evalEntries host (n + 1) scope done entries) m
      (Task.enters host (n + 1) (.evalEntries scope done entries) m) := by
  unfold Script.evalEntries
  cases entries with
  | nil => exact .pure _
  | cons entry rest =>
    refine (pinning (task _ rfl)).bind fun v u ↦ ?_
    exact task _ rfl

theorem readTarget (target : Target) :
    Enters host (Script.readTarget host (n + 1) scope target) m
      (Task.enters host (n + 1) (.readTarget scope target) m) := by
  unfold Script.readTarget
  cases target with
  | «variable» name => exact readVariable name scope
  | member object property =>
    exact bind_nil (task _ rfl) fun v u ↦
      readMember v property
  | index object index =>
    refine Enters.bind (task _ rfl) fun o u ↦ ?_
    exact (pinning (task _ rfl)).bind fun i u ↦ readIndex o i

theorem writeTarget (target : Target) (v : Value) :
    Enters host (Script.writeTarget host (n + 1) scope target v) m
      (writeTargetEnters host n scope target v m) := by
  unfold Script.writeTarget writeTargetEnters
  cases target with
  | «variable» name => exact .onHeap _
  | member object property =>
    exact Enters.bind (task _ rfl) fun o u ↦ writeMember o property v
  | index object index =>
    refine Enters.bind (task _ rfl) fun o u ↦ pinning ?_
    exact Enters.bind (task _ rfl) fun i u ↦ pinning (writeIndex o i v)

theorem callMethod (receiver : Value) (method : String) (arguments : List Value) :
    Enters host (Script.callMethod host (n + 1) receiver method arguments) m
      (Task.enters host (n + 1) (.callMethod receiver method arguments) m) := by
  have hcall : Enters host (do
        let f ← Script.readMember host receiver method
        Script.call host n f arguments) m
      (after (Script.readMember host receiver method) m fun f u ↦
        [.task n (.call f arguments) u]) :=
    (readMember receiver method).bind fun f u ↦ task _ rfl
  unfold Script.callMethod
  cases receiver with
  | array ref =>
    dsimp only [Task.enters]
    cases hown : arrayMethod? method ref arguments with
    | some x => exact arrayMethod hown
    | none => exact hcall
  | _ => exact hcall

theorem call (f : Value) (arguments : List Value) :
    Enters host (Script.call host (n + 1) f arguments) m
      (Task.enters host (n + 1) (.call f arguments) m) := by
  unfold Script.call
  cases f with
  | closure ref => exact pinning (task _ rfl)
  | builtin f => exact builtin f arguments
  | foreign ref => exact single Iff.rfl rfl fun hh ↦ (hh.call ref arguments m).toSameDepth
  | _ => exact (description _).bind_nil fun _ _ ↦ .fail _

theorem execBlock (body : List Stmt) :
    Enters host (Script.execBlock host (n + 1) scope body) m
      (Task.enters host (n + 1) (.execBlock scope body) m) := by
  unfold Script.execBlock
  exact step rfl ⟨rfl, rfl⟩ (task _ rfl)

theorem execAll (body : List Stmt) :
    Enters host (Script.execAll host (n + 1) scope body) m
      (Task.enters host (n + 1) (.execAll scope body) m) := by
  unfold Script.execAll
  cases body with
  | nil => exact .pure _
  | cons s rest =>
    refine Enters.bind (task _ rfl) fun c u ↦ ?_
    cases c with
    | normal => exact task _ rfl
    | _ => exact .pure _

theorem exec (s : Stmt) :
    Enters host (Script.exec host (n + 1) scope s) m (execEnters host n scope s m) := by
  have heval (m : Machine σ) (e : Expr) :
      Enters host (Script.eval host n scope e) m [.task n (.eval scope e) m] :=
    task _ rfl
  unfold Script.exec execEnters
  cases s with
  | expression e => exact (heval m e).bind_nil fun _ _ ↦ .pure _
  | declare declared => exact bind_nil (task _ rfl) fun _ _ ↦ .pure _
  | function _ | breakLoop | continueLoop | empty => exact .pure _
  | returnValue e =>
    cases e with
    | none => exact .pure _
    | some e => exact (heval m e).bind_nil fun _ _ ↦ .pure _
  | branch test consequent alternate =>
    refine (heval m test).bind fun v u ↦ ?_
    split
    · exact task _ rfl
    · cases alternate with
      | none => exact .pure _
      | some s => exact task _ rfl
  | whileLoop test body => exact task _ rfl
  | forLoop init test update body =>
    refine step rfl ⟨rfl, rfl⟩ (pinning ?_)
    cases init with
    | none => exact task _ rfl
    | some s =>
      refine Enters.bind (task _ rfl) fun _ u ↦ ?_
      exact task _ rfl
  | block body => exact step rfl ⟨rfl, rfl⟩ (pinning (task _ rfl))
  | throwValue e =>
    exact (heval m e).bind fun v u ↦ (text v).bind_nil fun _ _ ↦ .fail _

theorem declareAll (declared : List (String × Option Expr)) :
    Enters host (Script.declareAll host (n + 1) scope declared) m
      (Task.enters host (n + 1) (.declareAll scope declared) m) := by
  unfold Script.declareAll
  cases declared with
  | nil => exact .pure _
  | cons d rest =>
    obtain ⟨name, initial⟩ := d
    cases initial with
    | none => exact step rfl ⟨rfl, rfl⟩ (step rfl ⟨rfl, rfl⟩ (task _ rfl))
    | some e =>
      refine Enters.bind (task _ rfl) fun v u ↦ ?_
      exact step rfl ⟨rfl, rfl⟩ (task _ rfl)

theorem loop (test update : Option Expr) (body : Stmt) :
    Enters host (Script.loop host (n + 1) scope test update body) m
      (Task.enters host (n + 1) (.loop scope test update body) m) := by
  have heval (m : Machine σ) (e : Expr) :
      Enters host (Script.eval host n scope e) m [.task n (.eval scope e) m] :=
    task _ rfl
  have hloop (m : Machine σ) : Enters host (Script.loop host n scope test update body) m
      [.task n (.loop scope test update body) m] :=
    task _ rfl
  have hround (goes : Bool) (m : Machine σ) :
      Enters host (Script.loopRound host n scope test update body goes) m
        (roundEnters host n scope test update body goes m) := by
    unfold Script.loopRound
    cases goes with
    | false => exact .pure _
    | true =>
      refine Enters.bind (task _ rfl) fun c u ↦ ?_
      cases c with
      | broke | returned _ => exact .pure _
      | normal | continued =>
        cases update with
        | none => exact hloop u
        | some e => exact (heval u e).bind fun _ u ↦ hloop u
  cases test with
  | none =>
    rw [loop_without_test]
    exact hround true m
  | some e =>
    rw [loop_with_test]
    exact (heval m e).bind fun v u ↦ hround v.isTruthy u

theorem runStatements (last : Value) (body : List Stmt) :
    Enters host (Script.runStatements host n last body) m (statementsEnter host n last body m) := by
  cases body with
  | nil => exact .pure _
  | cons s rest =>
    cases s with
    | expression e =>
      refine (pinning (task _ rfl)).bind fun v u ↦ ?_
      exact task _ rfl
    | _ =>
      refine (pinning (task _ rfl)).bind fun c u ↦ ?_
      cases c with
      | returned v => exact .pure _
      | _ => exact task _ rfl

theorem runProgram (source : String) :
    Enters host (Script.runProgram host n source) m (programEnters n source m) := by
  unfold Script.runProgram programEnters
  cases parse source with
  | error e => exact .fail _
  | ok body => exact step rfl ⟨rfl, rfl⟩ (task _ rfl)

end Evaluator

end Action.Enters

/-- The body of a closure is entered with one more closure being called, as far as that is
possible. -/
theorem callClosure_returns_iff (host : Host σ) (n : Nat) (ref : ClosureRef)
    (arguments : List Value) (m : Machine σ) :
    (callClosure host (n + 1) ref arguments m).Returns ↔
      ∀ e ∈ callClosureEnters n ref arguments m, e.Returns host := by
  unfold callClosure callClosureEnters
  by_cases hdepth : m.maxDepth ≤ m.depth
  · simp only [if_pos hdepth]
    exact iff_of_true trivial fun _ he ↦ absurd he List.not_mem_nil
  · simp only [if_neg hdepth]
    cases hc : m.heap.closures[ref.index]? with
    | none => exact iff_of_true trivial fun _ he ↦ absurd he List.not_mem_nil
    | some c =>
      rw [List.forall_mem_singleton, Run.returns_map]
      exact (Outcome.returns_mapState _ _).trans <| (Outcome.returns_mapState _ _).trans
        (Run.returns_map _ _ _).symm

/-- What a task enters, unless it is the call of a closure. -/
theorem Task.enters_of_bodies_eq_zero (host : Host σ) (n : Nat) {t : Task} (ht : t.bodies = 0)
    (m : Machine σ) : Action.Enters host (t.run host (n + 1)) m (t.enters host (n + 1) m) := by
  cases t with
  | eval scope e => exact (Action.Enters.eval n scope e).forget
  | evalAll scope es => exact (Action.Enters.evalAll n scope es).forget
  | evalEntries scope done entries => exact (Action.Enters.evalEntries n scope done entries).forget
  | readTarget scope target => exact (Action.Enters.readTarget n scope target).forget
  | writeTarget scope target v => exact (Action.Enters.writeTarget n scope target v).forget
  | callMethod receiver method arguments =>
    exact (Action.Enters.callMethod n receiver method arguments).forget
  | call f arguments => exact (Action.Enters.call n f arguments).forget
  | callClosure ref arguments => cases ht
  | execBlock scope body => exact (Action.Enters.execBlock n scope body).forget
  | execAll scope body => exact (Action.Enters.execAll n scope body).forget
  | exec scope s => exact (Action.Enters.exec n scope s).forget
  | declareAll scope declared => exact (Action.Enters.declareAll n scope declared).forget
  | loop scope test update body => exact (Action.Enters.loop n scope test update body).forget
  | statements last body => exact (Action.Enters.runStatements (n + 1) last body).forget
  | program source => exact (Action.Enters.runProgram (n + 1) source).forget

/-- A task without steps enters only what a program does. -/
theorem Task.enters_zero (host : Host σ) {t : Task} {m : Machine σ} {e : Event σ}
    (he : e ∈ t.enters host 0 m) : Action.Enters host (t.run host 0) m (t.enters host 0 m) := by
  cases t with
  | statements last body => exact (Action.Enters.runStatements 0 last body).forget
  | program source => exact (Action.Enters.runProgram 0 source).forget
  | _ => exact absurd he List.not_mem_nil

/-- What a task enters is entered with as many closures being called as before, and one more if it
is the body of a closure. Then there were fewer of them than may be. -/
theorem Task.depth_of_mem_enters {host : Host σ} (hh : host.Balances) {n : Nat} {t : Task}
    {m : Machine σ} {e : Event σ} (he : e ∈ t.enters host n m) :
    e.machine.depth = m.depth + t.bodies ∧ e.machine.maxDepth = m.maxDepth ∧
      (0 < t.bodies → m.depth < m.maxDepth) := by
  -- The tasks that are not bodies are alike; the body of a closure is entered below the limit only.
  by_cases ht : t.bodies = 0
  · have hsame : m.SameDepth e.machine := by
      cases n with
      | zero => exact (Task.enters_zero host he).level hh e he
      | succ n => exact (Task.enters_of_bodies_eq_zero host n ht m).level hh e he
    rw [ht]
    exact ⟨hsame.depth, hsame.maxDepth, fun h ↦ absurd h (Nat.lt_irrefl 0)⟩
  · cases t with
    | callClosure ref arguments =>
      cases n with
      | zero => exact absurd he List.not_mem_nil
      | succ n =>
        have hmem : e ∈ callClosureEnters n ref arguments m := he
        unfold callClosureEnters at hmem
        by_cases hdepth : m.maxDepth ≤ m.depth
        · rw [if_pos hdepth] at hmem
          exact absurd hmem List.not_mem_nil
        · rw [if_neg hdepth] at hmem
          cases hc : m.heap.closures[ref.index]? with
          | none =>
            rw [hc] at hmem
            exact absurd hmem List.not_mem_nil
          | some c =>
            rw [hc] at hmem
            rw [List.mem_singleton.1 hmem]
            exact ⟨rfl, rfl, fun _ ↦ Nat.lt_of_not_le hdepth⟩
    | _ => exact absurd rfl ht

/-- As many closures are being called as may be: the call of another one is refused, and nothing of
it is run. -/
theorem callClosure_of_maxDepth_le (host : Host σ) (n : Nat) (ref : ClosureRef)
    (arguments : List Value) {m : Machine σ} (h : m.maxDepth ≤ m.depth) :
    callClosure host (n + 1) ref arguments m = .error .callDepth m ∧
      (Task.callClosure ref arguments).enters host (n + 1) m = [] := by
  constructor
  · unfold callClosure
    exact if_pos h
  · exact if_pos h

/-- A task comes to an end if and only if everything does that it enters: every part of an
evaluation is among what it enters. -/
theorem Task.returns_iff (host : Host σ) (n : Nat) (t : Task) (m : Machine σ) :
    (t.run host (n + 1) m).Returns ↔ ∀ e ∈ t.enters host (n + 1) m, e.Returns host := by
  cases t with
  | callClosure ref arguments =>
    exact (Run.returns_map _ _ _).trans (callClosure_returns_iff host n ref arguments m)
  | _ => exact (Task.enters_of_bodies_eq_zero host n rfl m).returns_iff

end ReactiveFrames.Script
