import ReactiveFrames.Proofs.Script.Moments
import ReactiveFrames.Proofs.Script.Rebinding

/-!
# Scopes during an evaluation

Blocks, loops with a variable of their own and calls of closures open a scope and declare names in
that scope only. All other code declares names in the scope that it runs in, and expressions declare
none. So for every task there is a set of places, `Task.opens`, in which it may give names; what
else becomes of variables is the business of assignments.

That is one pass over the evaluator, for a kind of sites that all code on the machine has. It goes
along with a second one: all that a task enters is sound again, which is to say that its scopes are
rooted, that its code has the kind of sites, and that the functions of its statement lists are there
by the time that the statements are executed.

## Main definitions

* `Task.Sound`: what a task is given suits the heap.
* `Task.opens`: places in which a task may give names.
* `Action.Respects`: an action and what it enters rebind variables as given.

## Main statements

* `Task.respects`: every task does.
-/

namespace ReactiveFrames.Script

open Event (after)
open Machine (nested pinning pinningValue pinningValues)

variable {σ α β : Type}

/-! ## Tasks -/

namespace Task

/-- Sites of the code that a task is given. The code of closures is in the heap. -/
def sites : Task → List Site
  | eval _ e => e.sites
  | evalAll _ es => Expr.sitesOfAll es
  | evalEntries _ _ entries => Expr.sitesOfEntries entries
  | readTarget _ target => target.sites
  | writeTarget _ target _ => target.sites
  | callMethod .. | call .. | callClosure .. => []
  | execBlock _ body | execAll _ body => Stmt.sitesOfAll body
  | exec _ s => s.sites
  | declareAll _ declared => Stmt.sitesOfDeclared declared
  | loop _ test update body =>
    Expr.sitesOfOption test ++ Expr.sitesOfOption update ++ body.declaration .bare ++ body.sites
  | statements _ body => Stmt.sitesOfAll body
  | program source =>
    match parse source with
    | .ok body => Stmt.sitesOfAll body
    | .error _ => []

/-- Scopes that a task runs in. -/
def scope : Task → Scope
  | eval scope _ | evalAll scope _ | evalEntries scope _ _ | readTarget scope _
  | writeTarget scope _ _ | execBlock scope _ | execAll scope _ | exec scope _
  | declareAll scope _ | loop scope _ _ _ => scope
  | _ => []

/-- Places of existing variables in which a task may give names. A statement that opens a scope of
its own gives names there only. -/
def opens : Task → Set Place
  | exec _ (.block _) | exec _ (.forLoop ..) => ∅
  | execBlock scope _ | execAll scope _ | exec scope _ | declareAll scope _ | loop scope _ _ _ =>
    {scope.place}
  | statements .. | program _ => {none}
  | _ => ∅

/-- The functions of a list that is being executed have been hoisted; a function that is executed by
itself is one of those, or a bare one. -/
def Hoisted (P : Site → Prop) (h : Heap) : Task → Prop
  | execAll scope body => ∀ f, Stmt.function f ∈ body → h.Hoisted P scope f
  | statements _ body => ∀ f, Stmt.function f ∈ body → h.Hoisted P [] f
  | exec scope (.function f) => P (.bare f) ∨ h.Hoisted P scope f
  | _ => True

/-- What the task is given suits the heap: its scopes are rooted, its code has the kind of sites,
and its functions have been hoisted. -/
structure Sound (P : Site → Prop) (h : Heap) (t : Task) : Prop where
  rooted : h.Rooted t.scope
  sites : ∀ s ∈ t.sites, P s
  hoisted : t.Hoisted P h

/-- A task that is given no code, such as a call. The code of closures is in the heap. -/
theorem Sound.of_sites_eq_nil {P : Site → Prop} {h : Heap} {t : Task} (hscope : t.scope = [])
    (hsites : t.sites = []) (hhoisted : t.Hoisted P h) : t.Sound P h := by
  refine ⟨?_, ?_, hhoisted⟩
  · rw [hscope]
    exact h.rooted_nil
  · rw [hsites]
    exact fun _ hs ↦ absurd hs List.not_mem_nil

/-- The task is one of those that evaluation is made of, and not a program. -/
def isPart : Task → Bool
  | statements .. | program _ => false
  | _ => true

theorem opens_exec (scope : Scope) (s : Stmt) : (exec scope s).opens ⊆ {scope.place} := by
  cases s with
  | block | forLoop => exact Set.empty_subset _
  | _ => exact subset_rfl

/-- A statement that is executed by itself is sound, if it is no function. -/
theorem hoisted_exec {P : Site → Prop} {h : Heap} {scope : Scope} {s : Stmt}
    (hs : ∀ f, s = .function f → P (.bare f) ∨ h.Hoisted P scope f) :
    (exec scope s).Hoisted P h := by
  cases s with
  | function f => exact hs f rfl
  | _ => trivial

end Task

/-- What is entered suits the heap that it is entered with. -/
def Event.Sound (P : Site → Prop) : Event σ → Prop
  | task _ t m => t.Sound P m.heap
  | _ => True

/-- Accesses to the host may assign variables, and declare names in new scopes. -/
structure Host.Respects (P : Site → Prop) (host : Host σ) : Prop where
  write : ∀ ref property v (m : Machine σ), m.heap.Sound P →
    m.heap.Rebinds P ∅ (host.write ref property v m).state.heap
  call : ∀ ref arguments (m : Machine σ), m.heap.Sound P →
    m.heap.Rebinds P ∅ (host.call ref arguments m).state.heap

/-- Pins do not matter to the heap. -/
theorem Machine.heap_state_pinning (pins : List Pin) (x : Action σ α) (m : Machine σ) :
    (Machine.pinning pins x m).state.heap = (x (m.pin pins)).state.heap := by
  rw [Machine.state_pinning]
  rfl

/-- That a computation counts as a call does not matter to the heap. -/
theorem Machine.heap_state_nested (x : Action σ α) (m : Machine σ) :
    (Machine.nested x m).state.heap = (x { m with depth := m.depth + 1 }).state.heap := by
  rw [Machine.state_nested]

/-! ## Actions -/

/-- On a machine, the action rebinds variables as given, and so does what comes before anything that
it enters, which is sound. -/
structure Action.Respects (P : Site → Prop) (S : Set Place) (x : Action σ α) (m : Machine σ)
    (events : List (Event σ)) : Prop where
  state : m.heap.Rebinds P S (x m).state.heap
  events : ∀ e ∈ events, m.heap.Rebinds P S e.machine.heap ∧ e.Sound P

namespace Action.Respects

variable {P : Site → Prop} {S S' : Set Place} {x : Action σ α} {m u : Machine σ}
  {events : List (Event σ)}

/-- An action that enters nothing. -/
theorem of_rebinds (h : m.heap.Rebinds P S (x m).state.heap) : Respects P S x m [] :=
  ⟨h, fun _ he ↦ absurd he List.not_mem_nil⟩

/-- An action that does nothing to the heap, and enters nothing. -/
theorem of_heap_eq (hm : m.heap.Sound P) (h : (x m).state.heap = m.heap) : Respects P S x m [] := by
  refine of_rebinds ?_
  rw [h]
  exact .refl hm

/-- An access to the host, or a text. -/
theorem single {e : Event σ} (h : m.heap.Rebinds P S (x m).state.heap) (he : e.machine = m)
    (hsound : e.Sound P) (hm : m.heap.Sound P) : Respects P S x m [e] := by
  refine ⟨h, ?_⟩
  rw [List.forall_mem_singleton, he]
  exact ⟨.refl hm, hsound⟩

theorem mono (h : Respects P S x m events) (hS : S ⊆ S') : Respects P S' x m events :=
  ⟨h.state.mono hS, fun e he ↦ ⟨(h.events e he).1.mono hS, (h.events e he).2⟩⟩

/-- What is done after variables were rebound. In scopes that were opened meanwhile it may give
names. -/
theorem after_rebinds {y : Action σ β} (hu : m.heap.Rebinds P S u.heap)
    (hx : Respects P S' x u events) (hS : ∀ p ∈ S', p ∈ S ∨ m.heap.Fresh p)
    (hrun : (y m).state.heap = (x u).state.heap) : Respects P S y m events := by
  refine ⟨?_, fun e he ↦ ⟨hu.trans (hx.events e he).1 hS, (hx.events e he).2⟩⟩
  rw [hrun]
  exact hu.trans hx.state hS

protected theorem pure (hm : m.heap.Sound P) (a : α) :
    Respects P S (Pure.pure a : Action σ α) m [] :=
  of_heap_eq hm rfl

protected theorem fail (hm : m.heap.Sound P) (e : ScriptError) :
    Respects P S (Run.fail e : Action σ α) m [] :=
  of_heap_eq hm rfl

protected theorem bind {f : α → Action σ β} {next : α → Machine σ → List (Event σ)}
    (hx : Respects P S x m events)
    (hf : ∀ a u, m.heap.Rebinds P S u.heap → Respects P S (f a) u (next a u)) :
    Respects P S (x >>= f) m (events ++ after x m next) := by
  refine ⟨?_, List.forall_mem_append.2 ⟨hx.events, Event.forall_mem_after fun a u h e he ↦ ?_⟩⟩
  · exact Run.state_bind_of (P := fun u ↦ m.heap.Rebinds P S u.heap) hx.state fun a u _ hu ↦
      hu.trans (hf a u hu).state fun _ hp ↦ .inl hp
  · have hu := hx.state
    rw [h] at hu
    obtain ⟨hrebinds, hsound⟩ := (hf a u hu).events e he
    exact ⟨hu.trans hrebinds fun _ hp ↦ .inl hp, hsound⟩

/-- What follows an action and enters nothing. -/
theorem bind_nil {f : α → Action σ β} (hx : Respects P S x m events)
    (hf : ∀ a u, m.heap.Rebinds P S u.heap → Respects P S (f a) u []) :
    Respects P S (x >>= f) m events := by
  have hbind : Respects P S (x >>= f) m (events ++ after x m fun _ _ ↦ []) := hx.bind hf
  rwa [Event.after_nil, List.append_nil] at hbind

theorem pinning {pins : List Pin} (hx : Respects P S x (m.pin pins) events) :
    Respects P S (pinning pins x) m events := by
  refine ⟨?_, hx.events⟩
  rw [Machine.heap_state_pinning]
  exact hx.state

theorem forget (hx : Respects P S x m events) : Respects P S x.forget m events :=
  hx.bind_nil fun _ _ hu ↦ .pure hu.sound _

theorem onHeap {f : Heap → Heap} (h : m.heap.Rebinds P S (f m.heap)) :
    Respects P S (Action.onHeap f) m [] :=
  of_rebinds h

theorem allocate {f : Heap → α × Heap} (h : m.heap.Rebinds P S (f m.heap).2) :
    Respects P S (Action.allocate f) m [] :=
  of_rebinds h

theorem ofOption (hm : m.heap.Sound P) (f : Machine σ → Option String) {e : Event σ}
    (he : e.machine = m) (hsound : e.Sound P) :
    Respects P S (fun m ↦ Run.ofOption (f m) m : Action σ String) m [e] := by
  refine single ?_ he hsound hm
  cases f m <;> exact .refl hm

theorem text (hm : m.heap.Sound P) (v : Value) : Respects P S (Action.text v) m [.text v m] :=
  ofOption hm (fun m ↦ m.heap.text? v) rfl trivial

theorem description (hm : m.heap.Sound P) (v : Value) :
    Respects P S (Action.description v) m [.description v m] :=
  ofOption hm (fun m ↦ m.heap.description? v) rfl trivial

/-! ### The primitive actions of the evaluator -/

section Primitive

variable (hm : m.heap.Sound P)
include hm

theorem readVariable (name : String) (scope : Scope) :
    Respects P S (Script.readVariable name scope) m [] := by
  refine of_heap_eq hm ?_
  unfold Script.readVariable
  cases m.heap.lookup name scope <;> rfl

theorem readMember (host : Host σ) (object : Value) (property : String) :
    Respects P S (Script.readMember host object property) m [] := by
  refine of_heap_eq hm ?_
  unfold Script.readMember
  cases object with
  | array ref =>
    dsimp only
    split <;> rfl
  | _ => rfl

theorem readIndex (host : Host σ) (object index : Value) :
    Respects P S (Script.readIndex host object index) m (indexEnters object index m) := by
  have hother : Respects P S (do Script.readMember host object (← Action.text index)) m
      [.text index m] :=
    (text hm index).bind_nil fun property _ hu ↦ readMember hu.sound host object property
  cases object with
  | array ref =>
    cases index with
    | number x => exact of_heap_eq hm rfl
    | _ => exact hother
  | string s =>
    cases index with
    | number x => exact .pure hm _
    | _ => exact hother
  | _ => exact hother

theorem writeItem (ref : ArrayRef) (x : Float) (v : Value) :
    Respects P S (Script.writeItem ref x v) m [] := by
  refine of_rebinds ?_
  unfold Script.writeItem
  cases Decimal.toNat? x with
  | none => exact .refl hm
  | some n =>
    dsimp only
    split
    · exact Heap.rebinds_of_sameVariables hm ⟨rfl, rfl, rfl⟩
    · exact .refl hm

theorem binaryValue (op : BinaryOp) (a b : Value) :
    Respects P S (Script.binaryValue op a b) m (binaryEnters op a b m) := by
  unfold Script.binaryValue binaryEnters
  cases op with
  | add =>
    dsimp only
    split
    · exact .pure hm _
    · exact (text hm a).bind fun s _ hu ↦ (text hu.sound b).bind_nil fun _ _ hv ↦ .pure hv.sound _
  | _ => exact .pure hm _

omit hm in
theorem texts (hm : m.heap.Sound P) (vs : List Value) :
    Respects P S (vs.mapM Action.text) m (textsEnter vs m) := by
  induction vs generalizing m with
  | nil => exact .pure hm _
  | cons v vs ih =>
    rw [List.mapM_cons]
    exact (text hm v).bind fun s _ hu ↦ (ih hu.sound).bind_nil fun _ _ hv ↦ .pure hv.sound _

theorem builtin (f : Builtin) (arguments : List Value) :
    Respects P S (f.apply arguments) m (builtinEnters f arguments m) := by
  cases f with
  | log =>
    refine (texts hm arguments).bind_nil fun _ u hu ↦ ?_
    exact (of_heap_eq hu.sound rfl).bind_nil fun _ _ hv ↦ .pure hv.sound _
  | string =>
    cases arguments with
    | nil => exact .pure hm _
    | cons v _ => exact (text hm v).bind_nil fun _ _ hu ↦ .pure hu.sound _
  | number => cases arguments <;> exact .pure hm _
  | abs | floor | ceil | round | sqrt | min | max | pow => exact .pure hm _

theorem arrayMethod {method : String} {ref : ArrayRef} {arguments : List Value}
    {x : Action σ Value} (h : arrayMethod? method ref arguments = some x) :
    Respects P S x m [] := by
  unfold arrayMethod? at h
  split at h
  · cases h
    exact allocate (Heap.rebinds_of_sameVariables hm ⟨rfl, rfl, rfl⟩)
  · cases h
    exact allocate (Heap.rebinds_of_sameVariables hm ⟨rfl, rfl, rfl⟩)
  · cases h

variable {host : Host σ} (hh : host.Respects P)
include hh

theorem writeMember (object : Value) (property : String) (v : Value) :
    Respects P S (Script.writeMember host object property v) m
      (memberWriteEnters object property v m) := by
  unfold Script.writeMember memberWriteEnters
  cases object with
  | record ref => exact onHeap (Heap.rebinds_of_sameVariables hm ⟨rfl, rfl, rfl⟩)
  | host ref =>
    exact single ((hh.write ref property v m hm).mono (Set.empty_subset S)) rfl trivial hm
  | _ => exact (description hm _).bind_nil fun _ _ hu ↦ .fail hu.sound _

theorem writeIndex (object index v : Value) :
    Respects P S (Script.writeIndex host object index v) m (indexWriteEnters object index v m) := by
  have htext : Respects P S (Action.text index) m [.text index m] := text hm index
  have hother := htext.bind fun property _ hu ↦ writeMember hu.sound hh object property v
  cases object with
  | array ref =>
    cases index with
    | number x => exact writeItem hm ref x v
    | _ => exact hother
  | _ => exact hother

end Primitive

end Action.Respects

/-! ## The evaluator -/

/-- Every part of an evaluation with the bound `n` rebinds variables as it may. -/
def PartsRespect (P : Site → Prop) (host : Host σ) (n : Nat) : Prop :=
  ∀ (t : Task) (m : Machine σ), t.isPart = true → m.heap.Sound P → t.Sound P m.heap →
    Action.Respects P t.opens (t.run host n) m (t.enters host n m)

/-- The heap is sound, and code can run in the scopes. -/
structure Heap.Ready (P : Site → Prop) (scope : Scope) (h : Heap) : Prop where
  sound : h.Sound P
  rooted : h.Rooted scope

theorem Heap.Ready.mono {P : Site → Prop} {S : Set Place} {scope : Scope} {h h' : Heap}
    (hh : h.Ready P scope) (hr : h.Rebinds P S h') : h'.Ready P scope :=
  ⟨hr.sound, hh.rooted.mono hr.frames⟩

theorem Heap.Ready.openScope {P : Site → Prop} {scope : Scope} {h : Heap} (hh : h.Ready P scope) :
    (h.openScope scope).2.Ready P (h.openScope scope).1 :=
  ⟨(Heap.rebinds_openScope (S := ∅) hh.sound scope).sound, hh.rooted.openScope⟩

/-- Machine on which a scope has been opened, and is pinned. -/
def Machine.inOpened (m : Machine σ) (scope : Scope) : Machine σ :=
  Machine.pin [.scope (m.heap.openScope scope).1] { m with heap := (m.heap.openScope scope).2 }

/-- What runs in a scope that it has opened gives names there only. -/
theorem Action.Respects.within_openScope {P : Site → Prop} {S : Set Place} {scope : Scope}
    {m : Machine σ} (hm : m.heap.Sound P) {f : Scope → Action σ α} {events : List (Event σ)}
    (hf : Respects P {(m.heap.openScope scope).1.place} (f (m.heap.openScope scope).1)
      (m.inOpened scope) events) :
    Respects P S (do
      let inner ← Action.allocate fun h ↦ h.openScope scope
      Machine.pinning [.scope inner] (f inner)) m events := by
  have hopened : m.heap.Rebinds P S (m.inOpened scope).heap := Heap.rebinds_openScope hm scope
  refine .after_rebinds hopened hf ?_ (Machine.heap_state_pinning _ _ _)
  rintro p rfl
  exact .inr (m.heap.fresh_place_openScope scope)

namespace PartsRespect

open ReactiveFrames.Script.Action (Respects)
open ReactiveFrames.Script.Action.Respects (within_openScope)

variable {P : Site → Prop} {S : Set Place} {host : Host σ} {n : Nat} {scope : Scope} {m : Machine σ}

section Tasks

variable (ih : PartsRespect P host n)
include ih

/-- A task enters itself. -/
theorem task {x : Action σ α} (t : Task) (h : x.forget = t.run host n) (ht : t.isPart = true)
    (hm : m.heap.Sound P) (hsound : t.Sound P m.heap) : Respects P t.opens x m [.task n t m] := by
  have hstate := (ih t m ht hm hsound).state
  rw [← h, Action.state_forget] at hstate
  exact .single hstate rfl hsound hm

theorem evalTask (hm : m.heap.Ready P scope) {e : Expr} (he : ∀ s ∈ e.sites, P s) :
    Respects P S (Script.eval host n scope e) m [.task n (.eval scope e) m] :=
  (ih.task (.eval scope e) rfl rfl hm.sound ⟨hm.rooted, he, trivial⟩).mono (Set.empty_subset S)

theorem evalAllTask (hm : m.heap.Ready P scope) {es : List Expr}
    (hes : ∀ s ∈ Expr.sitesOfAll es, P s) :
    Respects P S (Script.evalAll host n scope es) m [.task n (.evalAll scope es) m] :=
  (ih.task (.evalAll scope es) rfl rfl hm.sound ⟨hm.rooted, hes, trivial⟩).mono (Set.empty_subset S)

theorem readTargetTask (hm : m.heap.Ready P scope) {target : Target}
    (ht : ∀ s ∈ target.sites, P s) :
    Respects P S (Script.readTarget host n scope target) m [.task n (.readTarget scope target) m] :=
  (ih.task (.readTarget scope target) rfl rfl hm.sound ⟨hm.rooted, ht, trivial⟩).mono
    (Set.empty_subset S)

theorem writeTargetTask (hm : m.heap.Ready P scope) {target : Target}
    (ht : ∀ s ∈ target.sites, P s) (v : Value) :
    Respects P S (Script.writeTarget host n scope target v) m
      [.task n (.writeTarget scope target v) m] :=
  (ih.task (.writeTarget scope target v) rfl rfl hm.sound ⟨hm.rooted, ht, trivial⟩).mono
    (Set.empty_subset S)

theorem callTask (hm : m.heap.Sound P) (f : Value) (arguments : List Value) :
    Respects P S (Script.call host n f arguments) m [.task n (.call f arguments) m] :=
  (ih.task (.call f arguments) rfl rfl hm (.of_sites_eq_nil rfl rfl trivial)).mono
    (Set.empty_subset S)

theorem execTask (hm : m.heap.Ready P scope) {s : Stmt} (hs : ∀ a ∈ s.sites, P a)
    (hfunction : ∀ f, s = .function f → P (.bare f) ∨ m.heap.Hoisted P scope f) :
    Respects P {scope.place} (Script.exec host n scope s) m [.task n (.exec scope s) m] :=
  (ih.task (.exec scope s) rfl rfl hm.sound
    ⟨hm.rooted, hs, Task.hoisted_exec hfunction⟩).mono (Task.opens_exec scope s)

/-- A statement that stands by itself. -/
theorem execBareTask (hm : m.heap.Ready P scope) {s : Stmt}
    (hbare : ∀ a ∈ s.declaration .bare, P a) (hs : ∀ a ∈ s.sites, P a) :
    Respects P {scope.place} (Script.exec host n scope s) m [.task n (.exec scope s) m] :=
  ih.execTask hm hs fun f hf ↦ .inl (hbare _ (by rw [hf]; exact List.mem_cons_self))

theorem loopTask (hm : m.heap.Ready P scope) {test update : Option Expr} {body : Stmt}
    (hs : ∀ a ∈ (Task.loop scope test update body).sites, P a) :
    Respects P {scope.place} (Script.loop host n scope test update body) m
      [.task n (.loop scope test update body) m] :=
  ih.task (.loop scope test update body) rfl rfl hm.sound ⟨hm.rooted, hs, trivial⟩

/-! ### Expressions -/

theorem eval (hm : m.heap.Ready P scope) {e : Expr} (he : ∀ s ∈ e.sites, P s) :
    Respects P S (Script.eval host (n + 1) scope e) m (evalEnters host n scope e m) := by
  unfold Script.eval evalEnters
  cases e with
  | number _ | string _ | bool _ | null | undefined => exact .pure hm.sound _
  | «variable» name => exact .readVariable hm.sound name scope
  | array items =>
    refine (ih.evalAllTask hm he).bind_nil fun _ u hu ↦ ?_
    exact .allocate (Heap.rebinds_of_sameVariables hu.sound ⟨rfl, rfl, rfl⟩)
  | object entries =>
    have hentries : Respects P S (Script.evalEntries host n scope .empty entries) m
        [.task n (.evalEntries scope .empty entries) m] :=
      (ih.task (.evalEntries scope .empty entries) rfl rfl hm.sound
        ⟨hm.rooted, he, trivial⟩).mono (Set.empty_subset S)
    refine hentries.bind_nil fun _ u hu ↦ ?_
    exact .allocate (Heap.rebinds_of_sameVariables hu.sound ⟨rfl, rfl, rfl⟩)
  | function f => exact .allocate (Heap.rebinds_newClosure hm.sound hm.rooted he)
  | unary op operand =>
    have hother := (ih.evalTask (S := S) hm (e := operand) he).bind_nil
      (f := fun v ↦ Pure.pure (unaryValue op v)) fun _ _ hu ↦ .pure hu.sound _
    cases op with
    | typeOf =>
      cases operand with
      | «variable» name => exact .of_heap_eq hm.sound rfl
      | _ => exact hother
    | _ => exact hother
  | binary op left right =>
    rw [Expr.sites, List.forall_mem_append] at he
    -- The left value is pinned meanwhile, and pins are nothing to the heap.
    refine (ih.evalTask hm he.1).bind fun a u hu ↦ ?_
    have hright := ih.evalTask (S := S) (m := u.pin [.value a]) (hm.mono hu) he.2
    exact hright.pinning.bind fun b v hv ↦ .binaryValue hv.sound op a b
  | logical op left right =>
    rw [Expr.sites, List.forall_mem_append] at he
    refine (ih.evalTask hm he.1).bind fun a u hu ↦ ?_
    have hright := ih.evalTask (S := S) (m := u.pin [.value a]) (hm.mono hu) he.2
    cases op <;> cases a.isTruthy
    · exact .pure hu.sound a
    · exact hright.pinning
    · exact hright.pinning
    · exact .pure hu.sound a
  | conditional test consequent alternate =>
    rw [Expr.sites, List.forall_mem_append, List.forall_mem_append] at he
    refine (ih.evalTask hm he.1.1).bind fun v u hu ↦ ?_
    split
    · exact ih.evalTask (hm.mono hu) he.1.2
    · exact ih.evalTask (hm.mono hu) he.2
  | assign op target value =>
    rw [Expr.sites, List.forall_mem_append] at he
    cases op with
    | none =>
      refine (ih.evalTask hm he.2).bind fun v u hu ↦ ?_
      have hwrite := ih.writeTargetTask (S := S) (m := u.pin [.value v]) (hm.mono hu) he.1 v
      exact hwrite.pinning.bind_nil fun _ _ hw ↦ .pure hw.sound _
    | some op =>
      refine (ih.readTargetTask hm he.1).bind fun a u hu ↦ ?_
      have hvalue := ih.evalTask (S := S) (m := u.pin [.value a]) (hm.mono hu) he.2
      refine hvalue.pinning.bind fun b v hv ↦
        (Respects.binaryValue hv.sound op a b).bind fun c w hw ↦ ?_
      have hwrite := ih.writeTargetTask (S := S) (((hm.mono hu).mono hv).mono hw) he.1 c
      exact hwrite.bind_nil fun _ _ hx ↦ .pure hx.sound _
  | update increment before target =>
    refine (ih.readTargetTask hm he).bind fun v u hu ↦ ?_
    exact (ih.writeTargetTask (hm.mono hu) he _).bind_nil fun _ _ hw ↦ .pure hw.sound _
  | member object property =>
    exact (ih.evalTask hm (e := object) he).bind_nil fun v u hu ↦
      .readMember hu.sound host v property
  | index object index =>
    rw [Expr.sites, List.forall_mem_append] at he
    refine (ih.evalTask hm he.1).bind fun o u hu ↦ ?_
    have hindex := ih.evalTask (S := S) (m := u.pin [.value o]) (hm.mono hu) he.2
    exact hindex.pinning.bind fun i v hv ↦ .readIndex hv.sound host o i
  | call callee arguments =>
    rw [Expr.sites, List.forall_mem_append] at he
    cases callee with
    | member object property =>
      refine (ih.evalTask hm (e := object) he.1).bind fun o u hu ↦ .pinning ?_
      have harguments := ih.evalAllTask (S := S) (m := u.pin [.value o]) (hm.mono hu) he.2
      refine harguments.bind fun vs w hw ↦ ?_
      exact (ih.task (.callMethod o property vs) rfl rfl hw.sound
        (.of_sites_eq_nil rfl rfl trivial)).mono (Set.empty_subset S)
    | _ =>
      refine (ih.evalTask hm he.1).bind fun f u hu ↦ ?_
      have harguments := ih.evalAllTask (S := S) (m := u.pin [.value f]) (hm.mono hu) he.2
      exact harguments.pinning.bind fun vs w hw ↦ ih.callTask hw.sound f vs

theorem evalAll (hm : m.heap.Ready P scope) {es : List Expr}
    (hes : ∀ s ∈ Expr.sitesOfAll es, P s) :
    Respects P S (Script.evalAll host (n + 1) scope es) m
      (Task.enters host (n + 1) (.evalAll scope es) m) := by
  unfold Script.evalAll
  cases es with
  | nil => exact .pure hm.sound _
  | cons e rest =>
    rw [Expr.sitesOfAll, List.forall_mem_append] at hes
    refine (ih.evalTask hm hes.1).bind fun v u hu ↦ ?_
    have hrest := ih.evalAllTask (S := S) (m := u.pin [.value v]) (hm.mono hu) hes.2
    exact hrest.pinning.bind_nil fun _ _ hw ↦ .pure hw.sound _

theorem evalEntries (hm : m.heap.Ready P scope) (done : Table Value)
    {entries : List (String × Expr)} (hes : ∀ s ∈ Expr.sitesOfEntries entries, P s) :
    Respects P S (Script.evalEntries host (n + 1) scope done entries) m
      (Task.enters host (n + 1) (.evalEntries scope done entries) m) := by
  unfold Script.evalEntries
  cases entries with
  | nil => exact .pure hm.sound _
  | cons entry rest =>
    obtain ⟨name, e⟩ := entry
    rw [Expr.sitesOfEntries, List.forall_mem_append] at hes
    have hvalue := ih.evalTask (S := S) (m := m.pin (done.values.map .value)) hm hes.1
    refine hvalue.pinning.bind fun v u hu ↦ ?_
    exact (ih.task (.evalEntries scope (done.insert name v) rest) rfl rfl hu.sound
      ⟨hm.rooted.mono hu.frames, hes.2, trivial⟩).mono (Set.empty_subset S)

theorem readTarget (hm : m.heap.Ready P scope) {target : Target}
    (ht : ∀ s ∈ target.sites, P s) :
    Respects P S (Script.readTarget host (n + 1) scope target) m
      (Task.enters host (n + 1) (.readTarget scope target) m) := by
  unfold Script.readTarget
  cases target with
  | «variable» name => exact .readVariable hm.sound name scope
  | member object property =>
    exact (ih.evalTask hm (e := object) ht).bind_nil fun v u hu ↦
      .readMember hu.sound host v property
  | index object index =>
    rw [Target.sites, List.forall_mem_append] at ht
    refine (ih.evalTask hm ht.1).bind fun o u hu ↦ ?_
    have hindex := ih.evalTask (S := S) (m := u.pin [.value o]) (hm.mono hu) ht.2
    exact hindex.pinning.bind fun i v hv ↦ .readIndex hv.sound host o i

theorem writeTarget (hh : host.Respects P) (hm : m.heap.Ready P scope) {target : Target}
    (ht : ∀ s ∈ target.sites, P s) (v : Value) :
    Respects P S (Script.writeTarget host (n + 1) scope target v) m
      (writeTargetEnters host n scope target v m) := by
  unfold Script.writeTarget writeTargetEnters
  cases target with
  | «variable» name =>
    have hassigned := ht _ List.mem_cons_self
    exact .onHeap ((Heap.rebinds_assign hm.sound name v scope hassigned).mono (Set.empty_subset S))
  | member object property =>
    exact (ih.evalTask hm (e := object) ht).bind fun o u hu ↦ .writeMember hu.sound hh o property v
  | index object index =>
    rw [Target.sites, List.forall_mem_append] at ht
    refine (ih.evalTask hm ht.1).bind fun o u hu ↦ .pinning ?_
    have hindex := ih.evalTask (S := S) (m := u.pin [.value o]) (hm.mono hu) ht.2
    exact hindex.bind fun i w hw ↦ .pinning (.writeIndex (m := w.pin [.value i]) hw.sound hh o i v)

/-! ### Calls -/

theorem callMethod (hm : m.heap.Sound P) (receiver : Value) (method : String)
    (arguments : List Value) :
    Respects P S (Script.callMethod host (n + 1) receiver method arguments) m
      (Task.enters host (n + 1) (.callMethod receiver method arguments) m) := by
  have hcall : Respects P S (do
        let f ← Script.readMember host receiver method
        Script.call host n f arguments) m
      (after (Script.readMember host receiver method) m fun f u ↦
        [.task n (.call f arguments) u]) :=
    (Respects.readMember hm host receiver method).bind fun f u hu ↦ ih.callTask hu.sound f arguments
  unfold Script.callMethod
  cases receiver with
  | array ref =>
    dsimp only [Task.enters]
    cases hown : arrayMethod? method ref arguments with
    | some x => exact .arrayMethod hm hown
    | none => exact hcall
  | _ => exact hcall

theorem call (hh : host.Respects P) (hm : m.heap.Sound P) (f : Value) (arguments : List Value) :
    Respects P S (Script.call host (n + 1) f arguments) m
      (Task.enters host (n + 1) (.call f arguments) m) := by
  unfold Script.call
  cases f with
  | closure ref =>
    have hcall := ih.task (m := m.pin ((.closure ref :: arguments).map .value))
      (.callClosure ref arguments) rfl rfl hm (.of_sites_eq_nil rfl rfl trivial)
    exact (hcall.mono (Set.empty_subset S)).pinning
  | builtin f => exact .builtin hm f arguments
  | foreign ref =>
    exact .single ((hh.call ref arguments m hm).mono (Set.empty_subset S)) rfl trivial hm
  | _ => exact (Respects.description hm _).bind_nil fun _ _ hu ↦ .fail hu.sound _

/-- The body of a closure runs in a new scope, where the parameters are bound. -/
theorem callClosure (hm : m.heap.Sound P) (ref : ClosureRef) (arguments : List Value) :
    Respects P S (Script.callClosure host (n + 1) ref arguments) m
      (callClosureEnters n ref arguments m) := by
  unfold callClosureEnters
  by_cases hdepth : m.maxDepth ≤ m.depth
  · rw [if_pos hdepth]
    refine .of_heap_eq hm ?_
    unfold Script.callClosure
    rw [if_pos hdepth]
    rfl
  rw [if_neg hdepth]
  cases hc : m.heap.closures[ref.index]? with
  | none =>
    refine .of_heap_eq hm ?_
    unfold Script.callClosure
    simp only [if_neg hdepth, hc]
    rfl
  | some c =>
    obtain ⟨hrooted, hsites⟩ := hm ref.index c hc
    rw [FunctionDecl.sites_eq, List.forall_mem_append] at hsites
    have hopened := Heap.rebinds_openScope (S := S) hm c.scope
    have hbound := Heap.rebinds_bindParameters hopened.sound hrooted.openScope
      (fun x hx ↦ hsites.1 _ (List.mem_map_of_mem hx)) arguments
    -- All names are given in the scope of the call, which is new.
    have hfresh : ∀ p ∈ ({(m.heap.openScope c.scope).1.place} : Set Place),
        p ∈ S ∨ m.heap.Fresh p := by
      rintro p rfl
      exact .inr (m.heap.fresh_place_openScope c.scope)
    have hentered := hopened.trans hbound hfresh
    have hbody := ih.task (x := execBlock host n (m.heap.openScope c.scope).1 c.function.body)
      (m := Machine.pin [.scope (m.heap.openScope c.scope).1]
        { m with
          heap := bindParameters (m.heap.openScope c.scope).1 c.function.parameters arguments
            (m.heap.openScope c.scope).2
          depth := m.depth + 1 })
      (.execBlock (m.heap.openScope c.scope).1 c.function.body) rfl rfl hentered.sound
      ⟨hrooted.openScope.mono hbound.frames, hsites.2, trivial⟩
    refine .after_rebinds hentered hbody hfresh ?_
    unfold Script.callClosure
    simp only [if_neg hdepth, hc]
    rw [Action.state_map]
    exact (Machine.heap_state_nested _ _).trans (Machine.heap_state_pinning _ _ _)

/-! ### Statements -/

theorem execBlock (hm : m.heap.Ready P scope) {body : List Stmt}
    (hbody : ∀ s ∈ Stmt.sitesOfAll body, P s) :
    Respects P {scope.place} (Script.execBlock host (n + 1) scope body) m
      (Task.enters host (n + 1) (.execBlock scope body) m) := by
  obtain ⟨hdeclared, hhoisted⟩ := Heap.rebinds_hoist hm.sound hm.rooted hbody
  have hall := ih.task (m := m.mapHeap (Heap.hoist body scope)) (.execAll scope body) rfl rfl
    hdeclared.sound ⟨hm.rooted.mono hdeclared.frames, hbody, hhoisted⟩
  unfold Script.execBlock
  exact .after_rebinds hdeclared hall (fun _ hp ↦ .inl hp) rfl

theorem execAll (hm : m.heap.Ready P scope) {body : List Stmt}
    (hbody : ∀ s ∈ Stmt.sitesOfAll body, P s)
    (hhoisted : ∀ f, Stmt.function f ∈ body → m.heap.Hoisted P scope f) :
    Respects P {scope.place} (Script.execAll host (n + 1) scope body) m
      (Task.enters host (n + 1) (.execAll scope body) m) := by
  unfold Script.execAll
  cases body with
  | nil => exact .pure hm.sound _
  | cons s rest =>
    rw [Stmt.sitesOfAll, List.forall_mem_append, List.forall_mem_append] at hbody
    have hfirst := ih.execTask hm hbody.1.2 fun f hf ↦ .inr (hhoisted f (hf ▸ List.mem_cons_self))
    refine hfirst.bind fun c u hu ↦ ?_
    cases c with
    | normal =>
      -- The functions of the other statements are still there.
      exact ih.task (.execAll scope rest) rfl rfl hu.sound ⟨hm.rooted.mono hu.frames, hbody.2,
        fun f hf ↦ (hhoisted f (List.mem_cons_of_mem s hf)).mono hu⟩
    | _ => exact .pure hu.sound _

theorem declareAll (hm : m.heap.Ready P scope) {declared : List (String × Option Expr)}
    (hs : ∀ a ∈ Stmt.sitesOfDeclared declared, P a) :
    Respects P {scope.place} (Script.declareAll host (n + 1) scope declared) m
      (Task.enters host (n + 1) (.declareAll scope declared) m) := by
  unfold Script.declareAll
  cases declared with
  | nil => exact .pure hm.sound _
  | cons d rest =>
    obtain ⟨name, initial⟩ := d
    rw [Stmt.sitesOfDeclared, List.cons_append, List.forall_mem_cons, List.forall_mem_append] at hs
    obtain ⟨hname, hinitial, hrest⟩ := hs
    -- The first value is there, so that the name can be declared and the others follow.
    have hdeclare {u : Machine σ} (hu : u.heap.Ready P scope) (v : Value) :
        Respects P {scope.place} (do
            Action.onHeap fun h ↦ h.declare name v scope
            Script.declareAll host n scope rest) u
          [.task n (.declareAll scope rest) (u.mapHeap fun h ↦ h.declare name v scope)] := by
      have hdeclared := Heap.rebinds_declare hu.sound hu.rooted name v (s := .declared name)
        ⟨hname, rfl, fun f hf ↦ by cases hf⟩
      have hlater := ih.task (m := u.mapHeap fun h ↦ h.declare name v scope)
        (.declareAll scope rest) rfl rfl hdeclared.sound
        ⟨hu.rooted.mono hdeclared.frames, hrest, trivial⟩
      exact .after_rebinds hdeclared hlater (fun _ hp ↦ .inl hp) rfl
    cases initial with
    | none => exact hdeclare hm .undefined
    | some e => exact (ih.evalTask hm hinitial).bind fun v u hu ↦ hdeclare (hm.mono hu) v

theorem exec (hm : m.heap.Ready P scope) {s : Stmt} (hs : ∀ a ∈ s.sites, P a) :
    Respects P (Task.exec scope s).opens (Script.exec host (n + 1) scope s) m
      (execEnters host n scope s m) := by
  unfold Script.exec execEnters
  cases s with
  | expression e => exact (ih.evalTask hm hs).bind_nil fun _ _ hu ↦ .pure hu.sound _
  | declare declared =>
    exact (ih.task (.declareAll scope declared) rfl rfl hm.sound
      ⟨hm.rooted, hs, trivial⟩).bind_nil fun _ _ hu ↦ .pure hu.sound _
  | function _ | breakLoop | continueLoop | empty => exact .pure hm.sound _
  | returnValue e =>
    cases e with
    | none => exact .pure hm.sound _
    | some e => exact (ih.evalTask hm (e := e) hs).bind_nil fun _ _ hu ↦ .pure hu.sound _
  | branch test consequent alternate =>
    cases alternate with
    | none =>
      rw [Stmt.sites, List.forall_mem_append, List.forall_mem_append] at hs
      refine (ih.evalTask hm hs.1.1).bind fun v u hu ↦ ?_
      split
      · exact ih.execBareTask (hm.mono hu) hs.1.2 hs.2
      · exact .pure hu.sound _
    | some alternate =>
      simp only [Stmt.sites, List.forall_mem_append] at hs
      refine (ih.evalTask hm hs.1.1.1.1).bind fun v u hu ↦ ?_
      split
      · exact ih.execBareTask (hm.mono hu) hs.1.1.1.2 hs.1.1.2
      · exact ih.execBareTask (hm.mono hu) hs.1.2 hs.2
  | whileLoop test body =>
    refine ih.loopTask hm ?_
    rw [Stmt.sites, List.forall_mem_append, List.forall_mem_append] at hs
    simp only [Task.sites, Expr.sitesOfOption, List.forall_mem_append]
    exact ⟨⟨⟨hs.1.1, fun _ ha ↦ absurd ha List.not_mem_nil⟩, hs.1.2⟩, hs.2⟩
  | forLoop init test update body =>
    simp only [Stmt.sites, List.forall_mem_append] at hs
    obtain ⟨⟨⟨⟨hinit, htest⟩, hupdate⟩, hbare⟩, hbody⟩ := hs
    -- The start of the loop and all of its rounds share the scope that is opened here.
    refine within_openScope hm.sound ?_
    have hready := hm.openScope
    have hrounds {u : Machine σ} (hu : u.heap.Ready P (m.heap.openScope scope).1) :
        Respects P {(m.heap.openScope scope).1.place}
          (Script.loop host n (m.heap.openScope scope).1 test update body) u
          [.task n (.loop (m.heap.openScope scope).1 test update body) u] := by
      refine ih.loopTask hu ?_
      simp only [Task.sites, List.forall_mem_append]
      exact ⟨⟨⟨htest, hupdate⟩, hbare⟩, hbody⟩
    cases init with
    | none => exact hrounds hready
    | some s =>
      rw [Stmt.sitesOfInit, List.forall_mem_append] at hinit
      exact (ih.execBareTask (m := m.inOpened scope) hready hinit.1 hinit.2).bind fun _ u hu ↦
        hrounds (hready.mono hu)
  | block body =>
    exact within_openScope hm.sound <|
      ih.task (.execBlock (m.heap.openScope scope).1 body) rfl rfl hm.openScope.sound
        ⟨hm.openScope.rooted, hs, trivial⟩
  | throwValue e =>
    exact (ih.evalTask hm hs).bind fun v u hu ↦
      (Respects.text hu.sound v).bind_nil fun _ _ hw ↦ .fail hw.sound _

theorem loop (hm : m.heap.Ready P scope) {test update : Option Expr} {body : Stmt}
    (hs : ∀ a ∈ (Task.loop scope test update body).sites, P a) :
    Respects P {scope.place} (Script.loop host (n + 1) scope test update body) m
      (Task.enters host (n + 1) (.loop scope test update body) m) := by
  have hagain {u : Machine σ} (hu : u.heap.Ready P scope) := ih.loopTask hu hs
  simp only [Task.sites, List.forall_mem_append] at hs
  obtain ⟨⟨⟨htest, hupdate⟩, hbare⟩, hbody⟩ := hs
  -- The rounds behind the first one are a task of their own, with fewer steps.
  have hround (goes : Bool) {u : Machine σ} (hu : u.heap.Ready P scope) :
      Respects P {scope.place} (loopRound host n scope test update body goes) u
        (roundEnters host n scope test update body goes u) := by
    unfold loopRound
    cases goes with
    | false => exact .pure hu.sound _
    | true =>
      refine (ih.execBareTask hu hbare hbody).bind fun c w hw ↦ ?_
      cases c with
      | broke | returned _ => exact .pure hw.sound _
      | normal | continued =>
        cases update with
        | none => exact hagain (hu.mono hw)
        | some e =>
          exact (ih.evalTask (hu.mono hw) hupdate).bind fun _ x hx ↦
            hagain ((hu.mono hw).mono hx)
  cases test with
  | none =>
    rw [loop_without_test]
    exact hround true hm
  | some e =>
    rw [loop_with_test]
    exact (ih.evalTask hm htest).bind fun v u hu ↦ hround v.isTruthy (hm.mono hu)

/-! ### Programs -/

theorem runStatements (hm : m.heap.Ready P []) {body : List Stmt}
    (hbody : ∀ s ∈ Stmt.sitesOfAll body, P s)
    (hhoisted : ∀ f, Stmt.function f ∈ body → m.heap.Hoisted P [] f) (last : Value) :
    Respects P {none} (Script.runStatements host n last body) m
      (statementsEnter host n last body m) := by
  induction body generalizing last m with
  | nil => exact .pure hm.sound _
  | cons s rest htail =>
    rw [Stmt.sitesOfAll, List.forall_mem_append, List.forall_mem_append] at hbody
    -- Nothing has taken the place of the functions that the other statements declare.
    have hrest {u : Machine σ} (hu : m.heap.Rebinds P {none} u.heap) (v : Value) :
        Respects P {none} (Script.runStatements host n v rest) u
          [.task n (.statements v rest) u] := by
      have hlater (f : FunctionDecl) (hf : Stmt.function f ∈ rest) : u.heap.Hoisted P [] f :=
        (hhoisted f (List.mem_cons_of_mem s hf)).mono hu
      exact .single (htail (hm.mono hu) hbody.2 hlater v).state rfl
        ⟨hm.rooted.mono hu.frames, hbody.2, hlater⟩ hu.sound
    cases s with
    | expression e =>
      have hvalue := ih.evalTask (S := {none}) (m := m.pin [.value last]) hm hbody.1.2
      exact hvalue.pinning.bind fun v u hu ↦ hrest hu v
    | _ =>
      have hfirst := ih.execTask (m := m.pin [.value last]) hm hbody.1.2
        fun f hf ↦ .inr (hhoisted f (hf ▸ List.mem_cons_self))
      refine hfirst.pinning.bind fun c u hu ↦ ?_
      cases c with
      | returned v => exact .pure hu.sound _
      | _ => exact hrest hu last

theorem runProgram (hm : m.heap.Sound P) {source : String}
    (hs : ∀ a ∈ (Task.program source).sites, P a) :
    Respects P {none} (Script.runProgram host n source) m (programEnters n source m) := by
  rw [Task.sites] at hs
  unfold Script.runProgram programEnters
  cases hparse : parse source with
  | error e => exact .fail hm _
  | ok body =>
    simp only [hparse] at hs
    obtain ⟨hdeclared, hhoisted⟩ := Heap.rebinds_hoist hm m.heap.rooted_nil hs
    have hready : (m.mapHeap (Heap.hoist body [])).heap.Ready P [] :=
      ⟨hdeclared.sound, Heap.rooted_nil _⟩
    have hall := ih.runStatements hready hs hhoisted .undefined
    have htask : Respects P {none} (Script.runStatements host n .undefined body)
        (m.mapHeap (Heap.hoist body []))
        [.task n (.statements .undefined body) (m.mapHeap (Heap.hoist body []))] :=
      .single hall.state rfl ⟨Heap.rooted_nil _, hs, hhoisted⟩ hdeclared.sound
    exact .after_rebinds (u := m.mapHeap (Heap.hoist body [])) hdeclared htask
      (fun _ hp ↦ .inl hp) rfl

end Tasks

/-- With more steps, the parts of an evaluation do as their own parts do. -/
theorem succ (hh : host.Respects P) (ih : PartsRespect P host n) : PartsRespect P host (n + 1) := by
  intro t m hpart hm ht
  obtain ⟨hrooted, hsites, hhoisted⟩ := ht
  cases t with
  | eval scope e => exact (ih.eval ⟨hm, hrooted⟩ hsites).forget
  | evalAll scope es => exact (ih.evalAll ⟨hm, hrooted⟩ hsites).forget
  | evalEntries scope done entries => exact (ih.evalEntries ⟨hm, hrooted⟩ done hsites).forget
  | readTarget scope target => exact (ih.readTarget ⟨hm, hrooted⟩ hsites).forget
  | writeTarget scope target v => exact (ih.writeTarget hh ⟨hm, hrooted⟩ hsites v).forget
  | callMethod receiver method arguments =>
    exact (ih.callMethod hm receiver method arguments).forget
  | call f arguments => exact (ih.call hh hm f arguments).forget
  | callClosure ref arguments => exact (ih.callClosure hm ref arguments).forget
  | execBlock scope body => exact (ih.execBlock ⟨hm, hrooted⟩ hsites).forget
  | execAll scope body => exact (ih.execAll ⟨hm, hrooted⟩ hsites hhoisted).forget
  | exec scope s => exact (ih.exec ⟨hm, hrooted⟩ hsites).forget
  | declareAll scope declared => exact (ih.declareAll ⟨hm, hrooted⟩ hsites).forget
  | loop scope test update body => exact (ih.loop ⟨hm, hrooted⟩ hsites).forget
  | statements last body => cases hpart
  | program source => cases hpart

end PartsRespect

/-- Every part of an evaluation rebinds variables as it may, if the accesses to the host do. -/
theorem partsRespect {P : Site → Prop} {host : Host σ} (hh : host.Respects P) (n : Nat) :
    PartsRespect P host n := by
  induction n with
  | zero =>
    intro t m hpart hm _
    cases t with
    | statements last body => cases hpart
    | program source => cases hpart
    | _ => exact .of_heap_eq hm rfl
  | succ n ih => exact ih.succ hh

/-- Every task rebinds variables as it may, and so does what comes before anything that it enters,
which is sound. -/
theorem Task.respects {P : Site → Prop} {host : Host σ} (hh : host.Respects P) (n : Nat) {t : Task}
    {m : Machine σ} (hm : m.heap.Sound P) (ht : t.Sound P m.heap) :
    Action.Respects P t.opens (t.run host n) m (t.enters host n m) := by
  have hparts := partsRespect hh n
  cases t with
  | statements last body =>
    exact (hparts.runStatements ⟨hm, ht.rooted⟩ ht.sites ht.hoisted last).forget
  | program source => exact (hparts.runProgram hm ht.sites).forget
  | _ => exact hparts _ m rfl hm ht

end ReactiveFrames.Script
