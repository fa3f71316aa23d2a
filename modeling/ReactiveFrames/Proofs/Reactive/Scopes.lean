import ReactiveFrames.Proofs.Reactive.Depth
import ReactiveFrames.Proofs.Reactive.Reachable
import ReactiveFrames.Proofs.Script.Scoping

/-!
# Lexical scope

Scopes are shared by the closures that were made in them, and a closure can be called long after the
block around it has ended, by a script or by a write that runs a listener. Still the chain of scopes
that code runs in is the one that it stands in: every chain leads outwards through scopes that exist
to the global one; an assignment changes the variable that a lookup would read, and no other one;
and whatever opens a scope of its own leaves the names of all other scopes as they are.

A write declares names in new scopes only, because all that it runs are closures. So the pass over
the evaluator applies to the scripts of every world, and what holds of one of them holds along every
chain of scripts and writes that are under way at one time.

## Main definitions

* `Encloses`: what is run declares names in new scopes only.
* `Moment.Sound`: what is under way suits its world.
* `Moment.LexicallyScoped`: the rules of lexical scope.

## Main statements

* `World.lexically_scoped`: they hold at every moment of every run.
-/

namespace ReactiveFrames

open Script (Value Heap Machine Task Event Action Site Expr Stmt Scope)

/-! ## Writes declare names in new scopes only -/

/-- However the computation ends, names have been declared in new scopes only. -/
def Encloses {σ ε α : Type} (P : Site → Prop) (x : Run (Machine σ) ε α) : Prop :=
  ∀ m : Machine σ, m.heap.Sound P → m.heap.Rebinds P ∅ (x m).state.heap

namespace Encloses

variable {σ ε ε' α β : Type} {P : Site → Prop} {x : Run (Machine σ) ε α}

theorem of_ok (hx : Encloses P x) {a : α} {m u : Machine σ} (h : x m = .ok a u)
    (hm : m.heap.Sound P) : m.heap.Rebinds P ∅ u.heap := by
  have hrebinds := hx m hm
  rwa [h] at hrebinds

theorem of_heap_eq (h : ∀ m, (x m).state.heap = m.heap) : Encloses P x := fun m hm ↦ by
  rw [h m]
  exact .refl hm

protected theorem pure (a : α) : Encloses P (Pure.pure a : Run (Machine σ) ε α) :=
  of_heap_eq fun _ ↦ rfl

protected theorem fail (e : ε) : Encloses P (Run.fail e : Run (Machine σ) ε α) :=
  of_heap_eq fun _ ↦ rfl

protected theorem exhaust : Encloses P (Run.exhaust : Run (Machine σ) ε α) :=
  of_heap_eq fun _ ↦ rfl

/-- A change of the machine that leaves its heap alone. -/
protected theorem update {f : Machine σ → Machine σ} (hf : ∀ m : Machine σ, (f m).heap = m.heap) :
    Encloses P (Run.update f : Run (Machine σ) ε Unit) :=
  of_heap_eq hf

protected theorem bind {f : α → Run (Machine σ) ε β} (hx : Encloses P x)
    (hf : ∀ a, Encloses P (f a)) : Encloses P (x >>= f) := by
  intro m hm
  exact Run.state_bind_of (P := fun u ↦ m.heap.Rebinds P ∅ u.heap) (hx m hm) fun a u _ hu ↦
    hu.trans (hf a u hu.sound) fun _ hp ↦ .inl hp

protected theorem attempt (hx : Encloses P x) :
    Encloses P (x.attempt : Run (Machine σ) ε' (Except ε α)) := by
  intro m hm
  rw [Run.state_attempt]
  exact hx m hm

protected theorem pinning (pins : List Script.Pin) (hx : Encloses P x) :
    Encloses P (Machine.pinning pins x) := by
  intro m hm
  rw [Machine.state_pinning]
  exact hx { m with pins := pins ++ m.pins } hm

end Encloses

section Writes

variable {P : Site → Prop} {ε : Type} {a : Access}

theorem heap_state_counted {α : Type} (notice : String) (x : Action ObjectGraph α) (w : World) :
    (Script.counted notice x w).state.heap = (x w).state.heap := by
  unfold Script.counted
  cases x w <;> rfl

theorem encloses_reporting {x : Effect ObserverError Unit} (hx : Encloses P x) :
    Encloses P (reporting x : Effect ε Unit) := by
  intro w hw
  have hxw := hx w hw
  unfold reporting
  cases h : x w <;> rwa [h] at hxw

theorem Foreign.encloses_apply (f : Foreign) (arguments : List Value) :
    Encloses P (f.apply arguments) := by
  intro w hw
  obtain ⟨h, notices, hsame, hstate⟩ := f.exists_state_apply arguments w
  rw [hstate]
  exact Heap.rebinds_of_sameVariables hw hsame

theorem encloses_logValue (tag : String) (v : Value) :
    Encloses P (logValue tag v : Effect ε Unit) := by
  refine .bind (.of_heap_eq fun w ↦ ?_) fun text ↦ .update fun _ ↦ rfl
  cases w.heap.description? v <;> rfl

variable (ha : ∀ o p v, Encloses P (a.write o p v))
include ha

theorem hostOf_respects : (hostOf a).Respects P where
  write ref p v w hw := encloses_reporting (ha ⟨ref.index⟩ p v) w hw
  call ref arguments w hw := by
    simp only [hostOf]
    split
    · exact Foreign.encloses_apply _ arguments w hw
    · exact .refl hw

/-- A call runs closures only. -/
theorem encloses_callValue (bound : Nat) (f : Value) (arguments : List Value) :
    Encloses P (Script.callValue (hostOf a) bound f arguments) := by
  intro w hw
  have hcall := (Task.respects (hostOf_respects ha) bound (t := .call f arguments) hw
    (.of_sites_eq_nil rfl rfl trivial)).state
  rw [Task.run, Action.state_forget] at hcall
  unfold Script.callValue
  rwa [heap_state_counted]

theorem encloses_storeResult (owner : ObjectRef) (listener : String)
    (result : Except Script.ScriptError Value) :
    Encloses P (storeResult a.write owner listener result) := by
  refine .bind (.update fun _ ↦ rfl) fun _ ↦ .bind (.of_heap_eq fun _ ↦ rfl) fun _ ↦ ?_
  cases result with
  | error e => exact .fail _
  | ok v =>
    cases v with
    | undefined => exact .fail _
    | _ => exact ha _ _ _

theorem encloses_invokeListener (bound : Nat) (owner : ObjectRef) (listener : String) :
    Encloses P (invokeListener bound a owner listener) := by
  refine .bind (.of_heap_eq fun w ↦ ?_) fun call ↦ .pinning _ ?_
  · cases listenerCall? a.read w owner listener <;> rfl
  · exact (encloses_callValue ha bound call.1 call.2).attempt.bind fun result ↦
      encloses_storeResult ha owner listener result

theorem encloses_follow (tag : String) (f : FollowUp) :
    Encloses P (follow a.write tag f : Effect ε Unit) := by
  refine .bind (fun w hw ↦ ?_) fun _ ↦ .update fun _ ↦ rfl
  split
  · refine Encloses.bind (ha f.object f.property f.value).attempt (fun r ↦ ?_) w hw
    cases r <;> exact .pure _
  · exact .refl hw

theorem encloses_runObservers (bound : Nat) (v : Value) (observers : List Observer) :
    Encloses P (runObservers bound a v observers : Effect ε Unit) := by
  induction observers with
  | nil => exact .pure ()
  | cons observer rest ih =>
    refine .bind ?_ fun _ ↦ ih
    cases observer with
    | listener owner name => exact encloses_reporting (encloses_invokeListener ha bound owner name)
    | watcher tag f =>
      refine .bind (encloses_logValue tag v) fun _ ↦ ?_
      cases f with
      | none => exact .pure ()
      | some f => exact encloses_follow ha tag f

theorem encloses_setWith (bound : Nat) (o : ObjectRef) (p : String) (v : Value) :
    Encloses P (setWith bound a o p v) := by
  refine .bind (.of_heap_eq fun _ ↦ rfl) fun w ↦ ?_
  dsimp only
  split
  · exact .fail _
  · refine .bind (.update fun _ ↦ rfl) fun _ ↦ ?_
    split
    · exact .pure ()
    · exact .bind (.update fun _ ↦ rfl) fun _ ↦
        .bind ((encloses_runObservers ha bound v _).pinning _) fun _ ↦ .update fun _ ↦ rfl

omit ha

theorem encloses_setWithin (bound : Nat) (read : Lookup) (levels : Nat) (o : ObjectRef) (p : String)
    (v : Value) : Encloses P (setWithin bound read levels o p v) := by
  -- The observers of a write make their writes with one level less.
  induction levels generalizing o p v with
  | zero => exact .exhaust
  | succ levels ih => exact encloses_setWith ih bound o p v

theorem encloses_set (o : ObjectRef) (p : String) (v : Value) : Encloses P (World.set o p v) :=
  fun (w : World) ↦ encloses_setWithin stepBound World.get? w.levels o p v w

theorem encloses_accessAt (levels : Option Nat) (o : ObjectRef) (p : String) (v : Value) :
    Encloses P ((accessAt levels).write o p v) := by
  cases levels with
  | none => exact encloses_set o p v
  | some n => exact encloses_setWithin stepBound World.get? n o p v

/-- Scripts of every world rebind variables as their code may. -/
theorem respects_accessAt (levels : Option Nat) : (hostOf (accessAt levels)).Respects P :=
  hostOf_respects (encloses_accessAt levels)

end Writes

/-! ## Along a chain -/

/-- What is started suits the heap. -/
def Activity.Sound (P : Site → Prop) (h : Heap) : Activity → Prop
  | .script _ _ t => t.Sound P h
  | .write .. => True

namespace Moment

variable {P : Site → Prop} {start a b : Moment} {k : Nat}

/-- What is under way suits its world, and the closures of the world have their kind of sites. -/
structure Sound (P : Site → Prop) (a : Moment) : Prop where
  heap : a.world.heap.Sound P
  activity : a.activity.Sound P a.world.heap

/-- Places of existing variables in which the activity may give names. -/
def opens (a : Moment) : Set Script.Place :=
  match a.activity with
  | .script _ _ t => t.opens
  | .write .. => ∅

theorem rebinds_final (ha : a.Sound P) : a.world.heap.Rebinds P a.opens a.final.heap := by
  obtain ⟨activity, w⟩ := a
  obtain ⟨hheap, hactivity⟩ := ha
  cases activity with
  | script levels n t => exact (t.respects (respects_accessAt levels) n hheap hactivity).state
  | write levels o p v => exact encloses_accessAt levels o p v w hheap

theorem rebinds_of_reaches {levels : Nat} {o : ObjectRef} {p : String} {v : Value} {w u : World}
    {observer : Observer} (hw : w.heap.Sound P) (h : Reaches levels o p v w observer u) :
    w.heap.Rebinds P ∅ u.heap := by
  obtain ⟨-, earlier, later, -, hrun⟩ := h
  have hearlier := encloses_runObservers (ε := ObserverError) (P := P)
    (encloses_accessAt (some levels)) stepBound v earlier
  exact (hearlier.of_ok hrun hw :)

/-- What is entered is sound, if what it is entered from is. -/
theorem rebinds_of_enters (ha : a.Sound P) (h : a.Enters b) :
    a.world.heap.Rebinds P a.opens b.world.heap ∧ b.Sound P := by
  obtain ⟨hheap, hactivity⟩ := ha
  -- What a write runs comes after other observers, which declare in new scopes only.
  cases h with
  | task he =>
    obtain ⟨hrebinds, hsound⟩ :=
      (Task.respects (respects_accessAt _) _ hheap hactivity).events _ he
    exact ⟨hrebinds, hrebinds.sound, hsound⟩
  | write he =>
    obtain ⟨hrebinds, -⟩ := (Task.respects (respects_accessAt _) _ hheap hactivity).events _ he
    exact ⟨hrebinds, hrebinds.sound, trivial⟩
  | layOut => exact ⟨.refl hheap, hheap, trivial⟩
  | invoke hreaches _ =>
    have hrebinds := rebinds_of_reaches hheap hreaches
    exact ⟨hrebinds, hrebinds.sound, .of_sites_eq_nil rfl rfl trivial⟩
  | @store levels _ _ _ _ _ f _ arguments _ u _ hreaches _ hrun _ =>
    have hrebinds := rebinds_of_reaches hheap hreaches
    have hcall := (encloses_callValue (encloses_accessAt (some levels)) stepBound f arguments).of_ok
      hrun hrebinds.sound
    exact ⟨hrebinds.trans hcall fun _ hp ↦ .inl hp, hcall.sound, trivial⟩
  | @follow _ _ _ tag v _ _ u _ hreaches hlog _ =>
    have hrebinds := rebinds_of_reaches hheap hreaches
    have hlogged := (encloses_logValue tag v).of_ok hlog hrebinds.sound
    exact ⟨hrebinds.trans hlogged fun _ hp ↦ .inl hp, hlogged.sound, trivial⟩

/-- Along a chain everything is sound, and variables have been rebound as all code may. -/
theorem rebinds_of_within (hstart : start.Sound P) (h : Within start k a) :
    start.world.heap.Rebinds P Set.univ a.world.heap ∧ a.Sound P := by
  induction h with
  | start => exact ⟨.refl hstart.heap, hstart⟩
  | enters _ hab ih =>
    obtain ⟨hrebinds, ha⟩ := ih
    obtain ⟨hstep, hb⟩ := rebinds_of_enters ha hab
    exact ⟨hrebinds.trans hstep fun _ _ ↦ .inl trivial, hb⟩

end Moment

/-! ## Worlds that a host can reach -/

/-- The scopes of every closure exist and lead outwards. -/
def Script.Heap.WellScoped (h : Heap) : Prop :=
  ∀ (n : Nat) (c : Script.Closure), h.closures[n]? = some c → h.Rooted c.scope

theorem Script.Heap.sound_true_iff {h : Heap} : (h.Sound fun _ ↦ True) ↔ h.WellScoped :=
  ⟨fun hh n c hc ↦ (hh n c hc).1, fun hh n c hc ↦ ⟨hh n c hc, fun _ _ ↦ trivial⟩⟩

theorem Encloses.preserves {ε α : Type} {P : Site → Prop} {x : Effect ε α} (hx : Encloses P x) :
    Run.Preserves (fun w : World ↦ w.heap.Sound P) x :=
  .of_preserves fun w hw ↦ (hx w hw).sound

namespace World

theorem heap_link (owner : ObjectRef) (listener : String) (w : World) :
    (World.link owner listener w).heap = w.heap := by
  rw [World.link]
  generalize ((w.object owner).pointers.find? listener).getD [] = ps
  induction ps generalizing w with
  | nil => rfl
  | cons p ps ih =>
    have hfirst : (World.linkPointer owner listener w p).heap = w.heap := by
      rw [World.linkPointer]
      split <;> rfl
    exact (ih _).trans hfirst

/-- A program gives names in the global scope and in new ones. -/
theorem rebinds_evaluate {P : Script.Site → Prop} {source : String} {w : World}
    (hs : ∀ s ∈ (Task.program source).sites, P s) (hw : w.heap.Sound P) :
    w.heap.Rebinds P {none} (World.evaluate source w).state.heap := by
  have hrun := ((Task.program source).respects (respects_accessAt none) stepBound hw
    ⟨Heap.rooted_nil _, hs, trivial⟩).state
  rw [Task.run, Action.state_forget] at hrun
  unfold World.evaluate Script.evaluate
  rwa [heap_state_counted]

/-- A program whose code has the kind of sites leaves a sound heap. -/
theorem sound_evaluate {P : Script.Site → Prop} {source : String}
    (hs : ∀ s ∈ (Task.program source).sites, P s) :
    Run.Preserves (fun w : World ↦ w.heap.Sound P) (World.evaluate source) :=
  .of_preserves fun _ hw ↦ (rebinds_evaluate hs hw).sound

theorem scriptClosed_sound : ScriptClosed fun w ↦ w.heap.Sound fun _ ↦ True where
  tidies w w' h hw := by rwa [h.heap]
  evaluate source := sound_evaluate fun _ _ ↦ trivial
  call f arguments := (encloses_callValue encloses_set stepBound f arguments).preserves
  set o p v := (encloses_set o p v).preserves
  invoke owner listener := (encloses_invokeListener encloses_set stepBound owner listener).preserves

theorem compileClosed_sound : CompileClosed fun w ↦ w.heap.Sound fun _ ↦ True where
  script := scriptClosed_sound
  build := {
    congr := fun w w' _ hsame hw ↦ (Heap.rebinds_of_sameVariables (S := ∅) hw hsame).sound
    modify := fun _ _ _ _ _ hw ↦ hw
    addObject := fun _ _ _ hw ↦ hw
    evaluate := scriptClosed_sound.evaluate }
  link owner listener w hw := by rwa [heap_link]
  bindGlobal _ _ _ hw := hw.of_closures_eq (Nat.le_refl _) rfl

/-- In every world that a host can reach, the scopes of all closures exist and lead outwards. -/
theorem Reachable.wellScoped {w : World} (h : w.Reachable) : w.heap.WellScoped := by
  rw [← Heap.sound_true_iff]
  induction h with
  | create => exact fun n c hc ↦ nomatch hc
  | defineForeign name f _ ih => exact ih.of_closures_eq (Nat.le_refl _) rfl
  | compile registry f _ hr ih =>
    exact (compileClosed_sound.compile registry f).state_of_returns ih hr
  | execute argument c _ hr ih =>
    exact (scriptClosed_sound.execute argument c).state_of_returns ih hr
  | seedTree o _ hr ih => exact (scriptClosed_sound.seedTree o).state_of_returns ih hr
  | evaluate source _ hr ih => exact (scriptClosed_sound.evaluate source).state_of_returns ih hr
  | call f arguments _ hr ih => exact (scriptClosed_sound.call f arguments).state_of_returns ih hr
  | fire owner l _ hr ih => exact (scriptClosed_sound.fire owner l).state_of_returns ih hr
  | set o p v _ hr ih => exact (scriptClosed_sound.set o p v).state_of_returns ih hr
  | define _ _ _ _ ih => exact ih
  | observe _ _ _ _ ih => exact ih
  | report _ _ ih => exact ih
  | letGo _ _ ih => exact ih

end World

/-! ## The rules of lexical scope -/

/-- If the value of an assignment is there, it is assigned, and it is the value of the whole. -/
theorem Script.eval_assign_of_ok {σ : Type} (host : Script.Host σ) {n : Nat} {scope : Scope}
    {e : Expr} {m u : Machine σ} {v : Value} (name : String)
    (h : Script.eval host n scope e m = .ok v u) :
    Script.eval host (n + 1) scope (.assign none (.variable name) e) m =
      .ok v (u.mapHeap fun h ↦ h.assign name v scope) := by
  cases n with
  | zero => cases h
  | succ n =>
    rw [Script.eval, Run.bind_of_ok h]
    rfl

namespace Script.Task

/-- The task opens a scope of its own: it is a block, a loop with a variable of its own, or a call.
-/
def Encloses : Task → Prop
  | exec _ (.block _) | exec _ (.forLoop ..) | call .. | callClosure .. => True
  | _ => False

theorem Encloses.opens_eq {t : Task} (ht : t.Encloses) : t.opens = ∅ := by
  cases t with
  | call | callClosure => rfl
  | exec scope s =>
    cases s with
    | block | forLoop => rfl
    | _ => exact ht.elim
  | _ => exact ht.elim

theorem Encloses.hoisted {t : Task} (ht : t.Encloses) (P : Site → Prop) (h : Heap) :
    t.Hoisted P h := by
  cases t with
  | call | callClosure => trivial
  | exec scope s =>
    cases s with
    | block | forLoop => trivial
    | _ => exact ht.elim
  | _ => exact ht.elim

/-- Where code may have any sites at all, nothing is known of functions that are hoisted. -/
theorem hoisted_true (t : Task) (h : Heap) : t.Hoisted (fun _ ↦ True) h := by
  have hany (scope : Scope) (f : Script.FunctionDecl) : h.Hoisted (fun _ ↦ True) scope f :=
    fun honly ↦ nomatch honly (.declared f.declaredName) trivial rfl
  cases t with
  | execAll scope body => exact fun f _ ↦ hany scope f
  | statements last body => exact fun f _ ↦ hany [] f
  | exec scope s => exact hoisted_exec fun f _ ↦ .inl trivial
  | _ => trivial

end Script.Task

/-- The scopes that an activity is to run in exist and lead outwards. Programs, calls and writes run
in the global scope. -/
def Activity.Rooted (h : Heap) : Activity → Prop
  | .script _ _ t => h.Rooted t.scope
  | .write .. => True

namespace Moment

variable {a : Moment}

/-- The rules of lexical scope for something that is under way. -/
structure LexicallyScoped (a : Moment) : Prop where
  /-- Closures were made in chains of scopes that exist and lead outwards, to the global one. -/
  closures : a.world.heap.WellScoped
  /-- And so are the scopes that code runs in. -/
  rooted : ∀ levels n t, a.activity = .script levels n t → a.world.heap.Rooted t.scope
  /-- An assignment changes the variable that a lookup reads, once its value is there. -/
  assigns : ∀ levels n scope name e,
    a.activity = .script levels (n + 1) (.eval scope (.assign none (.variable name) e)) →
    ∀ v u, Script.eval (hostOf (accessAt levels)) n scope e a.world = .ok v u →
      Script.eval (hostOf (accessAt levels)) (n + 1) scope (.assign none (.variable name) e) a.world
        = .ok v a.final ∧ u.heap.Assigns a.final.heap name v scope
  /-- A block, a loop with a variable of its own or a call gives no name in a scope that was there.
  -/
  names : ∀ levels n t, a.activity = .script levels n t → t.Encloses →
    ∀ ref x, ref.index < a.world.heap.frames.size →
      (a.final.heap.Binds (some ref) x ↔ a.world.heap.Binds (some ref) x)
  /-- If no code assigns a name, it changes no variable of that name that was there. -/
  values : ∀ levels n t, a.activity = .script levels n t → t.Encloses →
    ∀ x, Site.assigned x ∉ t.sites →
      (∀ (i : Nat) (c : Script.Closure), a.world.heap.closures[i]? = some c →
        Site.assigned x ∉ c.function.sites) →
      ∀ p, ¬a.world.heap.Fresh p → a.final.heap.binding p x = a.world.heap.binding p x

theorem lexicallyScoped_of_sound (ha : a.Sound fun _ ↦ True) : a.LexicallyScoped where
  closures := Heap.sound_true_iff.1 ha.heap
  rooted levels n t ht := by
    have hactivity := ha.activity
    rw [ht] at hactivity
    exact hactivity.rooted
  assigns levels n scope name e ht v u hv := by
    obtain ⟨activity, w⟩ := a
    subst ht
    have hassign := Script.eval_assign_of_ok (hostOf (accessAt levels)) name hv
    have hfinal : final ⟨.script levels (n + 1) (.eval scope (.assign none (.variable name) e)), w⟩
        = u.mapHeap fun h ↦ h.assign name v scope := by
      rw [final, Task.run, Action.state_forget, hassign]
      rfl
    rw [hfinal]
    exact ⟨hassign, u.heap.assigns_assign name v scope⟩
  names levels n t ht hencloses ref x href := by
    have hrebinds := rebinds_final ha
    have hopens : a.opens = ∅ := by rw [opens, ht]; exact hencloses.opens_eq
    rw [hopens] at hrebinds
    refine ⟨fun hbinds ↦ ?_, hrebinds.kept (some ref) x⟩
    rcases hrebinds.named (some ref) x hbinds with hold | ⟨hglobal, -⟩ | ⟨hplace, -⟩
    · exact hold
    · exact absurd hglobal (Option.some_ne_none ref)
    · obtain ⟨other, heq, hnew⟩ := hplace.resolve_left (Set.notMem_empty _)
      cases heq
      exact absurd href (Nat.not_lt_of_le hnew)
  values levels n t ht hencloses x hsites hclosures p hp := by
    -- The code in the world and the task has sites of all other kinds.
    have hheap : a.world.heap.Sound fun s ↦ s ≠ .assigned x := fun i c hc ↦
      ⟨(ha.heap i c hc).1, fun s hs heq ↦ hclosures i c hc (heq ▸ hs)⟩
    have hactivity := ha.activity
    rw [ht] at hactivity
    have hsound : a.Sound fun s ↦ s ≠ .assigned x := by
      refine ⟨hheap, ?_⟩
      rw [ht]
      exact ⟨hactivity.rooted, fun s hs heq ↦ hsites (heq ▸ hs), hencloses.hoisted _ _⟩
    have hrebinds := rebinds_final hsound
    have hopens : a.opens = ∅ := by rw [opens, ht]; exact hencloses.opens_eq
    rw [hopens] at hrebinds
    rcases hrebinds.valued p x with heq | hassigned | ⟨hplace, -⟩
    · exact heq
    · exact absurd rfl hassigned
    · exact absurd (hplace.resolve_left (Set.notMem_empty _)) hp

end Moment

/-- In every world that a host can reach the scopes of all closures are in order, and in every world
in which they are, whatever is started: at every moment of the run, on every chain of scripts and
writes that are under way, the rules of lexical scope hold, and the scopes are in order again
afterwards. -/
theorem World.lexically_scoped :
    (∀ w : World, w.Reachable → w.heap.WellScoped) ∧
    ∀ (w : World) (start : Activity) (k : Nat) (a : Moment), w.heap.WellScoped →
      start.Rooted w.heap → Moment.Within ⟨start, w⟩ k a →
        a.LexicallyScoped ∧ a.final.heap.WellScoped := by
  refine ⟨fun w hw ↦ hw.wellScoped, fun w start k a hw hstart ha ↦ ?_⟩
  have hsound : Moment.Sound (fun _ ↦ True) ⟨start, w⟩ := by
    refine ⟨Heap.sound_true_iff.2 hw, ?_⟩
    cases start with
    | script levels n t => exact ⟨hstart, fun _ _ ↦ trivial, t.hoisted_true _⟩
    | write => trivial
  obtain ⟨-, ha⟩ := Moment.rebinds_of_within hsound ha
  exact ⟨Moment.lexicallyScoped_of_sound ha,
    Heap.sound_true_iff.1 (Moment.rebinds_final ha).sound⟩

/-- World with a global variable `x`. -/
def World.withVariable : World :=
  (World.create 256 16).mapHeap fun h ↦ h.bindGlobal "x" (.bool true)

/-- An assignment to a new name, and a block with a variable of its own that has the name of a
global one. -/
theorem World.lexically_scoped_block :
    World.withVariable.heap.WellScoped ∧
      (Moment.final ⟨.script none 8 (.eval [] (.assign none (.variable "y") (.variable "x"))),
        World.withVariable⟩).heap.lookup "y" [] = some (.bool true) ∧
      (Moment.final ⟨.script none 8 (.exec [] (.block [.declare [("x", some .null)]])),
        World.withVariable⟩).heap.binding none "x" = World.withVariable.heap.binding none "x" := by
  have hscoped : World.withVariable.heap.WellScoped := fun n c hc ↦ nomatch hc
  refine ⟨hscoped, ?_, ?_⟩
  · have hrules := (World.lexically_scoped.2 World.withVariable
      (.script none 8 (.eval [] (.assign none (.variable "y") (.variable "x")))) 0 _ hscoped
      (Heap.rooted_nil _) .start).1
    have hread : Script.eval (hostOf (accessAt none)) 7 [] (.variable "x") World.withVariable
        = .ok (.bool true) World.withVariable := rfl
    exact (hrules.assigns none 7 [] "y" _ rfl _ _ hread).2.lookup
  · have hrules := (World.lexically_scoped.2 World.withVariable
      (.script none 8 (.exec [] (.block [.declare [("x", some .null)]]))) 0 _ hscoped
      (Heap.rooted_nil _) .start).1
    refine hrules.values none 8 _ rfl trivial "x" ?_ (fun i c hc ↦ nomatch hc) none ?_
    · simp [Task.sites, Stmt.sites, Stmt.sitesOfAll, Stmt.sitesOfDeclared, Stmt.declaration,
        Expr.sitesOfOption, Expr.sites]
    · rintro ⟨ref, hplace, -⟩
      cases hplace

end ReactiveFrames
