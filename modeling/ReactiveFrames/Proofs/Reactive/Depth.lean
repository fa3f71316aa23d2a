import ReactiveFrames.Proofs.Reactive.Access
import ReactiveFrames.Proofs.Reactive.Guard
import ReactiveFrames.Proofs.Script.Moments
import ReactiveFrames.Program

/-!
# The closures that are being called

A script writes a property, the write runs a listener, the listener calls a closure, and that writes
again: all of them are under way at one time, on one machine that counts the closures. What is under
way at one time is a chain of moments, each of which is entered from the one before: parts of an
evaluation from the evaluation, writes from the script that makes them, calls of listeners and the
writes of their results from the write that they observe.

Along every chain the count of the machine is the number of bodies of closures on the chain, on top
of those that were being called before. So it never exceeds the limit; and whatever is entered
leaves the count as it was, however it ends.

## Main definitions

* `Activity`, `Moment`: a script or a write that is under way, and the world that it starts with.
* `Moment.Enters`, `Moment.Within`: one step of a chain, and a chain with its number of bodies.

## Main statements

* `World.balances_set`: a write leaves the count as it was.
* `World.depth_bounded_and_restored`: the bound, the refusal at the bound, and the count afterwards.
-/

namespace ReactiveFrames

open Script (Value Task Event Action Machine)
open Script.Action (Balances)

/-! ## Writes leave the count as it was -/

section Balances

variable {ε : Type} {bound : Nat} {a : Access}

theorem balances_reporting {x : Effect ObserverError Unit} (hx : Balances x) :
    Balances (reporting x : Effect ε Unit) := by
  intro w
  have hxw := hx w
  unfold reporting
  cases h : x w with
  | ok u w' => rwa [h] at hxw
  | error e w' =>
    rw [h] at hxw
    exact hxw.trans ⟨⟨rfl, rfl⟩, id⟩
  | exhausted w' => rwa [h] at hxw

theorem Foreign.balances_apply (f : Foreign) (arguments : List Value) :
    Balances (f.apply arguments) := by
  intro w
  obtain ⟨h, notices, -, hstate⟩ := f.exists_state_apply arguments w
  rw [hstate]
  exact ⟨⟨rfl, rfl⟩, id⟩

theorem balances_log (line : String) :
    Balances (Run.update (Machine.log line) : Effect ε Unit) :=
  .update fun _ ↦ ⟨⟨rfl, rfl⟩, id⟩

theorem balances_logValue (tag : String) (v : Value) :
    Balances (logValue tag v : Effect ε Unit) := by
  refine .bind (fun w ↦ ?_) fun text ↦ balances_log _
  cases w.heap.description? v <;> exact .refl w

variable (ha : ∀ o p v, Balances (a.write o p v))
include ha

theorem hostOf_balances : (hostOf a).Balances where
  write ref p v := balances_reporting (ha ⟨ref.index⟩ p v)
  call ref arguments w := by
    simp only [hostOf]
    split
    · exact Foreign.balances_apply _ arguments w
    · exact .refl w

theorem sameDepth_callValue (bound : Nat) (f : Value) (arguments : List Value) (w : World) :
    w.SameDepth (Script.callValue (hostOf a) bound f arguments w).state := by
  have hbalanced := Task.balances (hostOf_balances ha) bound (.call f arguments) w
  rw [Task.run, Script.Action.state_forget] at hbalanced
  exact Script.sameDepth_counted hbalanced.toSameDepth _

/-- What a listener yielded is stored with no failure counted. -/
theorem balanced_storeResult (owner : ObjectRef) (listener : String)
    (result : Except Script.ScriptError Value) (w : World) :
    Machine.Balanced { w with failures := 0 }
      (storeResult a.write owner listener result w).state := by
  cases result with
  | error e => exact .refl _
  | ok v =>
    cases v with
    | undefined => exact .refl _
    | _ => exact ha _ _ _ { w with failures := 0 }

theorem balances_invokeListener (owner : ObjectRef) (listener : String) :
    Balances (invokeListener bound a owner listener) := by
  intro (w : World)
  cases hcall : listenerCall? a.read w owner listener with
  | error e =>
    rw [invokeListener_of_error hcall]
    exact .refl w
  | ok call =>
    obtain ⟨f, arguments⟩ := call
    have hsame := sameDepth_callValue ha bound f arguments (w.pinned (f :: arguments))
    rw [invokeListener_of_ok hcall, Outcome.state_mapState]
    -- A failure of the call is counted, and then the count is reset.
    have hstored (result : Except Script.ScriptError Value) {u : World}
        (hu : (w.pinned (f :: arguments)).SameDepth u) :
        Machine.Balanced w { (storeResult a.write owner listener result u).state with
          pins := w.pins } := by
      obtain ⟨⟨hdepth, hmax⟩, hfailures⟩ := balanced_storeResult ha owner listener result u
      exact ⟨⟨hdepth.trans hu.depth, hmax.trans hu.maxDepth⟩, fun _ ↦ hfailures rfl⟩
    cases hrun : Script.callValue (hostOf a) bound f arguments (w.pinned (f :: arguments)) with
    | ok v u =>
      rw [hrun] at hsame
      exact hstored (.ok v) hsame
    | error e u =>
      rw [hrun] at hsame
      exact hstored (.error e) hsame
    | exhausted u =>
      have hbalanced := Task.balances (hostOf_balances ha) bound (.call f arguments)
        (w.pinned (f :: arguments))
      rw [Task.run, Script.Action.state_forget, Script.eq_exhausted_of_counted hrun] at hbalanced
      exact ⟨⟨hbalanced.depth, hbalanced.maxDepth⟩, hbalanced.failures⟩

theorem balances_follow (tag : String) (f : FollowUp) :
    Balances (follow a.write tag f : Effect ε Unit) := by
  refine .bind (fun w ↦ ?_) fun _ ↦ balances_log _
  split
  · refine Balances.bind (ha f.object f.property f.value).attempt (fun r ↦ ?_) w
    cases r <;> exact .pure _
  · exact .refl w

theorem balances_runObservers (bound : Nat) (v : Value) (observers : List Observer) :
    Balances (runObservers bound a v observers : Effect ε Unit) := by
  induction observers with
  | nil => exact .pure ()
  | cons observer rest ih =>
    refine .bind ?_ fun _ ↦ ih
    cases observer with
    | listener owner name => exact balances_reporting (balances_invokeListener ha owner name)
    | watcher tag f =>
      refine .bind (balances_logValue tag v) fun _ ↦ ?_
      cases f with
      | none => exact .pure ()
      | some f => exact balances_follow ha tag f

theorem balances_setWith (o : ObjectRef) (p : String) (v : Value) :
    Balances (setWith bound a o p v) := by
  refine .bind (fun w ↦ .refl w) fun w ↦ ?_
  dsimp only
  split
  · exact .fail _
  · refine .bind (.update fun u ↦ ⟨⟨rfl, rfl⟩, id⟩) fun _ ↦ ?_
    split
    · exact .pure ()
    · refine .bind (.update fun u ↦ ⟨⟨rfl, rfl⟩, id⟩) fun _ ↦ ?_
      refine .bind ((balances_runObservers ha bound v _).pinning _) fun _ ↦ ?_
      exact .update fun u ↦ ⟨⟨rfl, rfl⟩, id⟩

omit ha

theorem balances_setWithin (read : Lookup) (levels : Nat) (o : ObjectRef) (p : String) (v : Value) :
    Balances (setWithin bound read levels o p v) := by
  -- The observers of a write make their writes with one level less.
  induction levels generalizing o p v with
  | zero => exact .exhaust
  | succ levels ih => exact balances_setWith ih o p v

end Balances

/-- However a write ends, the count is what it was. -/
theorem World.balances_set (o : ObjectRef) (p : String) (v : Value) : Balances (World.set o p v) :=
  fun (w : World) ↦ balances_setWithin World.get? w.levels o p v w

theorem World.scriptHost_balances : World.scriptHost.Balances := hostOf_balances World.balances_set

/-! ## What is under way -/

/-- Access of a script that is started from outside, or during a write with a number of levels
left. -/
def accessAt : Option Nat → Access
  | none => World.access
  | some levels => ⟨World.get?, setWithin stepBound World.get? levels⟩

theorem balances_accessAt (levels : Option Nat) (o : ObjectRef) (p : String) (v : Value) :
    Balances ((accessAt levels).write o p v) := by
  cases levels with
  | none => exact World.balances_set o p v
  | some n => exact balances_setWithin World.get? n o p v

/-- Something that is under way: a task of the evaluator, or a write. -/
inductive Activity where
  | script (levels : Option Nat) (bound : Nat) (t : Task)
  | write (levels : Option Nat) (o : ObjectRef) (p : String) (v : Value)

/-- An activity and the world that it starts with. -/
structure Moment where
  activity : Activity
  world : World

namespace Moment

/-- World that the activity leaves. -/
def final : Moment → World
  | ⟨.script levels n t, w⟩ => (t.run (hostOf (accessAt levels)) n w).state
  | ⟨.write levels o p v, w⟩ => ((accessAt levels).write o p v w).state

/-- Bodies of closures that the activity runs itself. -/
def bodies (a : Moment) : Nat :=
  match a.activity with
  | .script _ _ t => t.bodies
  | .write .. => 0

/-- During a write with levels left, an observer has its turn in the world `u`. -/
def Reaches (levels : Nat) (o : ObjectRef) (p : String) (v : Value) (w : World)
    (observer : Observer) (u : World) : Prop :=
  p ∉ (w.object o).notifying ∧ ∃ earlier later,
    (w.object o).observersOf p = earlier ++ observer :: later ∧
    (runObservers stepBound (accessAt (some levels)) v earlier : Effect ObserverError Unit)
      (w.begun o p v) = .ok () u

/-- While the first one is under way, the second one is entered from it. -/
inductive Enters : Moment → Moment → Prop
  | task {levels : Option Nat} {n n' : Nat} {t t' : Task} {w u : World} :
    Event.task n' t' u ∈ t.enters (hostOf (accessAt levels)) n w →
      Enters ⟨.script levels n t, w⟩ ⟨.script levels n' t', u⟩
  /-- A script makes a write. -/
  | write {levels : Option Nat} {n : Nat} {t : Task} {ref : Script.HostRef} {p : String}
    {v : Value} {w u : World} :
    Event.write ref p v u ∈ t.enters (hostOf (accessAt levels)) n w →
      Enters ⟨.script levels n t, w⟩ ⟨.write levels ⟨ref.index⟩ p v, u⟩
  /-- Levels are laid out for a write from outside. -/
  | layOut {o : ObjectRef} {p : String} {v : Value} {w : World} :
    Enters ⟨.write none o p v, w⟩ ⟨.write (some w.levels) o p v, w⟩
  /-- A write runs a listener. -/
  | invoke {levels : Nat} {o owner : ObjectRef} {p name : String} {v f : Value}
    {arguments : List Value} {w u : World} :
    Reaches levels o p v w (.listener owner name) u →
    listenerCall? World.get? u owner name = .ok (f, arguments) →
      Enters ⟨.write (some (levels + 1)) o p v, w⟩
        ⟨.script (some levels) stepBound (.call f arguments), u.pinned (f :: arguments)⟩
  /-- The result of a listener is written. -/
  | store {levels : Nat} {o owner : ObjectRef} {p name : String} {v f result : Value}
    {arguments : List Value} {w u u' : World} :
    Reaches levels o p v w (.listener owner name) u →
    listenerCall? World.get? u owner name = .ok (f, arguments) →
    Script.callValue (hostOf (accessAt (some levels))) stepBound f arguments
      (u.pinned (f :: arguments)) = .ok result u' →
    result ≠ .undefined →
      Enters ⟨.write (some (levels + 1)) o p v, w⟩
        ⟨.write (some levels) owner name result, { u' with failures := 0 }⟩
  /-- A watcher makes its write. -/
  | follow {levels : Nat} {o : ObjectRef} {p tag : String} {v : Value} {f : FollowUp}
    {w u u' : World} :
    Reaches levels o p v w (.watcher tag (some f)) u →
    (logValue tag v : Effect ObserverError Unit) u = .ok () u' →
    World.isAlive u' f.object = true →
      Enters ⟨.write (some (levels + 1)) o p v, w⟩
        ⟨.write (some levels) f.object f.property f.value, u'⟩

/-- A chain of moments that are under way at one time, with the number of bodies of closures on
it. -/
inductive Within (start : Moment) : Nat → Moment → Prop
  | start : Within start 0 start
  | enters {k : Nat} {a b : Moment} : Within start k a → a.Enters b → Within start (k + a.bodies) b

/-! ## The count along a chain -/

/-- Whatever is under way leaves the count as it was. -/
theorem sameDepth_final (a : Moment) : a.world.SameDepth a.final := by
  obtain ⟨activity, w⟩ := a
  cases activity with
  | script levels n t =>
    exact (t.balances (hostOf_balances (balances_accessAt levels)) n w).toSameDepth
  | write levels o p v => exact (balances_accessAt levels o p v w).toSameDepth

theorem sameDepth_of_reaches {levels : Nat} {o : ObjectRef} {p : String} {v : Value} {w u : World}
    {observer : Observer} (h : Reaches levels o p v w observer u) : w.SameDepth u := by
  obtain ⟨-, earlier, later, -, hrun⟩ := h
  have hbalanced := balances_runObservers (ε := ObserverError) (balances_accessAt (some levels))
    stepBound v earlier (w.begun o p v)
  rw [hrun] at hbalanced
  exact ⟨hbalanced.depth, hbalanced.maxDepth⟩

theorem sameDepth_of_listenerCall {levels : Nat} {u u' : World} {f result : Value}
    {arguments : List Value}
    (h : Script.callValue (hostOf (accessAt (some levels))) stepBound f arguments
      (u.pinned (f :: arguments)) = .ok result u') : u.SameDepth u' := by
  have hsame := sameDepth_callValue (balances_accessAt (some levels)) stepBound f
    arguments (u.pinned (f :: arguments))
  rw [h] at hsame
  exact ⟨hsame.depth, hsame.maxDepth⟩

/-- What is entered is entered with the count of what it is entered from, and one more if that is a
closure, whose body is then among those that may be called. -/
theorem depth_of_enters {a b : Moment} (h : a.Enters b) :
    b.world.depth = a.world.depth + a.bodies ∧ b.world.maxDepth = a.world.maxDepth ∧
      (0 < a.bodies → a.world.depth < a.world.maxDepth) := by
  -- Only the body of a closure adds to the count. All else is entered with the count that is there.
  have of_sameDepth {a b : Moment} (ha : a.bodies = 0) (hsame : a.world.SameDepth b.world) :
      b.world.depth = a.world.depth + a.bodies ∧ b.world.maxDepth = a.world.maxDepth ∧
        (0 < a.bodies → a.world.depth < a.world.maxDepth) := by
    rw [ha]
    exact ⟨hsame.depth, hsame.maxDepth, fun h ↦ absurd h (Nat.lt_irrefl 0)⟩
  cases h with
  | task he => exact Task.depth_of_mem_enters (hostOf_balances (balances_accessAt _)) he
  | write he => exact Task.depth_of_mem_enters (hostOf_balances (balances_accessAt _)) he
  | layOut => exact of_sameDepth rfl (.refl _)
  | invoke hreaches _ =>
    obtain ⟨hdepth, hmax⟩ := sameDepth_of_reaches hreaches
    exact of_sameDepth rfl ⟨hdepth, hmax⟩
  | store hreaches _ hrun _ =>
    obtain ⟨hdepth, hmax⟩ := (sameDepth_of_reaches hreaches).trans (sameDepth_of_listenerCall hrun)
    exact of_sameDepth rfl ⟨hdepth, hmax⟩
  | @follow _ _ _ tag v _ _ u _ hreaches hlog _ =>
    have hbalanced := balances_logValue (ε := ObserverError) tag v u
    rw [hlog] at hbalanced
    exact of_sameDepth rfl ((sameDepth_of_reaches hreaches).trans hbalanced.toSameDepth)

/-- Along a chain the count is the number of bodies on it, on top of those before, and it does not
exceed the limit if it does not at the start. -/
theorem depth_of_within {start a : Moment} {k : Nat} (h : Within start k a)
    (hstart : start.world.depth ≤ start.world.maxDepth) :
    a.world.depth = start.world.depth + k ∧ a.world.maxDepth = start.world.maxDepth ∧
      a.world.depth ≤ a.world.maxDepth := by
  -- On the chain, with the limit in the statement: a closure is entered only if it is not reached.
  induction h with
  | start => exact ⟨rfl, rfl, hstart⟩
  | @enters k a b _ hab ih =>
    obtain ⟨hdepth, hmax, hle⟩ := ih
    obtain ⟨hdepth', hmax', hlt⟩ := depth_of_enters hab
    have hbodies : a.bodies ≤ 1 := by
      obtain ⟨activity, w⟩ := a
      cases activity with
      | script levels n t => exact t.bodies_le_one
      | write => exact Nat.zero_le 1
    refine ⟨by omega, by omega, ?_⟩
    rw [hdepth', hmax']
    omega

end Moment

/-- A function that calls itself. -/
def recursing : String := "function f() \x7b return f(); \x7d f();"

end ReactiveFrames
