import ReactiveFrames.Proofs.Reactive.Depth
import ReactiveFrames.Proofs.Reactive.ObjectTree
import ReactiveFrames.Proofs.Reactive.Propagation
import ReactiveFrames.Proofs.Script.Exchange

/-!
# What a write reaches

A write runs the observers of its property, and each of these may write again. If the bodies of the
listeners make no writes by themselves, then the only writes under way are those of what listeners
yield, and each of them is a write of a property that depends on the one that is written first. So
a write changes nothing that does not depend on its property, and runs no observers of such a
property. This holds of cyclic graphs, in which some of the writes are refused, and of listeners
that fail or yield nothing.

A body makes no write if it ends alike however writes are answered (`World.SilentAt`). It then ends
with a host that gives up on writes, and along a chain of moments that is all that has to be known
of a script (`Moment.Confined`): one lemma says that every moment of a chain is confined, and from
there the induction is on the levels of writes.

## Main definitions

* `World.SilentAt`, `Moment.Silent`: bodies that make no writes.
* `World.Fed`: the observers in a tree are listeners that point at what they observe.
* `Moment.Runs`: an observer has its turn in the course of a write.

## Main statements

* `Moment.confined_of_within`: what is under way after a write.
* `Moment.get?_of_within`: what a write leaves as it was.
* `Moment.silent_of_evolves`, `World.silentAt_of_plainListeners`: reasons for making no writes.
-/

open Filter

namespace ReactiveFrames

open Script (Value Host Task)
open Relation (ReflTransGen TransGen)

/-! ## Worlds during a write -/

/-- What becomes of a world while properties are written: its objects are wired alike, and its
closures are still there. -/
structure World.Evolves (w w' : World) : Prop extends w.SameWiring w' where
  heap : w.heap.Extends w'.heap

namespace World.Evolves

variable {w w' w'' : World}

protected theorem refl (w : World) : w.Evolves w := ⟨.refl w, .refl _⟩

protected theorem trans (h₁ : w.Evolves w') (h₂ : w'.Evolves w'') : w.Evolves w'' :=
  ⟨h₁.toSameWiring.trans h₂.toSameWiring, h₁.heap.trans h₂.heap⟩

theorem of_drifts (h : w.Drifts w') : w.Evolves w' := ⟨.of_objects h.objects, h.heap⟩

theorem of_keeps (h : w.Keeps w') : w.Evolves w' := ⟨h.toSameWiring, h.heap⟩

theorem begun (w : World) (o : ObjectRef) (p : String) (v : Value) : w.Evolves (w.begun o p v) :=
  ⟨w.sameWiring_begun o p v, .refl _⟩

/-- Observers that are run evolve the world. -/
theorem runObservers {levels : Nat} {v : Value} {observers : List Observer}
    (h : (ReactiveFrames.runObservers stepBound (accessAt (some levels)) v observers :
      Effect ObserverError Unit) w = .ok () w') : w.Evolves w' := by
  have hdrift : DriftClosed w.Evolves := fun _ _ hd hu ↦ hu.trans (.of_drifts hd)
  have haccess : (accessAt (some levels)).Tracks w.Evolves fun _ ↦ accessAt (some levels) := {
    read := fun _ _ _ _ ↦ .of_forall fun _ ↦ rfl
    write := fun o p v u hu hr ↦
      ⟨hu.trans (.of_keeps (keeps_setWithin _ _ _ o p v u hr)), .of_forall fun _ ↦ rfl⟩ }
  have htracks := tracks_runObservers (n := stepBound) (b := fun _ ↦ stepBound)
    (ε := ObserverError) hdrift haccess (.of_forall fun _ ↦ le_rfl) v observers
  exact (htracks.of_ok (.refl w) h).1

end World.Evolves

/-! ## Calls that make no write -/

section Silent

variable {levels : Option Nat} {f : Value} {arguments : List Value} {w : World}

/-- A call that makes no write does not notice if writes are given up. -/
theorem callValue_withoutWrites
    (hsilent : MakesOnly ∅ World.scriptHost fun h ↦ Script.callValue h stepBound f arguments w)
    (hr : (Script.callValue (hostOf (accessAt levels)) stepBound f arguments w).Returns) :
    Script.callValue (hostOf (accessAt levels)).withoutWrites stepBound f arguments w
      = Script.callValue (hostOf (accessAt levels)) stepBound f arguments w := by
  have hread : (hostOf (accessAt levels)).read = World.scriptHost.read := by cases levels <;> rfl
  have hnone {h h' : Host ObjectGraph} (ref : Script.HostRef) (p : String) (v : Value) (u : World)
      (hmem : (⟨⟨ref.index⟩, p, v, u⟩ : Call) ∈ (∅ : Set Call)) :
      h.write ref p v u = h'.write ref p v u := hmem.elim
  have hsame := hsilent (hostOf (accessAt levels)) hread rfl hnone (.inl hr)
  have hgiven := hsilent (hostOf (accessAt levels)).withoutWrites hread rfl hnone
    (.inr (hsame ▸ hr))
  exact hgiven.trans hsame.symm

/-- While writes are given up, a call that comes to its end lets the world drift. -/
theorem drifts_callValue_withoutWrites {a : Access}
    (hr : (Script.callValue (hostOf a).withoutWrites stepBound f arguments w).Returns) :
    w.Drifts (Script.callValue (hostOf a).withoutWrites stepBound f arguments w).state := by
  have hgrowth : Script.Machine.GrowthClosed w.Drifts := fun _ _ hg hu ↦ hu.trans (.of_grows hg)
  have hhost : (hostOf a).withoutWrites.Tracks w.Drifts fun _ ↦ (hostOf a).withoutWrites := by
    refine ⟨fun _ _ _ _ ↦ .of_forall fun _ ↦ rfl, fun _ _ _ ↦ .exhaust, fun ref vs ↦ ?_⟩
    refine .of_preserves fun u hu ↦ hu.trans ?_
    change World.Drifts u ((hostOf a).call ref vs u).state
    simp only [hostOf]
    split
    · exact Foreign.drifts_apply _ _ u
    · exact .refl u
  have htracks := Script.tracks_callValue hgrowth hhost (b := fun _ ↦ stepBound)
    (.of_forall fun _ ↦ le_rfl) f arguments
  exact (htracks w (.refl w) hr).1

end Silent

/-! ## The listeners that a write runs -/

/-- The body of the listener `y`, if it is called, makes no write: however writes were answered, the
call would end alike. It may fail, or yield no value. -/
def World.SilentAt (w : World) (y : Place) : Prop :=
  ∀ f arguments, listenerCall? World.get? w y.1 y.2 = .ok (f, arguments) →
    MakesOnly ∅ World.scriptHost
      fun h ↦ Script.callValue h stepBound f arguments (w.pinned (f :: arguments))

section Invoke

variable {levels : Nat} {y : Place} {u u' : World} {f result : Value} {arguments : List Value}

/-- The call of a listener that is run comes to its end, and would do so if writes were given up. -/
theorem callValue_of_silentAt
    (hr : (invokeListener stepBound (accessAt (some levels)) y.1 y.2 u).Returns)
    (hsilent : u.SilentAt y) (hcall : listenerCall? World.get? u y.1 y.2 = .ok (f, arguments)) :
    (Script.callValue (hostOf (accessAt (some levels))) stepBound f arguments
        (u.pinned (f :: arguments))).Returns ∧
      Script.callValue (hostOf (accessAt (some levels))).withoutWrites stepBound f arguments
          (u.pinned (f :: arguments))
        = Script.callValue (hostOf (accessAt (some levels))) stepBound f arguments
          (u.pinned (f :: arguments)) := by
  rw [invokeListener_of_ok (a := accessAt (some levels)) hcall, Outcome.returns_mapState] at hr
  have hreturns : (Script.callValue (hostOf (accessAt (some levels))) stepBound f arguments
      (u.pinned (f :: arguments))).Returns := by
    cases hrun : Script.callValue (hostOf (accessAt (some levels))) stepBound f arguments
      (u.pinned (f :: arguments)) with
    | exhausted u' =>
      rw [hrun] at hr
      exact hr
    | _ => trivial
  exact ⟨hreturns, callValue_withoutWrites (hsilent f arguments hcall) hreturns⟩

/-- The call of a listener lets the world drift. -/
theorem drifts_of_silentAt
    (hr : (invokeListener stepBound (accessAt (some levels)) y.1 y.2 u).Returns)
    (hsilent : u.SilentAt y) (hcall : listenerCall? World.get? u y.1 y.2 = .ok (f, arguments)) :
    u.Drifts (Script.callValue (hostOf (accessAt (some levels))) stepBound f arguments
      (u.pinned (f :: arguments))).state := by
  obtain ⟨hreturns, hsame⟩ := callValue_of_silentAt hr hsilent hcall
  rw [← hsame] at hreturns ⊢
  exact (u.drifts_pinned _).trans (drifts_callValue_withoutWrites hreturns)

/-- A listener that is run stores what its call yields. -/
theorem invokeListener_of_result
    (hcall : listenerCall? World.get? u y.1 y.2 = .ok (f, arguments))
    (hrun : Script.callValue (hostOf (accessAt (some levels))) stepBound f arguments
      (u.pinned (f :: arguments)) = .ok result u') (hresult : result ≠ .undefined) :
    invokeListener stepBound (accessAt (some levels)) y.1 y.2 u
      = (setWithin stepBound World.get? levels y.1 y.2 result { u' with failures := 0 }).mapState
        fun w' ↦ { w' with pins := u.pins } := by
  rw [invokeListener_of_ok (a := accessAt (some levels)) hcall, hrun]
  exact congrArg (Outcome.mapState _) (World.storeResult_ok hresult u')

/-- A listener that is run changes nothing but what the write of its result does. -/
theorem get?_invokeListener {x : Place}
    (hr : (invokeListener stepBound (accessAt (some levels)) y.1 y.2 u).Returns)
    (hsilent : u.SilentAt y)
    (hstore : ∀ f arguments result (u' : World),
      listenerCall? World.get? u y.1 y.2 = .ok (f, arguments) →
      Script.callValue (hostOf (accessAt (some levels))) stepBound f arguments
        (u.pinned (f :: arguments)) = .ok result u' → result ≠ .undefined →
      (setWithin stepBound World.get? levels y.1 y.2 result
        { u' with failures := 0 }).state.get? x.1 x.2 = u'.get? x.1 x.2) :
    (invokeListener stepBound (accessAt (some levels)) y.1 y.2 u).state.get? x.1 x.2
      = u.get? x.1 x.2 := by
  cases hcall : listenerCall? World.get? u y.1 y.2 with
  | error e =>
    rw [invokeListener_of_error (a := accessAt (some levels)) hcall]
    rfl
  | ok call =>
    obtain ⟨f, arguments⟩ := call
    have hdrift := (drifts_of_silentAt hr hsilent hcall).get? x.1 x.2
    cases hrun : Script.callValue (hostOf (accessAt (some levels))) stepBound f arguments
      (u.pinned (f :: arguments)) with
    | exhausted u' =>
      exact absurd (callValue_of_silentAt hr hsilent hcall).1 (by rw [hrun]; exact id)
    | error e u' =>
      -- The call fails, and this is what the invocation fails with.
      rw [hrun] at hdrift
      rw [invokeListener_of_ok (a := accessAt (some levels)) hcall, hrun]
      exact hdrift
    | ok result u' =>
      rw [hrun] at hdrift
      by_cases hresult : result = .undefined
      · rw [invokeListener_of_ok (a := accessAt (some levels)) hcall, hrun, hresult]
        exact hdrift
      · rw [invokeListener_of_result hcall hrun hresult, Outcome.state_mapState]
        exact (hstore f arguments result u' hcall hrun hresult).trans hdrift

/-- The report of a failure changes no property. -/
theorem get?_of_reporting {ε : Type} {x : Effect ObserverError Unit} {w w' : World}
    (h : (reporting x : Effect ε Unit) w = .ok () w') (y : Place) :
    w'.get? y.1 y.2 = (x w).state.get? y.1 y.2 := by
  obtain hrun | ⟨e, u, hrun, rfl⟩ := reporting_eq_ok.1 h
  · rw [hrun]
    rfl
  · rw [hrun]
    rfl

/-- A watcher that writes nothing changes no property. -/
theorem get?_of_watcher {ε : Type} {a : Access} {v : Value} {tag : String} {w w' : World}
    (h : (runObserver stepBound a v (.watcher tag none) : Effect ε Unit) w = .ok () w')
    (y : Place) : w'.get? y.1 y.2 = w.get? y.1 y.2 := by
  obtain ⟨_, u, hlog, hdone⟩ := Run.bind_eq_ok.1 h
  cases hdone
  obtain ⟨text, u, htext, hlog⟩ := Run.bind_eq_ok.1 hlog
  cases hdescription : w.heap.description? v with
  | none =>
    rw [hdescription] at htext
    cases htext
  | some text =>
    rw [hdescription] at htext
    cases htext
    cases hlog
    rfl

end Invoke

/-! ## What is under way -/

/-- The objects of the tree at `root` are still there, and what observes them are listeners of the
tree that point, in `g`, at what they observe, and watchers that write nothing. -/
structure World.Fed (g : World) (root : ObjectRef) (w : World) : Prop where
  size : g.host.objects.size ≤ w.host.objects.size
  observer : ∀ x : Place, g.Below root x.1 → ∀ observer ∈ (w.object x.1).observersOf x.2,
    (∃ tag, observer = .watcher tag none) ∨
      ∃ y : Place, observer = .listener y.1 y.2 ∧ g.Feeds x y ∧ g.Below root y.1

namespace World.Fed

variable {g w w' : World} {root : ObjectRef}

theorem of_observersOf (h : g.Fed root w)
    (hsize : w.host.objects.size ≤ w'.host.objects.size)
    (hobservers : ∀ x : Place, g.Below root x.1 →
      (w'.object x.1).observersOf x.2 = (w.object x.1).observersOf x.2) : g.Fed root w' := by
  refine ⟨h.size.trans hsize, fun x hx observer hobserver ↦ ?_⟩
  rw [hobservers x hx] at hobserver
  exact h.observer x hx observer hobserver

theorem sameWiring (h : g.Fed root w) (hw : w.SameWiring w') : g.Fed root w' :=
  h.of_observersOf hw.size.ge fun x _ ↦ hw.observersOf x.1 x.2

end World.Fed

namespace Moment

/-- In the course of a moment, an observer of `x` has its turn in the world `u`. -/
def Runs (start : Moment) (x : Place) (observer : Observer) (u : World) : Prop :=
  ∃ k levels v w, Within start k ⟨.write (some (levels + 1)) x.1 x.2 v, w⟩ ∧
    Reaches levels x.1 x.2 v w observer u

/-- The bodies of the listeners that are run in the course of a moment make no writes. -/
def Silent (start : Moment) : Prop :=
  ∀ (x y : Place) (u : World), start.Runs x (.listener y.1 y.2) u → u.SilentAt y

/-- What is under way after a write of `x` in `w`: a write of what depends on `x`, which comes to
its end, or a script that comes to its end without a write. -/
def Confined (g : World) (root : ObjectRef) (x : Place) (w : World) (a : Moment) : Prop :=
  match a.activity with
  | .script levels n t => (t.run (hostOf (accessAt levels)).withoutWrites n a.world).Returns
  | .write levels o p v => g.Below root o ∧ ReflTransGen g.Feeds x (o, p) ∧ w.Evolves a.world ∧
    ((accessAt levels).write o p v a.world).Returns

section Confined

variable {g w : World} {root : ObjectRef} {x : Place} {v : Value}

/-- An observer that has its turn during a write is a watcher that writes nothing, or a listener
that depends on what is written. -/
theorem observer_of_reaches (hfed : g.Fed root w) {levels : Nat} {o : ObjectRef} {p : String}
    {b u : World} {observer : Observer}
    (h : Confined g root x w ⟨.write (some (levels + 1)) o p v, b⟩)
    (hreaches : Reaches levels o p v b observer u) :
    (∃ tag, observer = .watcher tag none) ∨ ∃ y : Place, observer = .listener y.1 y.2 ∧
      g.Below root y.1 ∧ ReflTransGen g.Feeds x y := by
  obtain ⟨hbelow, hreach, hevolves, -⟩ := h
  obtain ⟨-, earlier, later, hobservers, -⟩ := hreaches
  have hmem : observer ∈ (b.object o).observersOf p := by
    rw [hobservers]
    exact List.mem_append_right _ List.mem_cons_self
  have hb := hfed.sameWiring hevolves.toSameWiring
  rcases hb.observer (o, p) hbelow observer hmem with hwatcher | ⟨y, heq, hfeeds, hy⟩
  · exact .inl hwatcher
  · exact .inr ⟨y, heq, hy, hreach.tail hfeeds⟩

/-- The invocation of a listener that has its turn comes to its end. -/
theorem returns_of_reaches {levels : Nat} {o : ObjectRef} {p : String} {b u : World} {y : Place}
    (h : Confined g root x w ⟨.write (some (levels + 1)) o p v, b⟩)
    (hreaches : Reaches levels o p v b (.listener y.1 y.2) u) :
    w.Evolves u ∧ (invokeListener stepBound (accessAt (some levels)) y.1 y.2 u).Returns := by
  obtain ⟨-, -, hevolves, hr⟩ := h
  obtain ⟨hp, earlier, later, hobservers, hearlier⟩ := hreaches
  refine ⟨(hevolves.trans (.begun b o p v)).trans (.runObservers hearlier), ?_⟩
  change (setWith stepBound (accessAt (some levels)) o p v b).Returns at hr
  rcases setWith_cases rfl hr with ⟨hp', -⟩ | ⟨-, hnil, -⟩ | ⟨-, -, w', hrun, -⟩
  · exact absurd hp' hp
  · rw [hnil] at hobservers
    exact absurd hobservers.symm (List.append_ne_nil_of_right_ne_nil _ (List.cons_ne_nil _ _))
  · -- The observers before it have left `u`, in which it is run.
    rw [hobservers, runObservers_append] at hrun
    obtain ⟨_, u', hu, hrest⟩ := Run.bind_eq_ok.1 hrun
    cases hearlier.symm.trans hu
    obtain ⟨_, u', hfire, -⟩ := Run.bind_eq_ok.1 hrest
    obtain hinvoke | ⟨e, v', hinvoke, -⟩ := reporting_eq_ok.1 hfire
    · rw [hinvoke]
      trivial
    · rw [hinvoke]
      trivial

variable (hfed : g.Fed root w) (hx : g.Below root x.1) (hr : (World.set x.1 x.2 v w).Returns)
  (hsilent : ∀ (z y : Place) (u : World), Runs ⟨.write none x.1 x.2 v, w⟩ z (.listener y.1 y.2) u →
    w.Evolves u → u.SilentAt y)

include hfed hx hr hsilent

/-- Everything that is under way after a write that comes to its end is confined, if the bodies of
the listeners make no writes. -/
theorem confined_of_within {k : Nat} {a : Moment} (h : Within ⟨.write none x.1 x.2 v, w⟩ k a) :
    Confined g root x w a := by
  -- On the chain, with one case for each way in which a moment is entered from the one before.
  induction h with
  | start => exact ⟨hx, .refl, .refl w, hr⟩
  | enters hwithin hab ih =>
    cases hab with
    | task he => exact Task.returns_withoutWrites ih he
    | write he => exact absurd he (Task.write_notMem_enters ih)
    | layOut => exact ih
    | invoke hreaches hcall =>
      obtain ⟨hevolves, hinvoke⟩ := returns_of_reaches (y := (_, _)) ih hreaches
      have hy := hsilent (_, _) (_, _) _ ⟨_, _, _, _, hwithin, hreaches⟩ hevolves
      obtain ⟨hreturns, hsame⟩ := callValue_of_silentAt hinvoke hy hcall
      rw [← hsame] at hreturns
      exact Task.returns_call_iff.2 hreturns
    | store hreaches hcall hrun hresult =>
      obtain ⟨hevolves, hinvoke⟩ := returns_of_reaches (y := (_, _)) ih hreaches
      have hy := hsilent (_, _) (_, _) _ ⟨_, _, _, _, hwithin, hreaches⟩ hevolves
      have hdrift := drifts_of_silentAt hinvoke hy hcall
      rw [hrun] at hdrift
      rw [invokeListener_of_result (y := (_, _)) hcall hrun hresult,
        Outcome.returns_mapState] at hinvoke
      rcases observer_of_reaches hfed ih hreaches with ⟨tag, heq⟩ | ⟨y, heq, hbelow, hreach⟩
      · cases heq
      · cases heq
        refine ⟨hbelow, hreach, hevolves.trans (.of_drifts (hdrift.trans ?_)), hinvoke⟩
        exact ⟨rfl, rfl, rfl, rfl, .refl _⟩
    | follow hreaches _ _ =>
      rcases observer_of_reaches hfed ih hreaches with ⟨tag, heq⟩ | ⟨y, heq, -⟩ <;> cases heq

/-- The listeners that a write runs leave a property if the writes of their results do. -/
theorem get?_of_runObservers {y : Place} {levels k : Nat} {z : Place} {v' : Value} {b c u : World}
    (h : Within ⟨.write none x.1 x.2 v, w⟩ k ⟨.write (some (levels + 1)) z.1 z.2 v', b⟩)
    (hstores : ∀ k (z : Place) v' b,
      Within ⟨.write none x.1 x.2 v, w⟩ k ⟨.write (some levels) z.1 z.2 v', b⟩ →
        (setWithin stepBound World.get? levels z.1 z.2 v' b).state.get? y.1 y.2 = b.get? y.1 y.2)
    (hp : z.2 ∉ (b.object z.1).notifying) (earlier : List Observer) {later : List Observer}
    (hsplit : (b.object z.1).observersOf z.2 = earlier ++ later)
    (hearlier : (runObservers stepBound (accessAt (some levels)) v' earlier :
      Effect ObserverError Unit) (b.begun z.1 z.2 v') = .ok () c)
    (hlater : (runObservers stepBound (accessAt (some levels)) v' later :
      Effect ObserverError Unit) c = .ok () u) : u.get? y.1 y.2 = c.get? y.1 y.2 := by
  induction later generalizing earlier c with
  | nil =>
    cases hlater
    rfl
  | cons observer later ih =>
    have hreaches : Reaches levels z.1 z.2 v' b observer c := ⟨hp, earlier, later, hsplit, hearlier⟩
    have hconfined := confined_of_within hfed hx hr hsilent h
    obtain ⟨_, c', hrun, hrest⟩ := Run.bind_eq_ok.1 hlater
    have hunchanged : c'.get? y.1 y.2 = c.get? y.1 y.2 := by
      rcases observer_of_reaches hfed hconfined hreaches with ⟨tag, rfl⟩ | ⟨y', rfl, -⟩
      · exact get?_of_watcher hrun y
      · obtain ⟨hevolves, hinvoke⟩ := returns_of_reaches hconfined hreaches
        refine (get?_of_reporting hrun y).trans (get?_invokeListener hinvoke
          (hsilent _ y' c ⟨k, levels, v', b, h, hreaches⟩ hevolves) ?_)
        exact fun f arguments result u' hcall hcalled hresult ↦
          hstores _ y' result _ (h.enters (.store hreaches hcall hcalled hresult))
    have hnext : (runObservers stepBound (accessAt (some levels)) v' (earlier ++ [observer]) :
        Effect ObserverError Unit) (b.begun z.1 z.2 v') = .ok () c' := by
      rw [runObservers_append]
      exact Run.bind_eq_ok.2 ⟨(), c, hearlier, Run.bind_eq_ok.2 ⟨(), c', hrun, rfl⟩⟩
    have hsplit' : (b.object z.1).observersOf z.2 = (earlier ++ [observer]) ++ later := by
      rw [hsplit, List.append_assoc, List.singleton_append]
    exact (ih _ hsplit' hnext hrest).trans hunchanged

/-- A write leaves every property that does not depend on what is written. -/
theorem get?_of_within {y : Place} (hy : ¬ReflTransGen g.Feeds x y) {levels k : Nat} {z : Place}
    {v' : Value} {b : World}
    (h : Within ⟨.write none x.1 x.2 v, w⟩ k ⟨.write (some levels) z.1 z.2 v', b⟩) :
    (setWithin stepBound World.get? levels z.1 z.2 v' b).state.get? y.1 y.2 = b.get? y.1 y.2 := by
  -- On the levels: the writes that a write leads to have one level less.
  induction levels generalizing k z v' b with
  | zero => rfl
  | succ levels ih =>
    obtain ⟨-, hreach, -, hreturns⟩ := confined_of_within hfed hx hr hsilent h
    have hne : ¬(y.1 = z.1 ∧ y.2 = z.2 ∧ z.1.index < b.host.objects.size) := by
      rintro ⟨ho, hp, -⟩
      exact hy (Prod.ext ho hp ▸ hreach)
    change (setWith stepBound (accessAt (some levels)) z.1 z.2 v' b).Returns at hreturns
    change (setWith stepBound (accessAt (some levels)) z.1 z.2 v' b).state.get? y.1 y.2 = _
    rcases setWith_cases rfl hreturns with ⟨-, heq⟩ | ⟨-, -, heq⟩ | ⟨hp, -, u, hrun, heq⟩
    · rw [heq]
      rfl
    · rw [heq]
      change (b.define z.1 z.2 v').get? y.1 y.2 = _
      rw [World.get?_define, if_neg hne]
    · rw [heq]
      calc (u.ended z.1 z.2 b.pins).get? y.1 y.2
          = u.get? y.1 y.2 := World.get?_stopNotifying { u with pins := b.pins } z.1 y.1 z.2 y.2
        _ = (b.begun z.1 z.2 v').get? y.1 y.2 :=
          get?_of_runObservers hfed hx hr hsilent h (fun _ _ _ _ h' ↦ ih h') hp [] rfl rfl hrun
        _ = b.get? y.1 y.2 := by rw [World.get?_begun, if_neg hne]

omit hsilent in
/-- It suffices that no listener makes writes in any of the worlds that a write can lead to. -/
theorem silent_of_evolves (h : ∀ u : World, w.Evolves u → ∀ y : Place, u.SilentAt y) :
    Silent ⟨.write none x.1 x.2 v, w⟩ := by
  rintro z y u ⟨k, levels, v', b, hwithin, hreaches⟩
  have hconfined := confined_of_within hfed hx hr (fun _ y u _ hu ↦ h u hu y) hwithin
  exact h u (returns_of_reaches hconfined hreaches).1 y

end Confined

end Moment

/-! ## Listeners with plain bodies -/

namespace World

/-- The listeners of all objects are closures with plain bodies. -/
def plainListeners (w : World) : Bool :=
  w.host.objects.all fun o ↦ o.listeners.all fun l ↦ l.2.isPlainClosure w.heap

/-- Plain bodies make no writes, then and later. -/
theorem silentAt_of_plainListeners {w u : World} (h : w.plainListeners = true) (hu : w.Evolves u)
    (y : Place) : u.SilentAt y := by
  intro f arguments hcall
  have hlistener : (w.object y.1).listener? y.2 = some f := by
    have hwiring : (u.object y.1).listener? y.2 = (w.object y.1).listener? y.2 :=
      (congrArg (fun x : ReactiveObject ↦ x.listener? y.2) (hu.wiring y.1) :)
    rw [← hwiring]
    exact listener?_of_listenerCall? hcall
  obtain ⟨l, hl, rfl⟩ := Option.map_eq_some_iff.1 hlistener
  have hl := List.mem_of_find?_eq_some hl
  have hsize : y.1.index < w.host.objects.size := lt_size_of_isListener ⟨l.2, hlistener⟩
  have hobject : w.object y.1 = w.host.objects[y.1.index] := by
    rw [object, ObjectGraph.object, Array.getElem?_eq_getElem hsize]
    rfl
  have hall := Array.all_eq_true_iff_forall_mem.1 h _ (Array.getElem_mem hsize)
  have hplain := List.all_eq_true.1 hall l (hobject ▸ hl)
  obtain ⟨ref, c, heq, hc, hbody⟩ := Value.exists_of_isPlainClosure hplain
  intro host _ _ _ _
  rw [heq]
  exact Script.callValue_of_isPlain (m := u.pinned (.closure ref :: arguments))
    (hu.heap _ _ hc) hbody stepBound arguments

end World

end ReactiveFrames
