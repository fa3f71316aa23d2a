import Mathlib.Logic.Relation
import ReactiveFrames.Proofs.Reactive.Cycles
import ReactiveFrames.Proofs.Reactive.Stack

/-!
# Propagation of a write

A listener with a pure body is consistent if it holds what its body yields for the values that it
points at. A write may leave the listeners inconsistent that point at the property which it stores,
and no others; it runs them all before it returns. Each of them is run with the values as they are
by then, maybe several times, and among values of listeners that are still to be run again. What
counts is what holds when a nested write returns: it has left no other listener inconsistent that
was consistent before, and it has changed nothing but its own property and those that depend on it
(`World.Propagates`). So a listener that has been run is consistent, and stays so while the rest is
run.

In an acyclic graph nothing that depends on a property is being written when the property is, so no
write is refused. The induction is on the levels of writes, with one lemma for a listener that is
run and one for the observers of a property.
-/

open Filter

namespace ReactiveFrames

open Script (Value Host)
open Relation (TransGen)

/-! ## The graph of dependencies -/

namespace World

/-- The property is the result of a listener. -/
def IsListener (w : World) (y : Place) : Prop := ∃ f, (w.object y.1).listener? y.2 = some f

/-- What the arguments of a listener are bound to. -/
def pointersAt (w : World) (y : Place) : List Pointer :=
  ((w.object y.1).pointers.find? y.2).getD []

/-- The listener at `y` points at the property `x`. -/
def Feeds (w : World) (x y : Place) : Prop :=
  w.IsListener y ∧ ∃ q ∈ w.pointersAt y, (q.object, q.property) = x

/-- No listener depends on its own result. -/
def Acyclic (w : World) : Prop := ∀ x, ¬TransGen w.Feeds x x

/-- A graph in which listeners rank above what they point at is acyclic. -/
theorem acyclic_of_rank {w : World} (rank : Place → Nat)
    (h : ∀ x y, w.Feeds x y → rank x < rank y) : w.Acyclic := by
  have hlt {x y : Place} (hxy : TransGen w.Feeds x y) : rank x < rank y := by
    induction hxy with
    | single hxy => exact h _ _ hxy
    | tail _ hyz ih => exact ih.trans (h _ _ hyz)
  exact fun x hx ↦ (hlt hx).false

/-- Every object is kept, and the observers are the listeners that point at what they observe. -/
structure Linked (w : World) : Prop where
  held : ∀ o : ObjectRef, o.index < w.host.objects.size → o ∈ w.host.held
  target : ∀ x y, w.Feeds x y → x.1.index < w.host.objects.size
  feeds : ∀ x : Place, ∀ observer ∈ (w.object x.1).observersOf x.2,
    ∃ y, observer = .listener y.1 y.2 ∧ w.Feeds x y
  observes : ∀ x y, w.Feeds x y → .listener y.1 y.2 ∈ (w.object x.1).observersOf x.2

/-- The world has the objects of another one, and keeps the same ones. -/
structure Wired (g w : World) : Prop extends g.SameWiring w where
  held : w.host.held = g.host.held

namespace Wired

variable {g w w' : World}

protected theorem refl (g : World) : g.Wired g := ⟨.refl g, rfl⟩

theorem keeps (h : g.Wired w) (hk : w.Keeps w') : g.Wired w' :=
  ⟨h.toSameWiring.trans hk.toSameWiring, hk.held.trans h.held⟩

theorem of_host (h : g.Wired w) (heq : w'.host = w.host) : g.Wired w' :=
  ⟨h.toSameWiring.trans (.of_objects (by rw [heq])), by rw [heq, h.held]⟩

theorem begun (h : g.Wired w) (o : ObjectRef) (p : String) (v : Value) :
    g.Wired (w.begun o p v) :=
  ⟨h.toSameWiring.trans (w.sameWiring_begun o p v), h.held⟩

theorem listener? (h : g.Wired w) (o : ObjectRef) (name : String) :
    (w.object o).listener? name = (g.object o).listener? name :=
  (congrArg (fun x : ReactiveObject ↦ x.listener? name) (h.wiring o) :)

theorem pointersAt (h : g.Wired w) (y : Place) : w.pointersAt y = g.pointersAt y :=
  (congrArg (fun x : ReactiveObject ↦ (x.pointers.find? y.2).getD []) (h.wiring y.1) :)

theorem toValue (h : g.Wired w) (o : ObjectRef) : w.toValue o = g.toValue o := by
  have hclass : (w.object o).className = (g.object o).className :=
    (congrArg (fun x : ReactiveObject ↦ x.className) (h.wiring o) :)
  rw [World.toValue, World.toValue, hclass]

theorem observersOf (h : g.Wired w) (x : Place) :
    (w.object x.1).observersOf x.2 = (g.object x.1).observersOf x.2 :=
  h.toSameWiring.observersOf x.1 x.2

end Wired

/-! ## Pure bodies -/

/-- The listener holds what its body yields for the values that it points at, if they are all
there. -/
def Consistent (body : Place → List Value → Value) (w : World) (y : Place) : Prop :=
  ∀ vs : List Value, (w.pointersAt y).map (fun q ↦ w.get? q.object q.property) = vs.map some →
    w.get? y.1 y.2 = some (body y (w.toValue y.1 :: vs))

/-- The bodies of the listeners are pure in fit worlds: a call writes nothing and leaves a fit
world, and it yields a value that depends on the arguments alone. What is fit depends on the state
of the scripts and not on that of the objects. -/
structure PureBodies (g : World) (fit : World → Prop) (body : Place → List Value → Value) :
    Prop where
  congr : ∀ w w' : World, w'.heap = w.heap → w'.depth = w.depth → w'.maxDepth = w.maxDepth →
    fit w → fit w'
  call : ∀ y f, (g.object y.1).listener? y.2 = some f → ∀ vs : List Value,
    vs.length = (g.pointersAt y).length → ∀ w, fit w →
    ∃ w', (∀ write : Writer, Script.callValue (hostOf ⟨get?, write⟩) stepBound f
        (g.toValue y.1 :: vs) w = .ok (body y (g.toValue y.1 :: vs)) w') ∧
      w'.host = w.host ∧ fit w'
  defined : ∀ y vs, body y vs ≠ .undefined

/-- A world with the objects of another one in which bodies can be called and no cycle has been
reported. -/
structure Ready (g : World) (fit : World → Prop) (w : World) : Prop extends g.Wired w where
  fit : fit w
  noCycle : w.NoCycle

/-- Neither the property nor what depends on it is being written. -/
def Open (g w : World) (x : Place) : Prop :=
  x.2 ∉ (w.object x.1).notifying ∧
    ∀ y, TransGen g.Feeds x y → y.2 ∉ (w.object y.1).notifying

/-- What a write of the property makes of a world: nothing changes that does not depend on it, and
no other listener has become inconsistent. -/
structure Propagates (g : World) (body : Place → List Value → Value) (x : Place) (w w' : World) :
    Prop extends w.Keeps w' where
  unchanged : ∀ y, y ≠ x → ¬TransGen g.Feeds x y → w'.get? y.1 y.2 = w.get? y.1 y.2
  consistent : ∀ y, g.IsListener y → y ≠ x → Consistent body w y → Consistent body w' y

/-! ## Listeners that are run -/

section Fire

variable {g : World} {fit : World → Prop} {body : Place → List Value → Value}

theorem Wired.isAlive {w : World} (hg : g.Linked) (hw : g.Wired w) {o : ObjectRef}
    (ho : o.index < g.host.objects.size) : w.isAlive o = true := by
  rw [World.isAlive, hw.held, Bool.or_eq_true]
  exact .inl (List.contains_iff_mem.2 (hg.held o ho))

theorem Ready.congr {w w' : World} (hbody : g.PureBodies fit body) (hw : g.Ready fit w)
    (hw' : g.Wired w') (hheap : w'.heap = w.heap) (hdepth : w'.depth = w.depth)
    (hmaxDepth : w'.maxDepth = w.maxDepth)
    (hdiagnostics : w'.host.diagnostics = w.host.diagnostics) (hnotices : w'.notices = w.notices) :
    g.Ready fit w' :=
  ⟨hw', hbody.congr w w' hheap hdepth hmaxDepth hw.fit, hw.noCycle.congr hdiagnostics hnotices⟩

/-- The values of the arguments, if all of them are there. -/
theorem pointedValues_eq {w : World} {name : String} {ps : List Pointer}
    (halive : ∀ q ∈ ps, w.isAlive q.object = true) {vs : List Value}
    (hvs : ps.map (fun q ↦ w.get? q.object q.property) = vs.map some) :
    pointedValues get? w name ps = .ok vs := by
  induction ps generalizing vs with
  | nil =>
    cases vs with
    | nil => rfl
    | cons => cases hvs
  | cons q ps ih =>
    cases vs with
    | nil => cases hvs
    | cons v vs =>
      obtain ⟨hv, hvs⟩ := List.cons.inj hvs
      have hv : w.get? q.object q.property = some v := hv
      rw [pointedValues, if_pos (halive q List.mem_cons_self), hv,
        ih (fun q hq ↦ halive q (List.mem_cons_of_mem _ hq)) hvs]
      rfl

/-- If not all of the values are there, then it is reported which one is missing. -/
theorem pointedValues_cases {w : World} (name : String) {ps : List Pointer}
    (halive : ∀ q ∈ ps, w.isAlive q.object = true) :
    (∃ vs : List Value, ps.map (fun q ↦ w.get? q.object q.property) = vs.map some) ∨
      ∃ q ∈ ps, w.get? q.object q.property = none ∧ pointedValues get? w name ps
        = .error (.missingProperty (w.object q.object).path q.property name) := by
  induction ps with
  | nil => exact .inl ⟨[], rfl⟩
  | cons q ps ih =>
    cases hv : w.get? q.object q.property with
    | none =>
      refine .inr ⟨q, List.mem_cons_self, hv, ?_⟩
      rw [pointedValues, if_pos (halive q List.mem_cons_self), hv]
    | some v =>
      rcases ih fun q hq ↦ halive q (List.mem_cons_of_mem _ hq) with
        ⟨vs, hvs⟩ | ⟨r, hr, hnone, he⟩
      · exact .inl ⟨v :: vs, by rw [List.map_cons, List.map_cons, hv, hvs]⟩
      · refine .inr ⟨r, List.mem_cons_of_mem _ hr, hnone, ?_⟩
        rw [pointedValues, if_pos (halive q List.mem_cons_self), hv, he]
        rfl

theorem listenerCall?_eq {w : World} {y : Place} (halive : w.isAlive y.1 = true) {f : Value}
    (hf : (w.object y.1).listener? y.2 = some f) :
    listenerCall? get? w y.1 y.2
      = (do pure (f, w.toValue y.1 :: (← pointedValues get? w y.2 (w.pointersAt y)))) := by
  unfold listenerCall?
  dsimp only
  rw [halive, hf]
  rfl

theorem storeResult_ok {write : Writer} {owner : ObjectRef} {listener : String} {v : Value}
    (hv : v ≠ .undefined) (w : World) :
    storeResult write owner listener (.ok v) w
      = write owner listener v { w with failures := 0 } := by
  cases v with
  | undefined => exact absurd rfl hv
  | _ => rfl

/-- Consistency depends on the values of the listener and of what it points at. -/
theorem Consistent.congr {w w' : World} (hw : g.Wired w) (hw' : g.Wired w') {y : Place}
    (hinputs : ∀ q ∈ g.pointersAt y,
      w'.get? q.object q.property = w.get? q.object q.property)
    (hown : w'.get? y.1 y.2 = w.get? y.1 y.2) (h : Consistent body w y) :
    Consistent body w' y := by
  intro vs hvs
  rw [hw'.pointersAt, List.map_congr_left hinputs, ← hw.pointersAt] at hvs
  rw [hown, h vs hvs, hw.toValue, hw'.toValue]

/-- A call without writes stays calm. -/
theorem calm_of_callValue {w w' : World} {f v : Value} {arguments : List Value}
    (hrun : Script.callValue (hostOf ⟨get?, fun _ _ _ ↦ Run.exhaust⟩) stepBound f arguments w
      = .ok v w') (hw : w.NoCycle) : w.Calm w' := by
  have hwrite (o : ObjectRef) (p : String) (v : Value) : Run.Preserves w.Calm
      (reporting (Run.exhaust : Effect ObserverError Unit) : Effect Script.ScriptError Unit) :=
    fun _ _ hr ↦ hr.elim
  have htracks := Script.tracks_callValue (Calm.growthClosed w)
    (Calm.tracks_host (a := ⟨get?, fun _ _ _ ↦ Run.exhaust⟩) hwrite)
    (.of_forall fun _ ↦ le_refl stepBound) f arguments
  exact (htracks.of_ok ⟨.refl w, hw⟩ hrun).1

theorem lt_size_of_isListener {w : World} {y : Place} (h : w.IsListener y) :
    y.1.index < w.host.objects.size := by
  obtain ⟨f, hf⟩ := h
  by_contra hge
  rw [object, ObjectGraph.object, Array.getElem?_eq_none (Nat.le_of_not_lt hge)] at hf
  cases hf

/-- What a write does while there is room for less than so many nested ones: if it is open, then it
is not refused, and all that it leads to is in order again when it returns. -/
def Propagating (g : World) (fit : World → Prop) (body : Place → List Value → Value)
    (write : Writer) (levels : Nat) : Prop :=
  ∀ (x : Place) (v : Value) (w : World), g.Ready fit w → g.Open w x → w.unguarded.length < levels →
    ∃ w', write x.1 x.2 v w = .ok () w' ∧ g.Ready fit w' ∧ g.Propagates body x w w' ∧
      (x.1.index < g.host.objects.size → w'.get? x.1 x.2 = some v)

/-- The values of what a listener points at do not depend on the listener. -/
theorem Propagates.inputs {w w' : World} (hacyclic : g.Acyclic) {y : Place} (hy : g.IsListener y)
    (h : g.Propagates body y w w') {q : Pointer} (hq : q ∈ g.pointersAt y) :
    w'.get? q.object q.property = w.get? q.object q.property := by
  have hfeeds : g.Feeds (q.object, q.property) y := ⟨hy, q, hq, rfl⟩
  refine h.unchanged (q.object, q.property) (fun heq ↦ ?_) fun htrans ↦ ?_
  · exact hacyclic y (.single (heq ▸ hfeeds))
  · exact hacyclic y (htrans.tail hfeeds)

/-- While nothing is written, nothing has to be propagated. -/
theorem Propagates.of_drifts {x : Place} {w w' : World} (hw : g.Wired w) (h : w.Drifts w') :
    g.Propagates body x w w' where
  toKeeps := .of_drifts h
  unchanged _ _ _ := h.get? _ _
  consistent _ _ _ hc :=
    hc.congr hw (hw.keeps (.of_drifts h)) (fun _ _ ↦ h.get? _ _) (h.get? _ _)

protected theorem Propagates.trans {x : Place} {w w' w'' : World} (h₁ : g.Propagates body x w w')
    (h₂ : g.Propagates body x w' w'') : g.Propagates body x w w'' where
  toKeeps := h₁.toKeeps.trans h₂.toKeeps
  unchanged y hne hy := (h₂.unchanged y hne hy).trans (h₁.unchanged y hne hy)
  consistent y hy hne hc := h₂.consistent y hy hne (h₁.consistent y hy hne hc)

theorem Open.keeps {x : Place} {w w' : World} (h : g.Open w x) (hk : w.Keeps w') : g.Open w' x :=
  ⟨by rw [hk.notifying]; exact h.1, fun y hy ↦ by rw [hk.notifying]; exact h.2 y hy⟩

/-- The body of a listener is called in a ready world and leaves one. -/
theorem exists_call (hbody : g.PureBodies fit body) {y : Place} {f : Value}
    (hf : (g.object y.1).listener? y.2 = some f) {w : World} (hw : g.Ready fit w)
    {vs : List Value} (hlength : vs.length = (g.pointersAt y).length) :
    ∃ u, (∀ write : Writer, Script.callValue (hostOf ⟨get?, write⟩) stepBound f
        (g.toValue y.1 :: vs) (w.pinned (f :: g.toValue y.1 :: vs))
          = .ok (body y (g.toValue y.1 :: vs)) u) ∧
      g.Ready fit { u with failures := 0 } ∧ w.Drifts { u with failures := 0 } ∧
      u.host = w.host := by
  have hfit : fit (w.pinned (f :: g.toValue y.1 :: vs)) := hbody.congr w _ rfl rfl rfl hw.fit
  obtain ⟨u, hrun, hhost, hu⟩ := hbody.call y f hf vs hlength _ hfit
  have hcalm := calm_of_callValue (hrun _) (hw.noCycle.congr rfl rfl)
  refine ⟨u, hrun, ⟨hw.toWired.of_host hhost, ?_, ?_⟩, ?_, hhost⟩
  · exact hbody.congr u _ rfl rfl rfl hu
  · exact hcalm.2.congr rfl rfl
  · have hhost : u.host = w.host := hhost
    refine ⟨?_, ?_, ?_, hcalm.1.maxDepth, hcalm.1.heap⟩
    all_goals rw [hhost]

/-- A listener is called with the values of all that it points at, or one of them is missing. -/
theorem Wired.listenerCall?_cases (hg : g.Linked) {y : Place} {f : Value}
    (hf : (g.object y.1).listener? y.2 = some f) {w : World} (hw : g.Wired w) :
    (∃ vs : List Value, (w.pointersAt y).map (fun q ↦ w.get? q.object q.property) = vs.map some ∧
      listenerCall? get? w y.1 y.2 = .ok (f, g.toValue y.1 :: vs)) ∨
    ∃ q ∈ g.pointersAt y, w.get? q.object q.property = none ∧ listenerCall? get? w y.1 y.2
      = .error (.missingProperty (g.object q.object).path q.property y.2) := by
  have hy : g.IsListener y := ⟨f, hf⟩
  have halive : ∀ q ∈ w.pointersAt y, w.isAlive q.object = true := by
    rw [hw.pointersAt]
    exact fun q hq ↦ hw.isAlive hg (hg.target (q.object, q.property) y ⟨hy, q, hq, rfl⟩)
  have hcall := listenerCall?_eq (hw.isAlive hg (lt_size_of_isListener hy))
    ((hw.listener? y.1 y.2).trans hf)
  rcases pointedValues_cases y.2 halive with ⟨vs, hvs⟩ | ⟨q, hq, hnone, he⟩
  · rw [pointedValues_eq halive hvs, hw.toValue] at hcall
    exact .inl ⟨vs, hvs, hcall⟩
  · rw [he, hw.path] at hcall
    exact .inr ⟨q, hw.pointersAt y ▸ hq, hnone, hcall⟩

/-- What a listener does that is run: if everything is there that it points at, then it writes what
its body yields, and else it reports a property that is missing. -/
theorem fire_cases (hg : g.Linked) (hbody : g.PureBodies fit body) {y : Place} {w : World}
    (hw : g.Ready fit w) (hy : g.IsListener y) :
    (∃ (vs : List Value) (u : World),
      (w.pointersAt y).map (fun q ↦ w.get? q.object q.property) = vs.map some ∧
      g.Ready fit u ∧ w.Drifts u ∧ u.host = w.host ∧
      ∀ {ε : Type} {write : Writer} {w' : World},
        write y.1 y.2 (body y (g.toValue y.1 :: vs)) u = .ok () w' →
        (reporting (invokeListener stepBound ⟨get?, write⟩ y.1 y.2) : Effect ε Unit) w
          = .ok () { w' with pins := w.pins }) ∨
    ∃ q ∈ g.pointersAt y, w.get? q.object q.property = none ∧
      ∀ write : Writer, invokeListener stepBound ⟨get?, write⟩ y.1 y.2 w
        = .error (.missingProperty (g.object q.object).path q.property y.2) w := by
  obtain ⟨f, hf⟩ := hy
  rcases hw.toWired.listenerCall?_cases hg hf with ⟨vs, hvs, hcall⟩ | ⟨q, hq, hnone, hcall⟩
  · have hlength : vs.length = (g.pointersAt y).length := by
      have hlengths := congrArg List.length hvs
      rw [List.length_map, List.length_map, hw.pointersAt] at hlengths
      exact hlengths.symm
    obtain ⟨u, hrun, hu, hdrifts, hhost⟩ := exists_call hbody hf hw hlength
    refine .inl
      ⟨vs, { u with failures := 0 }, hvs, hu, hdrifts, hhost, fun {ε write w'} hwrite ↦ ?_⟩
    rw [reporting, invokeListener_of_ok (a := ⟨get?, write⟩) hcall, hrun]
    dsimp only
    rw [storeResult_ok (hbody.defined y _), hwrite]
    rfl
  · exact .inr ⟨q, hq, hnone, fun write ↦ invokeListener_of_error (a := ⟨get?, write⟩) hcall⟩

/-- The report of a missing property leaves a ready world. -/
theorem Ready.report (hbody : g.PureBodies fit body) {w : World} (hw : g.Ready fit w)
    (path p listener : String) : g.Ready fit (w.report (.missingProperty path p listener)) :=
  ⟨hw.toWired.keeps (.of_drifts (.report _ w)), hbody.congr w _ rfl rfl rfl hw.fit,
    hw.noCycle.report (show 'P' ≠ 'C' by decide)⟩

/-- A listener that is run becomes consistent, and leaves the others as a write does. -/
theorem exists_fire {ε : Type} (hg : g.Linked) (hacyclic : g.Acyclic)
    (hbody : g.PureBodies fit body) {write : Writer} {levels : Nat}
    (hset : g.Propagating fit body write levels)
    {y : Place} {w : World} (hw : g.Ready fit w) (hy : g.IsListener y) (hopen : g.Open w y)
    (hlevels : w.unguarded.length < levels) :
    ∃ w', (reporting (invokeListener stepBound ⟨get?, write⟩ y.1 y.2) :
        Effect ε Unit) w = .ok () w' ∧
      g.Ready fit w' ∧ g.Propagates body y w w' ∧ Consistent body w' y := by
  rcases fire_cases hg hbody hw hy with ⟨vs, u, hvs, hu, hdrifts, -, hfire⟩ | ⟨q, hq, hnone, hfire⟩
  · -- All values are there, so the body yields its value, and the value is stored.
    obtain ⟨w', hwrite, hw', hpropagates, hstored⟩ := hset y (body y (g.toValue y.1 :: vs)) _ hu
      (hopen.keeps (.of_drifts hdrifts)) (by rwa [(Keeps.of_drifts hdrifts).unguarded])
    have hpins : Drifts w' { w' with pins := w.pins } := .pins w' w.pins
    have hall : g.Propagates body y w { w' with pins := w.pins } :=
      ((Propagates.of_drifts hw.toWired hdrifts).trans hpropagates).trans
        (.of_drifts hw'.toWired hpins)
    refine ⟨{ w' with pins := w.pins }, hfire hwrite, ?_, hall, ?_⟩
    · exact hw'.congr hbody (hw'.toWired.of_host rfl) rfl rfl rfl rfl rfl
    · intro vs' hvs'
      rw [(hw.toWired.keeps hall.toKeeps).pointersAt,
        List.map_congr_left fun q hq ↦ hall.inputs hacyclic hy hq, ← hw.pointersAt, hvs] at hvs'
      rw [List.map_injective_iff.2 (Option.some_injective Value) hvs'.symm,
        (hw.toWired.keeps hall.toKeeps).toValue]
      exact hstored (lt_size_of_isListener hy)
  · -- A value is missing, which is reported.
    refine ⟨_, by rw [reporting, hfire], hw.report hbody _ _ _,
      .of_drifts hw.toWired (.report _ w), fun vs hvs ↦ ?_⟩
    have hmem := List.mem_map_of_mem (f := fun q ↦ w.get? q.object q.property) hq
    have hvs : (w.pointersAt y).map (fun q ↦ w.get? q.object q.property) = vs.map some := hvs
    rw [← hw.pointersAt, hvs, hnone] at hmem
    obtain ⟨v, -, hv⟩ := List.mem_map.1 hmem
    cases hv

end Fire

/-! ## Observers that are run -/

/-- What the observers of a property make of a world: nothing changes that does not depend on the
property, and no listener has become inconsistent. -/
structure Settles (g : World) (body : Place → List Value → Value) (x : Place) (w w' : World) :
    Prop extends w.Keeps w' where
  unchanged : ∀ y, y ≠ x → ¬TransGen g.Feeds x y → w'.get? y.1 y.2 = w.get? y.1 y.2
  consistent : ∀ y, g.IsListener y → Consistent body w y → Consistent body w' y

section Observers

variable {g : World} {fit : World → Prop} {body : Place → List Value → Value}

namespace Settles

variable {x y : Place} {w w' w'' : World}

protected theorem refl (w : World) : g.Settles body x w w :=
  ⟨.refl w, fun _ _ _ ↦ rfl, fun _ _ hc ↦ hc⟩

protected theorem trans (h₁ : g.Settles body x w w') (h₂ : g.Settles body x w' w'') :
    g.Settles body x w w'' where
  toKeeps := h₁.toKeeps.trans h₂.toKeeps
  unchanged y hne hy := (h₂.unchanged y hne hy).trans (h₁.unchanged y hne hy)
  consistent y hy hc := h₂.consistent y hy (h₁.consistent y hy hc)

/-- A listener that has become consistent is no exception any more. -/
theorem of_propagates (hxy : g.Feeds x y) (h : g.Propagates body y w w')
    (hy : Consistent body w' y) : g.Settles body x w w' where
  toKeeps := h.toKeeps
  unchanged z _ hz :=
    h.unchanged z (fun heq ↦ hz (heq ▸ .single hxy)) fun hyz ↦ hz (.head hxy hyz)
  consistent z hz hc := by
    by_cases heq : z = y
    · rw [heq]
      exact hy
    · exact h.consistent z hz heq hc

end Settles

/-- The listeners that observe a property are consistent when all of them have been run. -/
theorem exists_runObservers {ε : Type} (hg : g.Linked) (hacyclic : g.Acyclic)
    (hbody : g.PureBodies fit body) {write : Writer} {levels : Nat}
    (hset : g.Propagating fit body write levels)
    {x : Place} (v : Value) {observers : List Observer}
    (hobservers : ∀ observer ∈ observers, ∃ y, observer = .listener y.1 y.2 ∧ g.Feeds x y)
    {w : World} (hw : g.Ready fit w)
    (hopen : ∀ y, TransGen g.Feeds x y → y.2 ∉ (w.object y.1).notifying)
    (hlevels : w.unguarded.length < levels) :
    ∃ w', (runObservers stepBound ⟨get?, write⟩ v observers :
        Effect ε Unit) w = .ok () w' ∧
      g.Ready fit w' ∧ g.Settles body x w w' ∧
      ∀ y : Place, .listener y.1 y.2 ∈ observers → Consistent body w' y := by
  induction observers generalizing w with
  | nil => exact ⟨w, rfl, hw, .refl w, fun _ hy ↦ absurd hy List.not_mem_nil⟩
  | cons observer rest ih =>
    obtain ⟨y, rfl, hxy⟩ := hobservers observer List.mem_cons_self
    have hopeny : g.Open w y :=
      ⟨hopen y (.single hxy), fun z hyz ↦ hopen z (.head hxy hyz)⟩
    obtain ⟨u, hfire, hu, hpropagates, hy⟩ :=
      exists_fire (ε := ε) hg hacyclic hbody hset hw hxy.1 hopeny hlevels
    have hwu : g.Settles body x w u := .of_propagates hxy hpropagates hy
    obtain ⟨w', hrest, hw', huw', hall⟩ :=
      ih (fun z hz ↦ hobservers z (List.mem_cons_of_mem _ hz)) hu
        (fun z hz ↦ by rw [hwu.notifying]; exact hopen z hz) (by rwa [hwu.toKeeps.unguarded])
    refine ⟨w', ?_, hw', hwu.trans huw', fun z hz ↦ ?_⟩
    · exact (Run.bind_of_ok hfire _).trans hrest
    · rcases List.mem_cons.1 hz with heq | hz
      · have hzy : z = y := by
          injection heq with ho hp
          exact Prod.ext ho hp
        rw [hzy]
        exact huw'.consistent y hxy.1 hy
      · exact hall z hz

end Observers

/-! ## Writes -/

section Write

variable {g : World} {fit : World → Prop} {body : Place → List Value → Value}

/-- A property whose observers start to run does not depend on itself. -/
theorem Open.begun (hacyclic : g.Acyclic) {x : Place} {w : World} (h : g.Open w x) (v : Value)
    (y : Place) (hy : TransGen g.Feeds x y) :
    y.2 ∉ ((w.begun x.1 x.2 v).object y.1).notifying := by
  rw [notifying_begun]
  split_ifs with ho
  · rw [List.mem_cons, not_or]
    refine ⟨fun hp ↦ ?_, h.2 y hy⟩
    have heq : y = x := Prod.ext ho.1 hp
    exact hacyclic x (heq ▸ hy)
  · exact h.2 y hy

/-- Listeners that do not point at a property keep their consistency when it is stored. -/
theorem Consistent.store {w w' : World} (hw : g.Wired w) (hw' : g.Wired w') {x y : Place}
    (hget : ∀ z : Place, z ≠ x → w'.get? z.1 z.2 = w.get? z.1 z.2) (hyx : y ≠ x)
    (hy : g.IsListener y) (hxy : ¬g.Feeds x y) (h : Consistent body w y) :
    Consistent body w' y :=
  h.congr hw hw' (fun q hq ↦ hget (q.object, q.property) fun heq ↦ hxy ⟨hy, q, hq, heq⟩)
    (hget y hyx)

/-- A write of a property without observers. -/
theorem propagates_define (hg : g.Linked) {x : Place} {w : World} (hw : g.Wired w)
    (hx : x.2 ∉ (w.object x.1).notifying) (hobs : (w.object x.1).observersOf x.2 = []) (v : Value) :
    g.Propagates body x w (w.define x.1 x.2 v) := by
  have hget (z : Place) (hz : z ≠ x) :
      (w.define x.1 x.2 v).get? z.1 z.2 = w.get? z.1 z.2 := by
    rw [get?_define, if_neg]
    exact fun hand ↦ hz (Prod.ext hand.1 hand.2.1)
  have hkeeps := Keeps.define w hx v
  refine ⟨hkeeps, fun y hyx _ ↦ hget y hyx, fun y hy hyx hc ↦ ?_⟩
  refine hc.store hw (hw.keeps hkeeps) hget hyx hy fun hxy ↦ ?_
  have hmem := hg.observes x y hxy
  rw [← hw.observersOf, hobs] at hmem
  exact List.not_mem_nil hmem

/-- A write of a property whose observers settle what depends on it. -/
theorem propagates_ended (hg : g.Linked) {x : Place} {w u : World} (hw : g.Wired w)
    (hx : x.2 ∉ (w.object x.1).notifying) {v : Value}
    (hsettles : g.Settles body x (w.begun x.1 x.2 v) u)
    (hall : ∀ y : Place, .listener y.1 y.2 ∈ (w.object x.1).observersOf x.2 →
      Consistent body u y) :
    g.Propagates body x w (u.ended x.1 x.2 w.pins) := by
  have hget (z : Place) (hz : z ≠ x) :
      (w.begun x.1 x.2 v).get? z.1 z.2 = w.get? z.1 z.2 := by
    rw [get?_begun, if_neg]
    exact fun hand ↦ hz (Prod.ext hand.1 hand.2.1)
  have hend (z : Place) : (u.ended x.1 x.2 w.pins).get? z.1 z.2 = u.get? z.1 z.2 :=
    get?_stopNotifying { u with pins := w.pins } x.1 z.1 x.2 z.2
  have hbegun : g.Wired (w.begun x.1 x.2 v) := hw.begun x.1 x.2 v
  have hkeeps : w.Keeps (u.ended x.1 x.2 w.pins) := .ended hx hsettles.toKeeps
  refine ⟨hkeeps, fun y hyx hxy ↦ ?_, fun y hy hyx hc ↦ ?_⟩
  · rw [hend, hsettles.unchanged y hyx hxy, hget y hyx]
  · -- A listener that points at the property has been run; another one has not become stale.
    have hu : Consistent body u y := by
      by_cases hxy : g.Feeds x y
      · exact hall y (hw.observersOf x ▸ hg.observes x y hxy)
      · exact hsettles.consistent y hy (hc.store hw hbegun hget hyx hy hxy)
    exact hu.congr (hbegun.keeps hsettles.toKeeps) (hw.keeps hkeeps)
      (fun q _ ↦ hend (q.object, q.property)) (hend y)

/-- In an acyclic graph with pure bodies an open write propagates, whatever levels there are. -/
theorem propagating (hg : g.Linked) (hacyclic : g.Acyclic) (hbody : g.PureBodies fit body)
    (levels : Nat) : g.Propagating fit body (setWithin stepBound get? levels) levels := by
  induction levels with
  | zero => exact fun _ _ _ _ _ hlevels ↦ absurd hlevels (Nat.not_lt_zero _)
  | succ levels ih =>
    intro x v w hw hopen hlevels
    by_cases hobs : (w.object x.1).observersOf x.2 = []
    · have hpropagates : g.Propagates body x w (w.define x.1 x.2 v) :=
        propagates_define hg hw.toWired hopen.1 hobs v
      refine ⟨w.define x.1 x.2 v, setWith_of_unobserved hopen.1 hobs,
        hw.congr hbody (hw.toWired.keeps hpropagates.toKeeps) rfl rfl rfl rfl rfl, hpropagates,
        fun hx ↦ ?_⟩
      rw [get?_define, if_pos ⟨rfl, rfl, hw.size.symm ▸ hx⟩]
    · have hbegun : g.Ready fit (w.begun x.1 x.2 v) :=
        hw.congr hbody (hw.toWired.begun x.1 x.2 v) rfl rfl rfl rfl rfl
      have hroom := length_unguarded_begun hopen.1 hobs v
      obtain ⟨u, hrun, hu, hsettles, hall⟩ := exists_runObservers (ε := ObserverError) hg hacyclic
        hbody ih v (fun o ho ↦ hg.feeds x o (hw.observersOf x ▸ ho)) hbegun
        (hopen.begun hacyclic v) (by omega)
      have hpropagates := propagates_ended hg hw.toWired hopen.1 hsettles hall
      refine ⟨u.ended x.1 x.2 w.pins, setWith_of_observed hopen.1 hobs hrun,
        hu.congr hbody (hw.toWired.keeps hpropagates.toKeeps) rfl rfl rfl rfl rfl, hpropagates,
        fun hx ↦ ?_⟩
      have hx : x.1.index < w.host.objects.size := hw.size.symm ▸ hx
      have hguarded : x.2 ∈ ((w.begun x.1 x.2 v).object x.1).notifying := by
        rw [notifying_begun, if_pos ⟨rfl, hx⟩]
        exact List.mem_cons_self
      calc (u.ended x.1 x.2 w.pins).get? x.1 x.2
          = u.get? x.1 x.2 := get?_stopNotifying { u with pins := w.pins } x.1 x.1 x.2 x.2
        _ = (w.begun x.1 x.2 v).get? x.1 x.2 := hsettles.guarded x.1 x.2 hguarded
        _ = some v := by rw [get?_begun, if_pos ⟨rfl, rfl, hx⟩]

end Write

end World

end ReactiveFrames
