import ReactiveFrames.Proofs.Reactive.Assembly

/-!
# Reactive consistency

In a compiled frame whose dependencies are acyclic and whose listeners have pure bodies, every
listener holds what its body yields for the values that it points at: when the frame has been
compiled, and after all writes of other properties that follow, by a host, by scripts, or by init
functions, and whenever listeners are seeded again. No such write is refused.

Between the actions of a host no write is under way, so every write is open, and what it propagates
is said by `World.propagating`. It remains that nothing else disturbs the listeners
(`World.Steady`). A script makes its writes while it runs; what the world is like in between only
matters to those.
-/

open Filter

namespace ReactiveFrames

open Script (Value Host)
open Relation (TransGen)

namespace World

/-! ## Steady worlds -/

/-- The objects are those of `g`, no write is under way, no cycle has been reported, and every
listener is consistent. -/
structure Steady (g : World) (body : Place → List Value → Value) (w : World) : Prop
    extends g.Wired w where
  unguarded : ∀ o, (w.object o).notifying = []
  noCycle : w.NoCycle
  consistent : ∀ y, g.IsListener y → Consistent body w y

/-- All listeners of an object are consistent. -/
def ConsistentAt (g : World) (body : Place → List Value → Value) (o : ObjectRef) (w : World) :
    Prop :=
  ∀ name, g.IsListener (o, name) → Consistent body w (o, name)

section Steady

variable {g w w' : World} {fit : World → Prop} {body : Place → List Value → Value}

/-- Nothing changes about the values of the objects. -/
theorem Steady.congr (h : g.Steady body w) (hobjects : w'.host.objects = w.host.objects)
    (hheld : w'.host.held = w.host.held) (hcycle : w'.NoCycle) : g.Steady body w' := by
  have hobject (o : ObjectRef) : w'.object o = w.object o := by
    rw [object, object, ObjectGraph.object, ObjectGraph.object, hobjects]
  have hget (o : ObjectRef) (p : String) : w'.get? o p = w.get? o p := by
    rw [get?, get?, hobject]
  have hwired : g.Wired w' := ⟨h.toSameWiring.trans (.of_objects hobjects), hheld.trans h.held⟩
  exact ⟨hwired, fun o ↦ (hobject o).symm ▸ h.unguarded o, hcycle, fun y hy ↦
    (h.consistent y hy).congr h.toWired hwired (fun _ _ ↦ hget _ _) (hget _ _)⟩

theorem Steady.drifts (h : g.Steady body w) (hd : w.Drifts w') (hcycle : w'.NoCycle) :
    g.Steady body w' :=
  h.congr hd.objects hd.held hcycle

theorem growthClosed_steady : Script.Machine.GrowthClosed (g.Steady body) := fun u u' hgrows hu ↦
  Steady.drifts hu (.of_grows hgrows) (NoCycle.growthClosed u u' hgrows hu.noCycle)

theorem Steady.ready (h : g.Steady body w) (hfit : fit w) : g.Ready fit w :=
  ⟨h.toWired, hfit, h.noCycle⟩

theorem open_of_unguarded (h : ∀ o, (w.object o).notifying = []) (x : Place) : g.Open w x :=
  ⟨by rw [h]; exact List.not_mem_nil, fun y _ ↦ by rw [h]; exact List.not_mem_nil⟩

variable (hg : g.Linked) (hacyclic : g.Acyclic) (hbody : g.PureBodies fit body)

include hg hacyclic hbody

theorem propagating_set (levels : Nat) : g.Propagating fit body World.set levels :=
  fun x v w hw hopen _ ↦
    propagating hg hacyclic hbody w.levels x v w hw hopen
      (Nat.lt_of_succ_lt w.length_unguarded_lt_levels)

/-- A write of a property that is no listener is not refused, and all listeners are consistent when
it returns. -/
theorem Steady.exists_set (h : g.Steady body w) (hfit : fit w) {o : ObjectRef} {p : String}
    (hp : ¬g.IsListener (o, p)) (v : Value) :
    ∃ w', World.set o p v w = .ok () w' ∧ g.Steady body w' ∧ fit w' := by
  obtain ⟨w', hset, hw', hpropagates, -⟩ := propagating_set hg hacyclic hbody _ (o, p) v w
    (h.ready hfit) (open_of_unguarded h.unguarded _) (Nat.lt_succ_self _)
  refine ⟨w', hset, ⟨hw'.toWired, fun a ↦ ?_, hw'.noCycle, fun y hy ↦ ?_⟩, hw'.fit⟩
  · rw [hpropagates.notifying]
    exact h.unguarded a
  · have hne : y ≠ (o, p) := fun heq ↦ hp (heq ▸ hy)
    exact hpropagates.consistent y hy hne (h.consistent y hy)

/-- A listener that is run while no write is under way. -/
theorem exists_fire_of_unguarded {ε : Type} (hw : g.Ready fit w)
    (hunguarded : ∀ o, (w.object o).notifying = []) {y : Place} (hy : g.IsListener y) :
    ∃ w', (fire y.1 y.2 : Effect ε Unit) w = .ok () w' ∧
      (g.Ready fit w' ∧ ∀ o, (w'.object o).notifying = []) ∧
      Consistent body w' y ∧ ∀ z, g.IsListener z → Consistent body w z → Consistent body w' z := by
  obtain ⟨w', hfire, hw', hpropagates, hdone⟩ := exists_fire (ε := ε) hg hacyclic hbody
    (propagating_set hg hacyclic hbody _) hw hy (open_of_unguarded hunguarded y)
    (Nat.lt_succ_self _)
  refine ⟨w', hfire, ⟨hw', fun o ↦ ?_⟩, hdone, fun z hz hc ↦ ?_⟩
  · rw [hpropagates.notifying]
    exact hunguarded o
  · by_cases hzy : z = y
    · rw [hzy]
      exact hdone
    · exact hpropagates.consistent z hz hzy hc

/-- Seeding an object makes its listeners consistent. -/
theorem exists_seedListeners {ε : Type} (o : ObjectRef) {w : World}
    (hw : g.Ready fit w ∧ ∀ o, (w.object o).notifying = []) :
    ∃ w', (seedListeners o : Effect ε Unit) w = .ok () w' ∧
      (g.Ready fit w' ∧ ∀ o, (w'.object o).notifying = []) ∧
      (∀ name, g.IsListener (o, name) → Consistent body w' (o, name)) ∧
      ∀ z, g.IsListener z → Consistent body w z → Consistent body w' z := by
  have hall (names : List String) (hnames : ∀ name ∈ names, g.IsListener (o, name)) {w : World}
      (hw : g.Ready fit w ∧ ∀ o, (w.object o).notifying = []) :
      ∃ w', (names.forM (fire o) : Effect ε Unit) w = .ok () w' ∧
        (g.Ready fit w' ∧ ∀ o, (w'.object o).notifying = []) ∧
        (∀ name ∈ names, Consistent body w' (o, name)) ∧
        ∀ z, g.IsListener z → Consistent body w z → Consistent body w' z := by
    induction names generalizing w with
    | nil => exact ⟨w, rfl, hw, fun n hn ↦ absurd hn List.not_mem_nil, fun z _ hz ↦ hz⟩
    | cons name names ih =>
      have hname := hnames name List.mem_cons_self
      obtain ⟨u, hfire, hu, hdone, hkept⟩ :=
        exists_fire_of_unguarded (ε := ε) hg hacyclic hbody hw.1 hw.2 hname
      obtain ⟨w', hrest, hw', hall, hkept'⟩ :=
        ih (fun n hn ↦ hnames n (List.mem_cons_of_mem _ hn)) hu
      refine ⟨w', Run.bind_eq_ok.2 ⟨(), u, hfire, hrest⟩, hw', fun n hn ↦ ?_,
        fun z hz hc ↦ hkept' z hz (hkept z hz hc)⟩
      rcases List.mem_cons.1 hn with rfl | hn
      · exact hkept' (o, n) hname hdone
      · exact hall n hn
  have hnames : (w.object o).listenerNames = (g.object o).listenerNames :=
    (congrArg ReactiveObject.listenerNames (hw.1.wiring o) :)
  obtain ⟨w', hrun, hw', hdone, hkept⟩ := hall (w.object o).listenerNames
    (fun name hn ↦ isListener_iff.2 (hnames ▸ hn)) hw
  refine ⟨w', Run.bind_eq_ok.2 ⟨w, w, rfl, hrun⟩, hw', fun name hname ↦ ?_, hkept⟩
  exact hdone name (hnames ▸ isListener_iff.1 hname)

/-- Seeding a tree makes the listeners of its objects consistent, and leaves no other object with a
listener that is not. -/
theorem exists_seedTree {ε : Type}
    (hchildren : ∀ o c, g.Child o c → o.index < c.index ∧ c.index < g.host.objects.size)
    {o : ObjectRef} (ho : o.index < g.host.objects.size) (hw : g.Ready fit w)
    (hunguarded : ∀ o, (w.object o).notifying = []) :
    ∃ w', (seedTree o : Effect ε Unit) w = .ok () w' ∧ g.Ready fit w' ∧
      (∀ o, (w'.object o).notifying = []) ∧
      (∀ a, g.Below o a → g.ConsistentAt body a w') ∧
      ∀ a, g.ConsistentAt body a w → g.ConsistentAt body a w' := by
  have hact (a : ObjectRef) (u : World) (hu : g.Ready fit u ∧ ∀ o, (u.object o).notifying = [])
      (_ : a.index < g.host.objects.size) :
      ∃ u', (seedListeners a : Effect ε Unit) u = .ok () u' ∧
        (g.Ready fit u' ∧ ∀ o, (u'.object o).notifying = []) ∧ g.ConsistentAt body a u' ∧
        ∀ b, g.ConsistentAt body b u → g.ConsistentAt body b u' := by
    obtain ⟨u', hrun, hu', hdone, hkept⟩ := exists_seedListeners (ε := ε) hg hacyclic hbody a hu
    exact ⟨u', hrun, hu', hdone, fun b hb name hname ↦ hkept _ hname (hb name hname)⟩
  have hnested (u : World) (hu : g.Ready fit u ∧ ∀ o, (u.object o).notifying = [])
      (a : ObjectRef) : (u.object a).children = (g.object a).children :=
    (congrArg (fun x : ReactiveObject ↦ x.children) (hu.1.wiring a) :)
  obtain ⟨w', hvisit, hw', hdone, hkept⟩ := exists_visit hnested hact w.treeDepth o
    (fun a _ ↦ hchildren a) ho
    (by rw [treeDepth, hw.size]; omega) ⟨hw, hunguarded⟩
  exact ⟨w', hvisit, hw'.1, hw'.2, hdone, hkept⟩

end Steady

/-! ## Scripts -/

/-- Writes of properties that are no listeners, in fit worlds. -/
def plainWrites (g : World) (fit : World → Prop) : Set Call :=
  {c | fit c.world ∧ ¬g.IsListener (c.object, c.property)}

section Scripts

variable {g w : World} {fit : World → Prop} {body : Place → List Value → Value}
  (hg : g.Linked) (hacyclic : g.Acyclic) (hbody : g.PureBodies fit body)

include hg hacyclic hbody

/-- What scripts reach preserves steadiness as long as they make plain writes. -/
theorem tracks_answering_plain :
    (answering (g.plainWrites fit) scriptHost fun _ _ _ ↦ Run.exhaust).Tracks (g.Steady body)
      fun _ ↦ answering (g.plainWrites fit) scriptHost fun _ _ _ ↦ Run.exhaust where
  read _ _ _ _ := .of_forall fun _ ↦ rfl
  write ref p v w hw hr := by
    refine ⟨?_, .of_forall fun _ ↦ rfl⟩
    by_cases hmem : ⟨⟨ref.index⟩, p, v, w⟩ ∈ g.plainWrites fit
    · obtain ⟨w', hset, hw', -⟩ := hw.exists_set hg hacyclic hbody hmem.1 hmem.2 v
      have hwrite : (answering (g.plainWrites fit) scriptHost fun _ _ _ ↦ Run.exhaust).write
          ref p v w = .ok () w' := by
        refine (if_pos hmem).trans ?_
        change reporting (set ⟨ref.index⟩ p v) w = _
        rw [reporting, hset]
      rw [hwrite]
      exact hw'
    · have hwrite : (answering (g.plainWrites fit) scriptHost fun _ _ _ ↦ Run.exhaust).write
          ref p v w = .exhausted w := if_neg hmem
      rw [hwrite] at hr
      exact hr.elim
  call ref arguments w hw hr := by
    refine ⟨hw.drifts ?_ (preserves_noCycle_call access ref arguments w hw.noCycle hr).1,
      .of_forall fun _ ↦ rfl⟩
    change Drifts w ((hostOf access).call ref arguments w).state
    simp only [hostOf]
    split
    · exact Foreign.drifts_apply _ _ w
    · exact .refl w

/-- A script that makes plain writes and returns leaves all listeners consistent. -/
theorem Steady.evaluate (hw : g.Steady body w) {source : String}
    (hplain : MakesOnly (g.plainWrites fit) scriptHost
      fun h ↦ Script.evaluate h stepBound source w)
    (hr : (World.evaluate source w).Returns) : g.Steady body (World.evaluate source w).state := by
  have hsame := hplain.answering_eq (fun _ _ _ ↦ Run.exhaust) (.inr hr)
  have htracks := Script.tracks_evaluate growthClosed_steady
    (tracks_answering_plain hg hacyclic hbody) (.of_forall fun _ ↦ le_refl stepBound) source w hw
    (by rw [hsame]; exact hr)
  rw [hsame] at htracks
  exact htracks.1

/-- A call that makes plain writes and returns leaves all listeners consistent. -/
theorem Steady.call (hw : g.Steady body w) {f : Value} {arguments : List Value}
    (hplain : MakesOnly (g.plainWrites fit) scriptHost
      fun h ↦ Script.callValue h stepBound f arguments w)
    (hr : (World.call f arguments w).Returns) : g.Steady body (World.call f arguments w).state := by
  have hsame := hplain.answering_eq (fun _ _ _ ↦ Run.exhaust) (.inr hr)
  have htracks := Script.tracks_callValue growthClosed_steady
    (tracks_answering_plain hg hacyclic hbody) (.of_forall fun _ ↦ le_refl stepBound) f arguments w
    hw (by rw [hsame]; exact hr)
  rw [hsame] at htracks
  exact htracks.1

end Scripts

/-! ## Courses -/

/-- What can become of a world `b` with the objects of `g` through hosts, scripts and init functions
that write no listener, as long as scripts leave worlds in which listeners can run. -/
inductive Course (g : World) (fit : World → Prop) (b : World) : World → Prop
  | start : Course g fit b b
  | set {w : World} (o : ObjectRef) (p : String) (v : Value) (hw : Course g fit b w)
      (hp : ¬g.IsListener (o, p)) : Course g fit b (World.set o p v w).state
  | seedTree {w : World} {ε : Type} (o : ObjectRef) (hw : Course g fit b w)
      (ho : o.index < g.host.objects.size) :
      Course g fit b (World.seedTree o w : Outcome World ε Unit).state
  | evaluate {w : World} (source : String) (hw : Course g fit b w)
      (hplain : MakesOnly (g.plainWrites fit) scriptHost
        fun h ↦ Script.evaluate h stepBound source w)
      (hr : (World.evaluate source w).Returns) (hfit : fit (World.evaluate source w).state) :
      Course g fit b (World.evaluate source w).state
  | call {w : World} (f : Value) (arguments : List Value) (hw : Course g fit b w)
      (hplain : MakesOnly (g.plainWrites fit) scriptHost
        fun h ↦ Script.callValue h stepBound f arguments w)
      (hr : (World.call f arguments w).Returns) (hfit : fit (World.call f arguments w).state) :
      Course g fit b (World.call f arguments w).state
  | init {w : World} (o : ObjectRef) (argument : Option Value) (init : String × Value)
      (hw : Course g fit b w) (hinit : init ∈ (g.object o).inits)
      (hplain : MakesOnly (g.plainWrites fit) scriptHost
        fun h ↦ Script.callValue h stepBound init.2 (w.toValue o :: argument.toList) w)
      (hr : (World.call init.2 (w.toValue o :: argument.toList) w).Returns)
      (hfit : fit (World.call init.2 (w.toValue o :: argument.toList) w).state) :
      Course g fit b (runInit o argument init w).state
  /-- Nothing happens to the objects, such as when a global variable is bound. -/
  | aside {w w' : World} (hw : Course g fit b w) (hobjects : w'.host.objects = w.host.objects)
      (hheld : w'.host.held = w.host.held)
      (hdiagnostics : w'.host.diagnostics = w.host.diagnostics) (hnotices : w'.notices = w.notices)
      (hfit : fit w') : Course g fit b w'

section Courses

variable {g b w : World} {root : ObjectRef} {fit : World → Prop}
  {body : Place → List Value → Value}
  (hg : g.Assembled root) (hacyclic : g.Acyclic) (hbody : g.PureBodies fit body)

include hg hacyclic hbody

/-- An init function whose call makes plain writes. What it returns is stored under its own name,
which is the name of no listener. -/
theorem Steady.runInit (hw : g.Steady body w) {o : ObjectRef} {argument : Option Value}
    {init : String × Value} (hinit : init ∈ (g.object o).inits)
    (hplain : MakesOnly (g.plainWrites fit) scriptHost
      fun h ↦ Script.callValue h stepBound init.2 (w.toValue o :: argument.toList) w)
    (hr : (World.call init.2 (w.toValue o :: argument.toList) w).Returns)
    (hfit : fit (World.call init.2 (w.toValue o :: argument.toList) w).state) :
    g.Steady body (ReactiveFrames.runInit o argument init w).state ∧
      fit (ReactiveFrames.runInit o argument init w).state := by
  have hcall := hw.call hg.toLinked hacyclic hbody hplain hr
  have hname : ¬g.IsListener (o, init.1) := fun h ↦
    ((hg.names o).inits init hinit).2 (isListener_iff.1 h)
  have hreset (u : World) (hu : g.Steady body u) (hufit : fit u) :
      g.Steady body { u with failures := 0 } ∧ fit { u with failures := 0 } :=
    ⟨hu.congr rfl rfl (hu.noCycle.congr rfl rfl), hbody.congr u _ rfl rfl rfl hufit⟩
  cases hrun : World.call init.2 (w.toValue o :: argument.toList) w with
  | exhausted u =>
    rw [hrun] at hr
    exact hr.elim
  | error e u =>
    rw [hrun] at hcall hfit
    rw [runInit_of_error hrun]
    exact hreset u hcall hfit
  | ok v u =>
    rw [hrun] at hcall hfit
    obtain ⟨hsteady, hufit⟩ := hreset u hcall hfit
    rw [runInit_of_ok hrun]
    split
    · exact ⟨hsteady, hufit⟩
    · obtain ⟨w', hset, hw', hfit'⟩ := hsteady.exists_set hg.toLinked hacyclic hbody hufit hname v
      rw [reporting, hset]
      exact ⟨hw', hfit'⟩

/-- In the whole course all listeners are consistent and the world is fit. -/
theorem Course.steady (hb : g.Steady body b) (hbfit : fit b) (h : Course g fit b w) :
    g.Steady body w ∧ fit w := by
  induction h with
  | start => exact ⟨hb, hbfit⟩
  | set o p v _ hp ih =>
    obtain ⟨w', hset, hw'⟩ := ih.1.exists_set hg.toLinked hacyclic hbody ih.2 hp v
    rw [hset]
    exact hw'
  | @seedTree w ε o _ ho ih =>
    obtain ⟨w', hseed, hw', hunguarded, -, hkept⟩ := exists_seedTree (ε := ε)
      hg.toLinked hacyclic hbody hg.children ho (ih.1.ready ih.2) ih.1.unguarded
    rw [hseed]
    exact ⟨⟨hw'.toWired, hunguarded, hw'.noCycle, fun y hy ↦
      hkept y.1 (fun name hname ↦ ih.1.consistent (y.1, name) hname) y.2 hy⟩, hw'.fit⟩
  | evaluate source _ hplain hr hfit ih =>
    exact ⟨ih.1.evaluate hg.toLinked hacyclic hbody hplain hr, hfit⟩
  | call f arguments _ hplain hr hfit ih =>
    exact ⟨ih.1.call hg.toLinked hacyclic hbody hplain hr, hfit⟩
  | init o argument init _ hinit hplain hr hfit ih =>
    exact ih.1.runInit hg hacyclic hbody hinit hplain hr hfit
  | aside _ hobjects hheld hdiagnostics hnotices hfit ih =>
    exact ⟨ih.1.congr hobjects hheld (ih.1.noCycle.congr hdiagnostics hnotices), hfit⟩

/-- Executing a program is such a course, if the calls of its init functions are. -/
theorem Course.preserves_execute (hb : g.Steady body b) (hbfit : fit b) {argument : Option Value}
    (hinits : ∀ u, Course g fit b u → ∀ o, ∀ init ∈ (g.object o).inits,
      MakesOnly (g.plainWrites fit) scriptHost
        (fun h ↦ Script.callValue h stepBound init.2 (u.toValue o :: argument.toList) u) ∧
      ((World.call init.2 (u.toValue o :: argument.toList) u).Returns →
        fit (World.call init.2 (u.toValue o :: argument.toList) u).state))
    {c : Component} (hc : c.object.index < g.host.objects.size) :
    Run.Preserves (Course g fit b) (execute argument c) := by
  have hsteady {u : World} (hu : Course g fit b u) := hu.steady hg hacyclic hbody hb hbfit
  have hinit (o : ObjectRef) (init : String × Value) (hmem : init ∈ (g.object o).inits) :
      Run.Preserves (Course g fit b) (runInit o argument init) := by
    refine fun u hu hr ↦ ⟨?_, .of_forall fun _ ↦ rfl⟩
    have hcall : (World.call init.2 (u.toValue o :: argument.toList) u).Returns := by
      cases hrun : World.call init.2 (u.toValue o :: argument.toList) u with
      | exhausted u' =>
        rw [runInit_of_exhausted hrun] at hr
        exact hr.elim
      | _ => trivial
    obtain ⟨hplain, hfit⟩ := hinits u hu o init hmem
    exact .init o argument init hu hmem hplain hcall (hfit hcall)
  have hobject (o : ObjectRef) : Run.Preserves (Course g fit b) (runInits o argument) := by
    intro u hu hr
    have heq : (u.object o).inits = (g.object o).inits :=
      (congrArg (fun x : ReactiveObject ↦ x.inits) ((hsteady hu).1.wiring o) :)
    have hforM := Run.Tracks.forM fun init hmem ↦ hinit o init (heq ▸ hmem)
    exact hforM u hu hr
  have hseed : Run.Preserves (Course g fit b)
      (World.seedTree c.object : Effect ExecuteError Unit) := fun u hu _ ↦
    ⟨.seedTree c.object hu hc, .of_forall fun _ ↦ rfl⟩
  have hpins {u : World} (hu : Course g fit b u) (pins : List Script.Pin) :
      Course g fit b { u with pins := pins } :=
    .aside hu rfl rfl rfl rfl (hbody.congr u _ rfl rfl rfl (hsteady hu).2)
  have hrun := (preserves_runInitTree hobject c).bind fun _ ↦ hseed
  intro u hu hr
  have hinner := hrun { u with pins := argument.toList.map .value ++ u.pins } (hpins hu _)
    ((Outcome.returns_mapState _ _).1 hr)
  refine ⟨?_, .of_forall fun _ ↦ rfl⟩
  have hstate := Outcome.state_mapState (fun u' : World ↦ { u' with pins := u.pins })
    ((do c.runInitTree argument; World.seedTree c.object : Effect ExecuteError Unit)
      { u with pins := argument.toList.map .value ++ u.pins })
  rw [show (execute argument c u).state = _ from hstate]
  exact hpins hinner.1 _

end Courses

section Negations

open Script (Closure Heap Host Machine Scope)

/-- A frame in which `b` negates `a`, which negates `x`; each is declared before what it uses. -/
def negations : Frame :=
  ⟨"Frame", "app",
    [.function "b" 0 (.listener [⟨"a", ["self", "a"]⟩] (.scalar .bool) "return !a;"),
     .function "a" 0 (.listener [⟨"x", ["self", "x"]⟩] (.scalar .bool) "return !x;"),
     .property "x" 0 (.scalar .bool) (.scalar (.bool true))]⟩

/-- The closure negates its second argument. -/
def negates (c : Closure) : Bool :=
  match c.function.parameters, c.function.body with
  | [_, x], [.returnValue (some (.unary .not (.variable y)))] => x == y
  | _, _ => false

/-- The value is a closure that negates its second argument. -/
def isNegation (h : Heap) : Value → Bool
  | .closure ref => (h.closures[ref.index]?).any negates
  | _ => false

theorem of_isNegation {h : Heap} {f : Value} (hf : isNegation h f = true) :
    ∃ ref c p x, f = .closure ref ∧ h.closures[ref.index]? = some c ∧
      c.function.parameters = [p, x] ∧
      c.function.body = [.returnValue (some (.unary .not (.variable x)))] := by
  unfold isNegation at hf
  split at hf
  · next ref =>
    cases hc : h.closures[ref.index]? with
    | none => simp [hc] at hf
    | some c =>
      rw [hc] at hf
      change negates c = true at hf
      unfold negates at hf
      split at hf
      · next p x y hparameters hbody =>
        rw [beq_iff_eq] at hf
        exact ⟨ref, c, p, x, rfl, hc, hparameters, hf ▸ hbody⟩
      · cases hf
  · cases hf

/-- The only object has two listeners, each of which negates the property that it points at. -/
def isChain (w : World) : Bool :=
  w.host.objects.size == 1 && decide (w.depth < w.maxDepth) &&
    (w.object ⟨0⟩).listenerNames == ["b", "a"] &&
    (w.object ⟨0⟩).listeners.all (fun l ↦ isNegation w.heap l.2) &&
    w.pointersAt (⟨0⟩, "b") == [⟨"a", ⟨0⟩, "a"⟩] && w.pointersAt (⟨0⟩, "a") == [⟨"x", ⟨0⟩, "x"⟩]

theorem assemble_negations : ∃ w, assemble negations (World.create 256 16) = .ok ⟨0⟩ w ∧
    isChain w = true := by
  have h : (assemble negations (World.create 256 16)).okWith
      (fun root w ↦ root == ⟨0⟩ && isChain w) = true := by
    decide +kernel
  obtain ⟨root, w, hassemble, h⟩ := Outcome.exists_of_okWith h
  rw [Bool.and_eq_true, beq_iff_eq] at h
  obtain ⟨rfl, hchain⟩ := h
  exact ⟨w, hassemble, hchain⟩

section Call

variable {σ : Type} {h : Host σ} {n : Nat} {m : Machine σ} {c : Closure} {p x : String}

theorem execBlock_negation {scope : Scope} {v : Value} (hx : m.heap.lookup x scope = some v) :
    Script.execBlock h (n + 6) scope [.returnValue (some (.unary .not (.variable x)))] m
      = .ok (.returned (.bool (!v.isTruthy))) m := by
  unfold Script.execBlock Script.execAll Script.exec Script.eval Script.eval
  dsimp only
  change Run.bind (Run.bind (Run.bind (Script.readVariable x scope) _) _) _ m = _
  unfold Script.readVariable Run.bind
  dsimp only
  rw [hx]
  rfl

/-- Heap in which the body of a closure runs. -/
def calledHeap (h : Heap) (c : Closure) (arguments : List Value) : Heap :=
  Script.bindParameters (h.openScope c.scope).1 c.function.parameters arguments
    (h.openScope c.scope).2

theorem closures_calledHeap (h : Heap) (c : Closure) (arguments : List Value) :
    (calledHeap h c arguments).closures = h.closures :=
  Heap.closures_bindParameters _ _ _ _

theorem lookup_calledHeap {h : Heap} (hparameters : c.function.parameters = [p, x]) (s v : Value) :
    (calledHeap h c [s, v]).lookup x (h.openScope c.scope).1 = some v := by
  simp [calledHeap, hparameters, Script.bindParameters, Heap.openScope, Heap.declare,
    Heap.bindLocal, Heap.lookup, Heap.locals, Array.getElem_modify]

variable {ref : Script.ClosureRef} (hc : m.heap.closures[ref.index]? = some c)
  (hparameters : c.function.parameters = [p, x])
  (hbody : c.function.body = [.returnValue (some (.unary .not (.variable x)))])
  (hdepth : m.depth < m.maxDepth)

include hc hparameters hbody hdepth

theorem callClosure_negation (s v : Value) :
    Script.callClosure h (n + 7) ref [s, v] m
      = .ok (.bool (!v.isTruthy)) { m with heap := calledHeap m.heap c [s, v] } := by
  unfold Script.callClosure
  rw [if_neg hdepth.not_ge, hc]
  dsimp only
  rw [hbody]
  change Run.bind (Machine.nested (Machine.pinning _ _)) _ _ = _
  unfold Run.bind Machine.nested Machine.pinning
  dsimp only
  rw [execBlock_negation (v := v) (lookup_calledHeap hparameters s v)]
  rfl

theorem callValue_negation (s v : Value) :
    Script.callValue h (n + 8) (.closure ref) [s, v] m
      = .ok (.bool (!v.isTruthy)) { m with heap := calledHeap m.heap c [s, v] } := by
  have hcall : Script.call h (n + 8) (.closure ref) [s, v] m
      = .ok (.bool (!v.isTruthy)) { m with heap := calledHeap m.heap c [s, v] } := by
    have hpinned := callClosure_negation (h := h) (n := n)
      (m := { m with pins := [.closure ref, s, v].map .value ++ m.pins }) hc hparameters hbody
      hdepth s v
    unfold Script.call
    change (Script.callClosure h (n + 7) ref [s, v]
      { m with pins := [.closure ref, s, v].map .value ++ m.pins }).mapState _ = _
    rw [hpinned]
    rfl
  unfold Script.callValue Script.counted
  rw [hcall]

end Call

variable {w : World}

theorem eq_of_isListener (hw : isChain w = true) {y : Place} (hy : w.IsListener y) :
    y = (⟨0⟩, "b") ∨ y = (⟨0⟩, "a") := by
  simp only [isChain, Bool.and_eq_true, beq_iff_eq] at hw
  obtain ⟨⟨⟨⟨⟨hsize, -⟩, hnames⟩, -⟩, -⟩, -⟩ := hw
  obtain ⟨⟨i⟩, p⟩ := y
  have hi : i = 0 := by
    have hlt : i < w.host.objects.size := lt_size_of_isListener hy
    omega
  have hp := isListener_iff.1 hy
  subst hi
  rw [hnames] at hp
  simpa using hp

theorem cases_of_feeds (hw : isChain w = true) {x y : Place} (h : w.Feeds x y) :
    x = (⟨0⟩, "a") ∧ y = (⟨0⟩, "b") ∨ x = (⟨0⟩, "x") ∧ y = (⟨0⟩, "a") := by
  obtain ⟨hy, q, hq, rfl⟩ := h
  have hchain := hw
  simp only [isChain, Bool.and_eq_true, beq_iff_eq] at hchain
  obtain ⟨⟨-, hb⟩, ha⟩ := hchain
  rcases eq_of_isListener hw hy with rfl | rfl
  · rw [hb, List.mem_singleton] at hq
    exact .inl ⟨hq ▸ rfl, rfl⟩
  · rw [ha, List.mem_singleton] at hq
    exact .inr ⟨hq ▸ rfl, rfl⟩

theorem acyclic_of_isChain (hw : isChain w = true) : w.Acyclic := by
  refine acyclic_of_rank (fun x ↦ if x.2 = "b" then 2 else if x.2 = "a" then 1 else 0) ?_
  intro x y h
  rcases cases_of_feeds hw h with ⟨rfl, rfl⟩ | ⟨rfl, rfl⟩ <;> decide

theorem depth_lt_of_isChain (hw : isChain w = true) : w.depth < w.maxDepth := by
  simp only [isChain, Bool.and_eq_true, decide_eq_true_iff] at hw
  exact hw.1.1.1.1.2

/-- What a negation yields. -/
def negation (arguments : List Value) : Value :=
  match arguments with
  | [_, v] => .bool (!v.isTruthy)
  | _ => .null

theorem pureBodies_of_isChain (hw : isChain w = true) :
    w.PureBodies (fun u ↦ w.heap.Extends u.heap ∧ u.depth < u.maxDepth) fun _ ↦ negation where
  congr u u' hheap hdepth hmaxDepth hu := by
    rw [hheap, hdepth, hmaxDepth]
    exact hu
  defined y vs := by
    unfold negation
    split <;> exact nofun
  call y f hf vs hvs u hu := by
    have hchain := hw
    simp only [isChain, Bool.and_eq_true, beq_iff_eq] at hchain
    obtain ⟨⟨⟨-, hall⟩, hb⟩, ha⟩ := hchain
    have hlength : (w.pointersAt y).length = 1 := by
      rcases eq_of_isListener hw ⟨f, hf⟩ with rfl | rfl
      · rw [hb]
        rfl
      · rw [ha]
        rfl
    obtain ⟨v, rfl⟩ := List.length_eq_one_iff.1 (hvs.trans hlength)
    have hf : isNegation w.heap f = true := by
      have hy : y.1 = ⟨0⟩ := by
        rcases eq_of_isListener hw ⟨f, hf⟩ with rfl | rfl <;> rfl
      obtain ⟨l, hl, rfl⟩ := Option.map_eq_some_iff.1 hf
      rw [hy] at hl
      exact List.all_eq_true.1 hall l (List.mem_of_find?_eq_some hl)
    obtain ⟨ref, c, p, x, rfl, hc, hparameters, hbody⟩ := of_isNegation hf
    obtain ⟨n, hn⟩ : ∃ n, stepBound = n + 8 := ⟨stepBound - 8, by decide⟩
    refine ⟨{ u with heap := calledHeap u.heap c [w.toValue y.1, v] }, fun write ↦ ?_, rfl,
      hu.1.trans (.of_closures_eq (closures_calledHeap _ _ _)), hu.2⟩
    rw [hn]
    exact callValue_negation (hu.1 _ _ hc) hparameters hbody hu.2 _ v

end Negations

end World

end ReactiveFrames
