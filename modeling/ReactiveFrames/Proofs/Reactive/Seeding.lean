import Mathlib.Data.Fintype.Card
import ReactiveFrames.Proofs.Reactive.Consistency
import ReactiveFrames.Proofs.Reactive.Edges

/-!
# Seeding

When a frame has been assembled, its listeners are run: the children of an object before the object,
and the listeners of an object in the order of their declaration. What a listener yields is written,
which runs the listeners that point at it, before the next one has its turn. So there is an order in
which listeners have their turns (`World.seeding`), in which a listener comes up several times if it
points at several listeners.

This order knows nothing of what the listeners point at. A listener whose turn comes before all that
is there is skipped, and a report says what is missing. So there are no reports if and only if each
listener comes up only after all that it points at (`World.Ordered`). In any case nothing is lost:
in an acyclic frame with pure listeners the listener that was skipped is run again when what was
missing is written, and in the end each listener has a value.

## Main definitions

* `World.seeding`: the order in which listeners have their turns.
* `World.Ordered`: no listener has its turn before what it points at is there.
* `World.Alarms`: what is reported while listeners have their turns.

## Main statements

* `World.seeding_reports`: what seeding reports in an acyclic frame with pure listeners.
* `World.seeding_reports_negations`: a frame whose order of declaration leads to a report.
-/

open Filter

namespace ReactiveFrames

open Script (Value)
open Relation (TransGen)

namespace World

/-! ## Turns -/

/-- Properties that have values. -/
def present (w : World) : Set Place := {x | (w.get? x.1 x.2).isSome}

/-- Listeners that observe a property, in the order in which they were added. -/
def observing (g : World) (x : Place) : List Place :=
  ((g.object x.1).observersOf x.2).filterMap Observer.place?

/-- Turns when a listener is run: first its own, and then those of the listeners that observe it.
Chains of more than `depth` listeners are cut. -/
def cascade (g : World) : Nat → Place → List Place
  | 0, _ => []
  | depth + 1, y => y :: (g.observing y).flatMap (g.cascade depth)

/-- Turns when the listeners of a tree are seeded. -/
def seeding (g : World) (depth : Nat) (root : ObjectRef) : List Place :=
  (g.listenersUp g.treeDepth root).flatMap (g.cascade depth)

/-- Whoever has a turn comes after all that it points at, where `P` is there before. -/
def Ordered (g : World) (P : Set Place) : List Place → Prop
  | [] => True
  | y :: ys => (∀ x, g.Feeds x y → x ∈ P) ∧ g.Ordered (insert y P) ys

theorem ordered_append {g : World} {P : Set Place} {l l' : List Place} :
    g.Ordered P (l ++ l') ↔ g.Ordered P l ∧ g.Ordered (P ∪ {y | y ∈ l}) l' := by
  induction l generalizing P with
  | nil => simp [Ordered]
  | cons y ys ih =>
    have hunion : insert y P ∪ {z | z ∈ ys} = P ∪ {z | z ∈ y :: ys} := by
      ext z
      simp only [Set.mem_union, Set.mem_insert_iff, Set.mem_ofPred_eq, List.mem_cons]
      tauto
    rw [List.cons_append, Ordered, Ordered, ih, hunion, and_assoc]

section Present

variable {w w' : World} {x : Place}

theorem present_congr (h : ∀ a p, w'.get? a p = w.get? a p) : w'.present = w.present := by
  ext y
  rw [present, present, Set.mem_ofPred_eq, Set.mem_ofPred_eq, h]

theorem present_begun (hx : x.1.index < w.host.objects.size) (v : Value) :
    (w.begun x.1 x.2 v).present = insert x w.present := by
  ext y
  rw [present, Set.mem_ofPred_eq, get?_begun, Set.mem_insert_iff]
  by_cases hy : y = x
  · rw [hy, if_pos ⟨rfl, rfl, hx⟩]
    exact iff_of_true rfl (.inl rfl)
  · rw [if_neg fun hand ↦ hy (Prod.ext hand.1 hand.2.1), or_iff_right hy]
    rfl

theorem present_define (hx : x.1.index < w.host.objects.size) (v : Value) :
    (w.define x.1 x.2 v).present = insert x w.present := by
  rw [← present_begun hx v]
  exact (present_congr fun a p ↦ get?_startNotifying (w.define x.1 x.2 v) x.1 a x.2 p).symm

theorem not_mem_present_iff : x ∉ w.present ↔ w.get? x.1 x.2 = none := Option.not_isSome_iff_eq_none

/-- The values of all that a listener points at are there. -/
theorem mem_present_of_map_eq {y : Place} {vs : List Value}
    (hvs : (w.pointersAt y).map (fun q ↦ w.get? q.object q.property) = vs.map some) {q : Pointer}
    (hq : q ∈ w.pointersAt y) : (q.object, q.property) ∈ w.present := by
  have hmem := List.mem_map_of_mem (f := fun q ↦ w.get? q.object q.property) hq
  rw [hvs] at hmem
  obtain ⟨v, -, hv⟩ := List.mem_map.1 hmem
  exact Option.isSome_iff_exists.2 ⟨v, hv.symm⟩

end Present

/-! ## What is reported -/

/-- What is reported between two worlds while listeners have their turns, where `P` is there when
the first one has its turn: a property that a listener points at and that was not there in the
beginning. If there is no report, then all have been run in order. -/
structure Alarms (g : World) (P : Set Place) (l : List Place) (w w' : World)
    (es : List ObserverError) : Prop where
  kept : P ⊆ w'.present
  diagnostics : w'.host.diagnostics = es.foldl Diagnostics.report w.host.diagnostics
  missing : ∀ e ∈ es, ∃ x y, g.Feeds x y ∧ x ∉ P ∧
    e = .missingProperty (g.object x.1).path x.2 y.2
  eq_nil_iff : es = [] ↔ g.Ordered P l
  complete : es = [] → w'.present = P ∪ {y | y ∈ l}

namespace Alarms

variable {g w w' u : World} {P : Set Place} {l l' : List Place} {y : Place}
  {es es' : List ObserverError}

/-- No one has a turn. -/
theorem nil (hP : w'.present = P) (h : w'.host.diagnostics = w.host.diagnostics) :
    g.Alarms P [] w w' [] where
  kept := hP.ge
  diagnostics := h
  missing _ he := absurd he List.not_mem_nil
  eq_nil_iff := iff_of_true rfl trivial
  complete _ := by simp [hP]

/-- A listener has its turn when all that it points at is there. -/
theorem cons (hy : ∀ x, g.Feeds x y → x ∈ P) (h : g.Alarms (insert y P) l w w' es) :
    g.Alarms P (y :: l) w w' es where
  kept := (Set.subset_insert y P).trans h.kept
  diagnostics := h.diagnostics
  missing e he := by
    obtain ⟨x, z, hxz, hx, heq⟩ := h.missing e he
    exact ⟨x, z, hxz, fun hmem ↦ hx (.inr hmem), heq⟩
  eq_nil_iff := by rw [h.eq_nil_iff, Ordered, and_iff_right hy]
  complete hnil := by
    rw [h.complete hnil]
    ext z
    simp only [Set.mem_union, Set.mem_insert_iff, Set.mem_ofPred_eq, List.mem_cons]
    tauto

/-- A listener has its turn when something is missing that it points at. -/
theorem skip {x : Place} (hxy : g.Feeds x y) (hx : x ∉ P) (hP : P ⊆ w'.present)
    (h : w'.host.diagnostics
      = w.host.diagnostics.report (.missingProperty (g.object x.1).path x.2 y.2)) :
    g.Alarms P (y :: l) w w' [.missingProperty (g.object x.1).path x.2 y.2] where
  kept := hP
  diagnostics := h
  missing _ he := ⟨x, y, hxy, hx, List.mem_singleton.1 he⟩
  eq_nil_iff := iff_of_false (List.cons_ne_nil _ _) fun hordered ↦ hx (hordered.1 x hxy)
  complete hnil := absurd hnil (List.cons_ne_nil _ _)

protected theorem trans (h : g.Alarms P l w u es) (h' : g.Alarms u.present l' u w' es') :
    g.Alarms P (l ++ l') w w' (es ++ es') where
  kept := h.kept.trans h'.kept
  diagnostics := by rw [h'.diagnostics, h.diagnostics, List.foldl_append]
  missing e he := by
    rcases List.mem_append.1 he with he | he
    · exact h.missing e he
    · obtain ⟨x, y, hxy, hx, heq⟩ := h'.missing e he
      exact ⟨x, y, hxy, fun hmem ↦ hx (h.kept hmem), heq⟩
  eq_nil_iff := by
    rw [List.append_eq_nil_iff, ordered_append, h'.eq_nil_iff]
    constructor
    · rintro ⟨hnil, hordered⟩
      exact ⟨h.eq_nil_iff.1 hnil, h.complete hnil ▸ hordered⟩
    · rintro ⟨hfirst, hordered⟩
      have hnil := h.eq_nil_iff.2 hfirst
      exact ⟨hnil, (h.complete hnil).symm ▸ hordered⟩
  complete hnil := by
    obtain ⟨hnil, hnil'⟩ := List.append_eq_nil_iff.1 hnil
    rw [h'.complete hnil', h.complete hnil]
    ext z
    simp only [Set.mem_union, Set.mem_ofPred_eq, List.mem_append]
    tauto

/-- Only the diagnostics and the values matter. -/
theorem congr {v v' : World} (h : g.Alarms P l w w' es)
    (hv : v.host.diagnostics = w.host.diagnostics) (hv' : v'.host.diagnostics = w'.host.diagnostics)
    (hget : ∀ a p, v'.get? a p = w'.get? a p) : g.Alarms P l v v' es where
  kept := by
    rw [present_congr hget]
    exact h.kept
  diagnostics := by rw [hv', hv, h.diagnostics]
  missing := h.missing
  eq_nil_iff := h.eq_nil_iff
  complete hnil := by rw [present_congr hget, h.complete hnil]

end Alarms

/-! ## Listeners that have their turns -/

/-- What a write leads to while there is room for less than so many nested ones: the listeners that
observe what it stores have their turns. -/
def Alarming (g : World) (fit : World → Prop) (write : Writer) (levels : Nat) : Prop :=
  ∀ (x : Place) (v : Value) (w w' : World), g.Ready fit w → g.Open w x →
    x.1.index < g.host.objects.size → w.unguarded.length < levels →
    write x.1 x.2 v w = .ok () w' → ∃ es, ∀ depth, w.unguarded.length ≤ depth →
      g.Alarms (insert x w.present) ((g.observing x).flatMap (g.cascade depth)) w w' es

section Turns

variable {g : World} {fit : World → Prop} {body : Place → List Value → Value}
  (hg : g.Linked) (hbody : g.PureBodies fit body)

include hg hbody

/-- A listener has its turn. -/
theorem exists_alarms_of_fire {ε : Type} {write : Writer} {levels : Nat}
    (hset : g.Propagating fit body write levels) (halarm : g.Alarming fit write levels)
    {y : Place} {w w' : World} (hw : g.Ready fit w) (hy : g.IsListener y) (hopen : g.Open w y)
    (hlevels : w.unguarded.length < levels)
    (hfire : (reporting (invokeListener stepBound ⟨get?, write⟩ y.1 y.2) : Effect ε Unit) w
      = .ok () w') :
    ∃ es, ∀ depth, w.unguarded.length ≤ depth →
      g.Alarms w.present (g.cascade (depth + 1) y) w w' es := by
  rcases fire_cases hg hbody hw hy with
    ⟨vs, u, hvs, hu, hdrifts, hhost, hrun⟩ | ⟨q, hq, hnone, hrun⟩
  · -- What the body yields is written.
    have hroom : u.unguarded.length = w.unguarded.length := by
      rw [(Keeps.of_drifts hdrifts).unguarded]
    have hopen : g.Open u y := hopen.keeps (.of_drifts hdrifts)
    obtain ⟨v, hwrite, -⟩ := hset y _ u hu hopen (hroom ▸ hlevels)
    cases (hrun hwrite).symm.trans hfire
    obtain ⟨es, hes⟩ :=
      halarm y _ u v hu hopen (lt_size_of_isListener hy) (hroom ▸ hlevels) hwrite
    rw [present_congr hdrifts.get?, hroom] at hes
    refine ⟨es, fun depth hdepth ↦ .cons ?_ ((hes depth hdepth).congr (by rw [hhost]) rfl
      fun _ _ ↦ rfl)⟩
    rintro x ⟨-, q, hq, rfl⟩
    exact mem_present_of_map_eq hvs (hw.pointersAt y ▸ hq)
  · -- What is missing is reported.
    have hreport : w' = w.report (.missingProperty (g.object q.object).path q.property y.2) := by
      rw [reporting, hrun] at hfire
      cases hfire
      rfl
    refine ⟨_, fun depth _ ↦ .skip (x := (q.object, q.property)) ⟨hy, q, hq, rfl⟩ ?_ ?_ ?_⟩
    · exact not_mem_present_iff.2 hnone
    · rw [hreport, present_congr (Drifts.report _ w).get?]
    · rw [hreport]
      rfl

variable (hacyclic : g.Acyclic)

include hacyclic

/-- The observers of a property have their turns, one after the other. -/
theorem exists_alarms_of_runObservers {ε : Type} {write : Writer} {levels : Nat}
    (hset : g.Propagating fit body write levels) (halarm : g.Alarming fit write levels)
    {x : Place} (v : Value) {observers : List Observer}
    (hobservers : ∀ observer ∈ observers, ∃ y, observer = .listener y.1 y.2 ∧ g.Feeds x y)
    {w w' : World} (hw : g.Ready fit w)
    (hopen : ∀ y, TransGen g.Feeds x y → y.2 ∉ (w.object y.1).notifying)
    (hlevels : w.unguarded.length < levels)
    (hrun : (runObservers stepBound ⟨get?, write⟩ v observers : Effect ε Unit) w = .ok () w') :
    ∃ es, ∀ depth, w.unguarded.length ≤ depth → g.Alarms w.present
      ((observers.filterMap Observer.place?).flatMap (g.cascade (depth + 1))) w w' es := by
  induction observers generalizing w with
  | nil =>
    cases hrun
    exact ⟨[], fun _ _ ↦ .nil rfl rfl⟩
  | cons observer rest ih =>
    obtain ⟨y, rfl, hxy⟩ := hobservers observer List.mem_cons_self
    have hopeny : g.Open w y := ⟨hopen y (.single hxy), fun z hyz ↦ hopen z (.head hxy hyz)⟩
    obtain ⟨u, hfire, hu, hpropagates, -⟩ :=
      exists_fire (ε := ε) hg hacyclic hbody hset hw hxy.1 hopeny hlevels
    have hroom : u.unguarded.length = w.unguarded.length := by
      rw [hpropagates.toKeeps.unguarded]
    have hrest : (runObservers stepBound ⟨get?, write⟩ v rest : Effect ε Unit) u = .ok () w' := by
      obtain ⟨_, u', hfire', hrest⟩ := Run.bind_eq_ok.1 hrun
      cases hfire.symm.trans hfire'
      exact hrest
    obtain ⟨es, hes⟩ := exists_alarms_of_fire hg hbody hset halarm hw hxy.1 hopeny hlevels hfire
    obtain ⟨es', hes'⟩ := ih (fun z hz ↦ hobservers z (List.mem_cons_of_mem _ hz)) hu
      (fun z hz ↦ by rw [hpropagates.notifying]; exact hopen z hz) (hroom ▸ hlevels) hrest
    exact ⟨es ++ es', fun depth hdepth ↦ (hes depth hdepth).trans (hes' depth (hroom ▸ hdepth))⟩

/-- A write leads to the turns of its observers, whatever levels there are. -/
theorem alarming (levels : Nat) : g.Alarming fit (setWithin stepBound get? levels) levels := by
  induction levels with
  | zero => exact fun _ _ _ _ _ _ _ hlevels ↦ absurd hlevels (Nat.not_lt_zero _)
  | succ levels ih =>
    intro x v w w' hw hopen hx hlevels hrun
    have hxw : x.1.index < w.host.objects.size := hw.size.symm ▸ hx
    by_cases hobs : (w.object x.1).observersOf x.2 = []
    · have hnone : g.observing x = [] := by
        rw [observing, ← hw.observersOf, hobs, List.filterMap_nil]
      rw [setWithin, setWith_of_unobserved hopen.1 hobs] at hrun
      cases hrun
      rw [hnone]
      exact ⟨[], fun _ _ ↦ .nil (present_define hxw v) rfl⟩
    · have hbegun : g.Ready fit (w.begun x.1 x.2 v) :=
        hw.congr hbody (hw.toWired.begun x.1 x.2 v) rfl rfl rfl rfl rfl
      have hroom := length_unguarded_begun hopen.1 hobs v
      have hfeeds : ∀ o ∈ (w.object x.1).observersOf x.2,
          ∃ y, o = .listener y.1 y.2 ∧ g.Feeds x y :=
        fun o ho ↦ hg.feeds x o (hw.observersOf x ▸ ho)
      have hset := propagating hg hacyclic hbody levels
      obtain ⟨u, hobservers, -⟩ := exists_runObservers (ε := ObserverError) hg hacyclic hbody hset v
        hfeeds hbegun (hopen.begun hacyclic v) (by omega)
      rw [setWithin, setWith_of_observed hopen.1 hobs hobservers] at hrun
      cases hrun
      obtain ⟨es, hes⟩ := exists_alarms_of_runObservers hg hbody hacyclic hset ih v hfeeds hbegun
        (hopen.begun hacyclic v) (by omega) hobservers
      rw [present_begun hxw, hw.observersOf] at hes
      -- The property itself is guarded now, so the chains below it are shorter by one.
      refine ⟨es, fun depth hdepth ↦ ?_⟩
      obtain ⟨depth, rfl⟩ : ∃ n, depth = n + 1 := ⟨depth - 1, by omega⟩
      exact (hes depth (by omega)).congr rfl rfl fun a p ↦
        get?_stopNotifying { u with pins := w.pins } x.1 a x.2 p

theorem alarming_set (levels : Nat) : g.Alarming fit World.set levels :=
  fun x v w w' hw hopen hx _ hrun ↦ alarming hg hbody hacyclic w.levels x v w w' hw hopen hx
    (Nat.lt_of_succ_lt w.length_unguarded_lt_levels) hrun

/-- Listeners have their turns while no write is under way. -/
theorem exists_alarms_of_forM {ε : Type} {l : List Place} (hl : ∀ y ∈ l, g.IsListener y)
    {w w' : World} (hw : g.Ready fit w) (hunguarded : ∀ o, (w.object o).notifying = [])
    (hrun : (l.forM fun y ↦ fire y.1 y.2 : Effect ε Unit) w = .ok () w') :
    ∃ es, ∀ depth, w.unguarded.length ≤ depth →
      g.Alarms w.present (l.flatMap (g.cascade (depth + 1))) w w' es := by
  induction l generalizing w with
  | nil =>
    cases hrun
    exact ⟨[], fun _ _ ↦ .nil rfl rfl⟩
  | cons y ys ih =>
    have hy := hl y List.mem_cons_self
    obtain ⟨_, u, hfire, hrest⟩ := Run.bind_eq_ok.1 hrun
    have hset := propagating_set hg hacyclic hbody (w.unguarded.length + 1)
    have hopen := open_of_unguarded (g := g) hunguarded y
    obtain ⟨es, hes⟩ := exists_alarms_of_fire hg hbody hset (alarming_set hg hbody hacyclic _) hw hy
      hopen (Nat.lt_succ_self _) hfire
    obtain ⟨u', hfire', hu, hpropagates, -⟩ :=
      exists_fire (ε := ε) hg hacyclic hbody hset hw hy hopen (Nat.lt_succ_self _)
    cases hfire'.symm.trans hfire
    obtain ⟨es', hes'⟩ := ih (fun z hz ↦ hl z (List.mem_cons_of_mem _ hz)) hu
      (fun o ↦ (hpropagates.notifying o).trans (hunguarded o)) hrest
    rw [hpropagates.toKeeps.unguarded] at hes'
    exact ⟨es ++ es', fun depth hdepth ↦ (hes depth hdepth).trans (hes' depth hdepth)⟩

end Turns

/-! ## Trees -/

section Trees

variable {g w : World} {root : ObjectRef}

/-- Seeding a tree goes through its listeners, also when they have run before. -/
theorem seedTree_eq_forM_of_sameWiring {ε : Type}
    (hchildren : ∀ a, g.Below root a → ∀ c, g.Child a c →
      a.index < c.index ∧ c.index < g.host.objects.size)
    (hroot : root.index < g.host.objects.size) (hw : g.SameWiring w) :
    (seedTree root : Effect ε Unit) w
      = ((g.listenersUp g.treeDepth root).forM fun y ↦ fire y.1 y.2) w := by
  have hact (o : ObjectRef) (w : World) (hw : g.SameWiring w) :
      (seedListeners o : Effect ε Unit) w = ((g.listenersAt o).forM fun y ↦ fire y.1 y.2) w := by
    have hnames : (w.object o).listenerNames = (g.object o).listenerNames :=
      (congrArg ReactiveObject.listenerNames (hw.wiring o) :)
    rw [listenersAt, ← hnames, List.forM_eq_forM, List.forM_map]
    rfl
  have hdepth : w.treeDepth = g.treeDepth := by rw [treeDepth, treeDepth, hw.size]
  rw [seedTree, hdepth]
  exact visit_eq_forM (I := g.SameWiring)
    (fun w hw o ↦ (congrArg (fun x : ReactiveObject ↦ x.children) (hw.wiring o) :)) hact
    (fun y ↦ (writeClosed_sameWiring g).scriptClosed.fire y.1 y.2) g.treeDepth root hchildren hroot
    (g.size_le_add_treeDepth _) hw

/-- Seeding a tree goes through its listeners. -/
theorem seedTree_eq_forM {ε : Type}
    (hchildren : ∀ a c, g.Child a c → a.index < c.index ∧ c.index < g.host.objects.size)
    (hroot : root.index < g.host.objects.size) :
    (seedTree root : Effect ε Unit) g
      = ((g.listenersUp g.treeDepth root).forM fun y ↦ fire y.1 y.2) g :=
  seedTree_eq_forM_of_sameWiring (fun a _ ↦ hchildren a) hroot (.refl g)

theorem isListener_of_mem_listenersUp {y : Place} {depth : Nat} {o : ObjectRef}
    (hy : y ∈ g.listenersUp depth o) : g.IsListener y := by
  obtain ⟨a, -, hy⟩ := List.mem_flatMap.1 hy
  obtain ⟨name, hname, rfl⟩ := List.mem_map.1 hy
  exact isListener_iff.2 hname

/-- There are finitely many listeners. -/
theorem finite_isListener (g : World) : {y | g.IsListener y}.Finite := by
  refine ((List.range g.host.objects.size).flatMap fun i ↦ g.listenersAt ⟨i⟩).finite_toSet.subset ?_
  intro y hy
  refine List.mem_flatMap.2 ⟨y.1.index, List.mem_range.2 (lt_size_of_isListener hy), ?_⟩
  exact List.mem_map.2 ⟨y.2, isListener_iff.1 hy, rfl⟩

/-- What holds of a listener if it holds of the listeners that it points at holds of all. -/
theorem Acyclic.induction (h : g.Acyclic) {Q : Place → Prop}
    (hstep : ∀ y, g.IsListener y → (∀ x, g.Feeds x y → g.IsListener x → Q x) → Q y) {y : Place}
    (hy : g.IsListener y) : Q y := by
  have hfinite : Finite {y // g.IsListener y} := (finite_isListener g).to_subtype
  let r : {y // g.IsListener y} → {y // g.IsListener y} → Prop := fun x y ↦ TransGen g.Feeds x y
  have htrans : IsTrans _ r := ⟨fun _ _ _ hxy hyz ↦ hxy.trans hyz⟩
  have hirrefl : Std.Irrefl r := ⟨fun x ↦ h x⟩
  have hwf : WellFounded r := Finite.wellFounded_of_trans_of_irrefl r
  have hall (z : {y // g.IsListener y}) : Q z :=
    hwf.induction z fun z ih ↦ hstep z z.2 fun x hxz hx ↦ ih ⟨x, hx⟩ (.single hxz)
  exact hall ⟨y, hy⟩

end Trees

/-! ## Assembling -/

/-- Nothing is observed, no write is under way, and the diagnostics are these. -/
structure Idle (d : Diagnostics) (w : World) : Prop where
  unobserved : ∀ o p, (w.object o).observersOf p = []
  unguarded : ∀ o, (w.object o).notifying = []
  diagnostics : w.host.diagnostics = d

namespace Idle

variable {d : Diagnostics} {w w' : World}

theorem of_object_eq (h : Idle d w)
    (hobservers : ∀ o, (w'.object o).observers = (w.object o).observers)
    (hnotifying : ∀ o, (w'.object o).notifying = (w.object o).notifying)
    (hdiagnostics : w'.host.diagnostics = w.host.diagnostics) : Idle d w' where
  unobserved o p := by
    rw [ReactiveObject.observersOf, hobservers]
    exact h.unobserved o p
  unguarded o := (hnotifying o).trans (h.unguarded o)
  diagnostics := hdiagnostics.trans h.diagnostics

theorem of_host (h : Idle d w) (heq : w'.host = w.host) : Idle d w' :=
  h.of_object_eq (fun o ↦ by rw [object, heq]; rfl) (fun o ↦ by rw [object, heq]; rfl) (by rw [heq])

theorem modify (h : Idle d w) (o : ObjectRef) {f : ReactiveObject → ReactiveObject}
    (hobservers : (f (w.object o)).observers = (w.object o).observers)
    (hnotifying : (f (w.object o)).notifying = (w.object o).notifying) : Idle d (w.modify o f) := by
  refine h.of_object_eq (fun a ↦ ?_) (fun a ↦ ?_) rfl
  all_goals rw [object_modify]; split_ifs with ha
  · rw [ha.1, hobservers]
  · rfl
  · rw [ha.1, hnotifying]
  · rfl

theorem addObject (h : Idle d w) (f : Frame) (path : String) :
    Idle d (World.addObject (.ofFrame f path) w).2 where
  unobserved o p := by
    rw [object_addObject]
    split_ifs
    · rfl
    · exact h.unobserved o p
  unguarded o := by
    rw [object_addObject]
    split_ifs
    · rfl
    · exact h.unguarded o
  diagnostics := h.diagnostics

/-- A script can refuse nothing while nothing is observed, so it reports nothing. -/
theorem preserves_evaluate (d : Diagnostics) (source : String) :
    Run.Preserves (Idle d) (World.evaluate source) := by
  have hhost : scriptHost.Tracks (Idle d) fun _ ↦ scriptHost := {
    read := fun _ _ _ _ ↦ .of_forall fun _ ↦ rfl
    write := fun ref p v ↦ .of_preserves fun w hw ↦ by
      have hset : World.set ⟨ref.index⟩ p v w = .ok () (World.define ⟨ref.index⟩ p v w) :=
        setWith_of_unobserved (by rw [hw.unguarded]; exact List.not_mem_nil) (hw.unobserved _ p)
      change Idle d
        (reporting (World.set ⟨ref.index⟩ p v) w : Outcome World Script.ScriptError Unit).state
      rw [reporting, hset]
      exact hw.modify ⟨ref.index⟩ (f := (·.define p v)) rfl rfl
    call := fun ref arguments ↦ .of_preserves fun w hw ↦ by
      simp only [scriptHost, hostOf]
      split
      · exact hw.of_host (Foreign.host_apply _ _ w)
      · exact hw }
  exact Script.tracks_evaluate (fun _ _ hg hw ↦ hw.of_host hg.host) hhost
    (.of_forall fun _ ↦ le_rfl) source

theorem buildClosed (d : Diagnostics) : BuildClosed (Idle d) where
  congr _ _ heq _ hw := hw.of_host heq
  modify _ o _ hobservers hnotifying hw := hw.modify o hobservers hnotifying
  addObject f path _ hw := hw.addObject f path
  evaluate := preserves_evaluate d

end Idle

section Assemble

variable {f : Frame} {root : ObjectRef} {w w' : World} (hempty : w.host.objects = #[])
  (hcycle : w.NoCycle) (h : assemble f w = .ok root w')

include hempty hcycle h

/-- Assembling a frame reports nothing, and all objects have what the frame declares. -/
theorem furnished_of_assemble : w'.host.diagnostics = w.host.diagnostics ∧
    (w'.object root).frame = f ∧
    ∀ o : ObjectRef, o.index < w'.host.objects.size → w'.Furnished o := by
  obtain ⟨u, g, hbuild, hresolve, hg, -, -, hlinking, -⟩ :=
    exists_linking_of_assemble hempty hcycle h
  have hidle : Idle w.host.diagnostics u := by
    have hblank (o : ObjectRef) : w.object o = .blank := by
      rw [object, ObjectGraph.object, hempty]
      rfl
    have hstart : Idle w.host.diagnostics w :=
      ⟨fun o p ↦ by rw [hblank]; rfl, fun o ↦ by rw [hblank]; rfl, rfl⟩
    exact ((Idle.buildClosed _).build f).of_ok hstart hbuild
  have hbound : u.SameButPointers g :=
    (preserves_sameButPointers_resolve u _ _ _).of_ok (.refl u) hresolve
  have hsame : g.host.diagnostics = u.host.diagnostics :=
    (congrArg (fun w : World ↦ w.host.diagnostics) hbound.rest :)
  have hobject (o : ObjectRef) :
      { w'.object o with pointers := Table.empty, observers := Table.empty } =
        { u.object o with pointers := Table.empty, observers := Table.empty } := by
    have hlinked := congrArg (fun x : ReactiveObject ↦ { x with pointers := Table.empty })
      (hlinking.object o)
    have hresolved := congrArg (fun x : ReactiveObject ↦ { x with observers := Table.empty })
      (hbound.object o)
    exact hlinked.trans hresolved
  have hframe (o : ObjectRef) : (w'.object o).frame = (u.object o).frame :=
    (congrArg ReactiveObject.frame (hobject o) :)
  refine ⟨hlinking.diagnostics.trans (hsame.trans hidle.diagnostics),
    (hframe root).trans (isTreeOf_of_build hbuild).frame, fun o ho ↦ ?_⟩
  have hfurnished : u.Furnished o := (furnished_of_build hbuild).2 o
    (by rw [hempty]; exact Nat.zero_le _) (by rwa [← hbound.size, ← hlinking.size])
  have hnames : (w'.object o).listenerNames = (u.object o).listenerNames :=
    (congrArg ReactiveObject.listenerNames (hobject o) :)
  have hproperties : (w'.object o).properties = (u.object o).properties :=
    (congrArg ReactiveObject.properties (hobject o) :)
  refine ⟨?_, ?_, fun m hm hstored ↦ ?_⟩
  · rw [hlinking.held]
    exact hg.held o (hlinking.size ▸ ho)
  · rw [hnames, hframe, hfurnished.listenerNames]
  · rw [get?, hproperties]
    exact hfurnished.stored m (hframe o ▸ hm) hstored

end Assemble

/-! ## Compiled frames -/

/-- What the listeners point at is declared by the frame of its object: as a listener, or as a
member that becomes a property when it is built. -/
def PointsAtDeclared (g : World) : Prop :=
  ∀ x y, g.Feeds x y → ∃ m ∈ (g.object x.1).frame.members,
    m.name = x.2 ∧ (m.isStored = true ∨ m.listener?.isSome)

/-- What is declared is there, or it is a listener. -/
theorem PointsAtDeclared.cases {g : World} (h : g.PointsAtDeclared) (hg : g.Linked)
    (hfurnished : ∀ o : ObjectRef, o.index < g.host.objects.size → g.Furnished o) {x y : Place}
    (hxy : g.Feeds x y) : x ∈ g.present ∨ g.IsListener x := by
  have hx := hfurnished x.1 (hg.target x y hxy)
  obtain ⟨m, hm, hname, hstored | hlistener⟩ := h x y hxy
  · have hpresent := hx.stored m hm hstored
    rw [hname] at hpresent
    exact .inl hpresent
  · obtain ⟨name, hlistener⟩ := Option.isSome_iff_exists.1 hlistener
    refine .inr (isListener_iff.2 ?_)
    rw [hx.listenerNames, ← hname, Member.name_of_listener? hlistener]
    exact List.mem_filterMap.2 ⟨m, hm, hlistener⟩

/-- A listener has a value if it is consistent and all that it points at has one. -/
theorem Consistent.mem_present {body : Place → List Value → Value} {w : World} {y : Place}
    (h : Consistent body w y) (hinputs : ∀ q ∈ w.pointersAt y, (q.object, q.property) ∈ w.present) :
    y ∈ w.present := by
  obtain ⟨vs, hvs⟩ : ∃ vs : List Value,
      (w.pointersAt y).map (fun q ↦ w.get? q.object q.property) = vs.map some := by
    generalize w.pointersAt y = ps at hinputs
    induction ps with
    | nil => exact ⟨[], rfl⟩
    | cons q ps ih =>
      obtain ⟨vs, hvs⟩ := ih fun r hr ↦ hinputs r (List.mem_cons_of_mem _ hr)
      obtain ⟨v, hv⟩ := Option.isSome_iff_exists.1 (hinputs q List.mem_cons_self)
      exact ⟨v :: vs, by rw [List.map_cons, List.map_cons, hvs, hv]⟩
  exact Option.isSome_iff_exists.2 ⟨_, h vs hvs⟩

/-- A listener that points at something which is not there is not called. -/
theorem Wired.invoke_of_not_mem_present {g w : World} (hg : g.Linked) (hw : g.Wired w) {x y : Place}
    (hxy : g.Feeds x y) (hx : x ∉ w.present) : ∃ z, g.Feeds z y ∧ z ∉ w.present ∧
      invoke y.1 y.2 w = .error (.missingProperty (g.object z.1).path z.2 y.2) w := by
  obtain ⟨⟨f, hf⟩, q, hq, rfl⟩ := hxy
  rcases hw.listenerCall?_cases hg hf with ⟨vs, hvs, -⟩ | ⟨r, hr, hnone, hcall⟩
  · exact absurd (mem_present_of_map_eq hvs (hw.pointersAt y ▸ hq)) hx
  · exact ⟨(r.object, r.property), ⟨⟨f, hf⟩, r, hr, rfl⟩, not_mem_present_iff.2 hnone,
      invokeListener_of_error (a := access) hcall⟩

section Negations

/-- Compiling the chain reports that `a` is missing when `b` is run. -/
theorem compileObject_negations : ∃ w, compileObject negations (World.create 256 16) = .ok ⟨0⟩ w ∧
    w.host.diagnostics.errors = [.missingProperty "app" "a" "b"] := by
  have h : (compileObject negations (World.create 256 16)).okWith (fun root w ↦
      root == ⟨0⟩ &&
        decide (w.host.diagnostics.errors = [.missingProperty "app" "a" "b"])) = true := by
    decide +kernel
  obtain ⟨root, w, hcompile, h⟩ := Outcome.exists_of_okWith h
  rw [Bool.and_eq_true, beq_iff_eq, decide_eq_true_iff] at h
  obtain ⟨rfl, herrors⟩ := h
  exact ⟨w, hcompile, herrors⟩

theorem pointsAtDeclared_negations {w : World}
    (h : assemble negations (World.create 256 16) = .ok ⟨0⟩ w) (hw : isChain w = true) :
    w.PointsAtDeclared := by
  obtain ⟨-, hframe, -⟩ := furnished_of_assemble rfl (NoCycle.create 256 16) h
  intro x y h
  rcases cases_of_feeds hw h with ⟨rfl, rfl⟩ | ⟨rfl, rfl⟩
  · exact ⟨_, by rw [hframe]; exact .tail _ (.head _), rfl, .inr rfl⟩
  · exact ⟨_, by rw [hframe]; exact .tail _ (.tail _ (.head _)), rfl, .inl rfl⟩

end Negations

end World

end ReactiveFrames
