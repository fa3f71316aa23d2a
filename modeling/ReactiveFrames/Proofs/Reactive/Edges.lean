import ReactiveFrames.Proofs.Reactive.Faults
import ReactiveFrames.Proofs.Reactive.Furnishing

/-!
# The wiring of a compiled frame

Three passes wire a frame. Building makes the listeners of each object, resolving binds their
arguments, and linking makes a listener an observer of everything that it points at. Together they
yield one edge for each argument of a listener and no other edge. The observers of a property come
in the order of a walk through the tree of objects: the children of an object before the object, the
listeners of an object in the order of their declaration, and the arguments of a listener in theirs.

Linking and seeding go through the listeners of a tree in this order; it is said once, for whatever
is done with a listener (`World.visit_eq_forM`).

## Main definitions

* `World.postorder`, `World.listenersUp`: objects and listeners of a tree, children first.
* `World.edges`: what the arguments of the listeners of a tree mean, in this order.
* `World.ExactlyWired`: the listeners of a tree and their observers are those that it declares.

## Main statements

* `World.exactly_wired`: a frame that was read and compiled is exactly wired.
-/

namespace ReactiveFrames

open Relation (ReflTransGen)

namespace World

/-! ## Objects that stay in their places -/

section SamePlaces

variable {w w' : World} {f : Frame} {root o a : ObjectRef}

namespace SamePlaces

theorem frame (h : w.SamePlaces w') (o : ObjectRef) : (w'.object o).frame = (w.object o).frame :=
  congrArg (fun p ↦ p.1) (h.place o)

theorem children (h : w.SamePlaces w') (o : ObjectRef) :
    (w'.object o).children = (w.object o).children :=
  congrArg (fun p ↦ p.2.2.2) (h.place o)

theorem below (h : w.SamePlaces w') : w'.Below o a ↔ w.Below o a := by
  have hchild : w'.Child = w.Child := by
    funext o c
    rw [Child, Child, h.children]
  rw [Below, hchild]

theorem instanceName (h : w.SamePlaces w') (o : ObjectRef) :
    (w'.object o).instanceName = (w.object o).instanceName :=
  congrArg Frame.instanceName (h.frame o)

theorem walk? (h : w.SamePlaces w') (o : ObjectRef) (names : List String) :
    w'.walk? o names = w.walk? o names := by
  induction names generalizing o with
  | nil => rfl
  | cons name names ih =>
    have hchild : w'.child? o name = w.child? o name := by
      simp only [child?, h.children, h.instanceName]
    rw [World.walk?, World.walk?, hchild]
    exact congrArg _ (funext ih)

theorem target? (h : w.SamePlaces w') (root o : ObjectRef) (segments : List String) :
    w'.target? root o segments = w.target? root o segments := by
  simp only [World.target?, start?, h.instanceName, h.walk?]

end SamePlaces

theorem IsTreeOf.samePlaces (h : w.IsTreeOf root f) (hw : w.SamePlaces w') :
    w'.IsTreeOf root f where
  frame := (hw.frame root).trans h.frame
  path := (congrArg (fun p ↦ p.2.1) (hw.place root)).trans h.path
  size := hw.size.symm ▸ h.size
  planted o ho := by
    have ho := hw.below.1 ho
    exact (h.planted o ho).congr (h.index_lt ho) hw.size.ge fun a _ _ ↦ hw.place a

/-- A path leads to no object outside of the tree. -/
theorem IsTreeOf.below_of_target? (h : w.IsTreeOf root f) {enums : EnumTable}
    (hf : f.WellFormed enums) (ho : w.Below root o) {segments : List String} {x : Place}
    (hx : w.target? root o segments = some x) : w.Below root x.1 := by
  unfold target? at hx
  split at hx
  · obtain ⟨c, hwalk, rfl⟩ := Option.map_eq_some_iff.1 hx
    obtain ⟨b, hstart, hwalk⟩ := Option.bind_eq_some_iff.1 hwalk
    have hb : w.Below root b := by
      unfold start? at hstart
      split_ifs at hstart
      · exact Option.some.inj hstart ▸ ho
      · exact Option.some.inj hstart ▸ .refl
    exact hb.trans (h.leads hf hb hwalk).below
  · cases hx

theorem IsTreeOf.index_le (h : w.IsTreeOf root f) (ho : w.Below root o) : root.index ≤ o.index := by
  induction ho with
  | refl => exact le_rfl
  | tail hp hc ih => exact ih.trans ((h.planted _ hp).newer _ hc).1.le

end SamePlaces

/-! ## Children first -/

/-- An object and all below it, of which there are less than `depth` levels, children first. -/
def postorder (w : World) : Nat → ObjectRef → List ObjectRef
  | 0, _ => []
  | depth + 1, o => (w.object o).children.flatMap (w.postorder depth) ++ [o]

/-- Listeners of an object, in order. -/
def listenersAt (w : World) (o : ObjectRef) : List Place := (w.object o).listenerNames.map (o, ·)

/-- Listeners of an object and of all below it, children first. -/
def listenersUp (w : World) (depth : Nat) (o : ObjectRef) : List Place :=
  (w.postorder depth o).flatMap w.listenersAt

section Visit

variable {g w : World} {f : Frame} {root o a : ObjectRef} {depth : Nat}

theorem IsTreeOf.mem_postorder (h : w.IsTreeOf root f) (ho : w.Below root o)
    (hdepth : w.host.objects.size ≤ o.index + depth) : a ∈ w.postorder depth o ↔ w.Below o a := by
  have hsize := h.index_lt ho
  induction depth generalizing o with
  | zero => omega
  | succ depth ih =>
    have hchild (c : ObjectRef) (hc : w.Child o c) : a ∈ w.postorder depth c ↔ w.Below c a := by
      obtain ⟨hlt, hsize'⟩ := (h.planted o ho).newer c hc
      exact ih (ho.tail hc) (by omega) hsize'
    rw [postorder, List.mem_append, List.mem_singleton, List.mem_flatMap]
    constructor
    · rintro (⟨c, hc, ha⟩ | rfl)
      · exact .head hc ((hchild c hc).1 ha)
      · exact .refl
    · intro ha
      rcases ReflTransGen.cases_head ha with rfl | ⟨c, hc, ha⟩
      · exact .inr rfl
      · exact .inl ⟨c, hc, (hchild c hc).2 ha⟩

variable {ε : Type} {I : World → Prop} {act : ObjectRef → Effect ε Unit}
  {each : Place → Effect ε Unit}
  (hI : ∀ w, I w → ∀ o, (w.object o).children = (g.object o).children)
  (hact : ∀ o w, I w → act o w = (g.listenersAt o).forM each w)
  (heach : ∀ y, Run.Preserves I (each y))

include hI hact heach

/-- A visit that does something for each listener of an object goes through the listeners of the
tree. -/
theorem visit_eq_forM (depth : Nat) (o : ObjectRef)
    (hchildren : ∀ a, g.Below o a → ∀ c, g.Child a c →
      a.index < c.index ∧ c.index < g.host.objects.size)
    (ho : o.index < g.host.objects.size) (hdepth : g.host.objects.size ≤ o.index + depth)
    (hw : I w) : visit act depth o w = (g.listenersUp depth o).forM each w := by
  induction depth generalizing o w with
  | zero => omega
  | succ depth ih =>
    -- The children, one after the other.
    have hforest (cs : List ObjectRef) (hcs : ∀ c ∈ cs, g.Child o c) {w : World} (hw : I w) :
        cs.forM (visit act depth) w = (cs.flatMap (g.listenersUp depth)).forM each w := by
      induction cs generalizing w with
      | nil => rfl
      | cons c cs ihcs =>
        have hc := hcs c List.mem_cons_self
        obtain ⟨hlt, hsize⟩ := hchildren o .refl c hc
        have hvisit := ih c (fun a ha ↦ hchildren a (.head hc ha)) hsize (by omega) hw
        have hkept : Run.Preserves I ((g.listenersUp depth c).forM each) :=
          Run.Tracks.forM fun y _ ↦ heach y
        simp only [List.forM_eq_forM, List.forM_cons, List.flatMap_cons, List.forM_append]
          at hvisit hkept ⊢
        rw [Run.bind_congr_left hvisit]
        refine Run.bind_congr_right fun _ u hrun ↦ ?_
        exact ihcs (fun d hd ↦ hcs d (List.mem_cons_of_mem _ hd)) (hkept.of_ok hw hrun)
    have hall : Run.Preserves I (((g.object o).children.flatMap (g.listenersUp depth)).forM each) :=
      Run.Tracks.forM fun y _ ↦ heach y
    have hsplit : g.listenersUp (depth + 1) o
        = (g.object o).children.flatMap (g.listenersUp depth) ++ g.listenersAt o := by
      rw [listenersUp, postorder, List.flatMap_append, List.flatMap_assoc, List.flatMap_singleton]
      rfl
    have hrun : visit act (depth + 1) o w
        = ((w.object o).children.forM (visit act depth) >>= fun _ ↦ act o) w := rfl
    rw [hrun, hI w hw, Run.bind_congr_left (hforest _ (fun c hc ↦ hc) hw), hsplit]
    simp only [List.forM_eq_forM, List.forM_append] at hall hact ⊢
    exact Run.bind_congr_right fun _ u hrun ↦ hact o u (hall.of_ok hw hrun)

end Visit

/-! ## Linking -/

/-- What the pointers of a listener lead to, each with the listener. -/
def edgesOf (w : World) (y : Place) : List (Place × Place) :=
  (w.pointersAt y).map fun q ↦ ((q.object, q.property), y)

/-- Observers of a property that edges stand for. -/
def observersBy (edges : List (Place × Place)) (x : Place) : List Observer :=
  edges.filterMap fun e ↦ if e.1 = x then some (.listener e.2.1 e.2.2) else none

/-- The edges have been added to the observers of `g`, and else nothing has happened. -/
structure Edged (g : World) (edges : List (Place × Place)) (w : World) : Prop where
  size : w.host.objects.size = g.host.objects.size
  held : w.host.held = g.host.held
  object : ∀ o, { w.object o with observers := Table.empty }
    = { g.object o with observers := Table.empty }
  observers : ∀ x : Place, (w.object x.1).observersOf x.2
    = (g.object x.1).observersOf x.2 ++ observersBy edges x

namespace Edged

variable {g w : World} {edges : List (Place × Place)} {y : Place}

protected theorem refl (g : World) : g.Edged [] g :=
  ⟨rfl, rfl, fun _ ↦ rfl, fun _ ↦ (List.append_nil _).symm⟩

theorem pointersAt (h : g.Edged edges w) (y : Place) : w.pointersAt y = g.pointersAt y :=
  (congrArg (fun x : ReactiveObject ↦ (x.pointers.find? y.2).getD []) (h.object y.1) :)

theorem listenerNames (h : g.Edged edges w) (o : ObjectRef) :
    (w.object o).listenerNames = (g.object o).listenerNames :=
  (congrArg ReactiveObject.listenerNames (h.object o) :)

theorem samePlaces (h : g.Edged edges w) : g.SamePlaces w :=
  ⟨h.size, fun a ↦ (congrArg ReactiveObject.place (h.object a) :)⟩

/-- One edge for a pointer that leads to an object which is kept. -/
theorem linkPointer (h : g.Edged edges w) {q : Pointer}
    (hq : q.object.index < g.host.objects.size) (hheld : q.object ∈ g.host.held) :
    g.Edged (edges ++ [((q.object, q.property), y)]) (World.linkPointer y.1 y.2 w q) := by
  have halive : w.isAlive q.object = true := by
    rw [isAlive, h.held, Bool.or_eq_true]
    exact .inl (List.contains_iff_mem.2 hheld)
  rw [World.linkPointer, if_pos halive]
  refine ⟨(w.size_modify _ _).trans h.size, h.held, fun o ↦ ?_, fun x ↦ ?_⟩
  · rw [object_modify]
    split_ifs
    · exact h.object o
    · exact h.object o
  · rw [observersOf_linked (h.size.symm ▸ hq), h.observers, observersBy, observersBy,
      List.filterMap_append, List.filterMap_cons, List.filterMap_nil]
    by_cases hx : x = (q.object, q.property)
    · rw [if_pos hx, if_pos hx.symm, List.append_assoc]
    · rw [if_neg hx, if_neg (Ne.symm hx), List.append_nil]

/-- The edges of one listener. -/
theorem link (h : g.Edged edges w)
    (hy : ∀ q ∈ g.pointersAt y, q.object.index < g.host.objects.size ∧ q.object ∈ g.host.held) :
    g.Edged (edges ++ g.edgesOf y) (World.link y.1 y.2 w) := by
  have hfold (ps : List Pointer)
      (hps : ∀ q ∈ ps, q.object.index < g.host.objects.size ∧ q.object ∈ g.host.held)
      {edges : List (Place × Place)} {w : World} (h : g.Edged edges w) :
      g.Edged (edges ++ ps.map fun q ↦ ((q.object, q.property), y))
        (ps.foldl (World.linkPointer y.1 y.2) w) := by
    induction ps generalizing edges w with
    | nil => exact (List.append_nil edges).symm ▸ h
    | cons q ps ih =>
      obtain ⟨hsize, hheld⟩ := hps q List.mem_cons_self
      have hrest := ih (fun r hr ↦ hps r (List.mem_cons_of_mem _ hr))
        (h.linkPointer (y := y) hsize hheld)
      rwa [List.append_assoc] at hrest
  have hlink : World.link y.1 y.2 w = (w.pointersAt y).foldl (World.linkPointer y.1 y.2) w := rfl
  rw [hlink, h.pointersAt]
  exact hfold _ hy h

/-- The edges of all listeners, one after the other. -/
theorem exists_forM {ε : Type} (ys : List Place)
    (hys : ∀ y ∈ ys, ∀ q ∈ g.pointersAt y,
      q.object.index < g.host.objects.size ∧ q.object ∈ g.host.held) (h : g.Edged edges w) :
    ∃ w', (ys.forM fun y ↦ Run.update (World.link y.1 y.2) : Effect ε Unit) w = .ok () w' ∧
      g.Edged (edges ++ ys.flatMap g.edgesOf) w' := by
  induction ys generalizing edges w with
  | nil => exact ⟨w, rfl, (List.append_nil edges).symm ▸ h⟩
  | cons y ys ih =>
    obtain ⟨w', hrun, hw'⟩ := ih (fun z hz ↦ hys z (List.mem_cons_of_mem _ hz))
      (h.link (hys y List.mem_cons_self))
    rw [List.append_assoc] at hw'
    exact ⟨w', Run.bind_eq_ok.2 ⟨(), _, rfl, hrun⟩, hw'⟩

end Edged

/-- The objects are those of `g` with other observers. -/
def SameButObservers (g w : World) : Prop :=
  ∀ o, { w.object o with observers := Table.empty } = { g.object o with observers := Table.empty }

section Link

variable {g u v w w' : World} {f : Frame} {root o : ObjectRef} {enums : EnumTable} {ε : Type}

theorem preserves_sameButObservers_link (g : World) (y : Place) :
    Run.Preserves g.SameButObservers (Run.update (World.link y.1 y.2) : Effect ε Unit) := by
  refine .update fun w hw ↦ ?_
  unfold World.link
  generalize ((w.object y.1).pointers.find? y.2).getD [] = ps
  induction ps generalizing w with
  | nil => exact hw
  | cons q ps ih =>
    refine ih _ fun o ↦ ?_
    rw [linkPointer]
    split
    · rw [object_modify]
      split_ifs
      · exact hw o
      · exact hw o
    · exact hw o

/-- Linking the listeners of an object goes through its listeners. -/
theorem linkListeners_eq_forM (hw : g.SameButObservers w) (o : ObjectRef) :
    (linkListeners o : Effect ε Unit) w
      = ((g.listenersAt o).forM fun y ↦ Run.update (World.link y.1 y.2)) w := by
  have hnames : (w.object o).listenerNames = (g.object o).listenerNames :=
    (congrArg ReactiveObject.listenerNames (hw o) :)
  rw [listenersAt, ← hnames, List.forM_eq_forM, List.forM_map]
  rfl

/-- Linking a tree adds the edges of its listeners. -/
theorem IsTreeOf.exists_linkTree_edged (h : g.IsTreeOf root f)
    (htargets : ∀ y ∈ g.listenersUp g.treeDepth root, ∀ q ∈ g.pointersAt y,
      q.object.index < g.host.objects.size ∧ q.object ∈ g.host.held) :
    ∃ w', (linkTree root : Effect ε Unit) g = .ok () w' ∧
      g.Edged ((g.listenersUp g.treeDepth root).flatMap g.edgesOf) w' := by
  obtain ⟨w', hrun, hw'⟩ := (Edged.refl g).exists_forM (ε := ε) _ htargets
  refine ⟨w', Eq.trans ?_ hrun, hw'⟩
  exact visit_eq_forM (I := g.SameButObservers)
    (fun w hw o ↦ (congrArg (fun x : ReactiveObject ↦ x.children) (hw o) :))
    (fun o w hw ↦ linkListeners_eq_forM hw o) (preserves_sameButObservers_link g) g.treeDepth root
    (fun a ha ↦ (h.planted a ha).newer) h.size (g.size_le_add_treeDepth _) fun _ ↦ rfl

end Link

/-! ## Exact wiring -/

/-- Listener of an object, as a property. -/
def Site.place (s : Site) : Place := (s.owner, s.listener)

/-- What the arguments of a listener mean, each with the listener. -/
def siteEdges (w : World) (root : ObjectRef) (s : Site) : List (Place × Place) :=
  s.arguments.filterMap fun a ↦ (w.target? root s.owner a.path).map (·, s.place)

/-- What the arguments of all listeners of a tree mean: first those of the children of an object,
then those of the object. -/
def edges (w : World) (root : ObjectRef) : List (Place × Place) :=
  (w.postorder w.treeDepth root).flatMap fun o ↦
    ((w.object o).frame.members.filterMap (siteOf o)).flatMap (w.siteEdges root)

/-- The pointer has the name of the argument of a listener of `o` and leads to what the path of the
argument means, to a property that has the last segment as its name. -/
structure PointsFor (w : World) (root o : ObjectRef) (a : PathArgument) (q : Pointer) : Prop where
  argument : q.argument = a.name
  property : a.path.getLast? = some q.property
  target : w.target? root o a.path = some (q.object, q.property)

/-- The listeners of a tree are those that its frames declare, and they are observers of what their
arguments mean and of nothing else. -/
structure ExactlyWired (w : World) (root : ObjectRef) : Prop where
  /-- An object has the listeners that its frame declares, in order. -/
  listeners : ∀ o, w.Below root o →
    (w.object o).listenerNames = ((w.object o).frame.members.filterMap (siteOf o)).map Site.listener
  /-- A listener has one pointer for each argument, in order. -/
  pointers : ∀ s, w.IsSite root s → ∃ ps, (w.object s.owner).pointers.find? s.listener = some ps ∧
    List.Forall₂ (w.PointsFor root s.owner) s.arguments ps
  /-- The observers of a property are the arguments that mean it, in the order of the walk. -/
  observers : ∀ x : Place, w.Below root x.1 →
    (w.object x.1).observersOf x.2 = observersBy (w.edges root) x
  /-- A listener observes a property if and only if one of its arguments means it. -/
  observes_iff : ∀ x y : Place, w.Below root x.1 →
    (.listener y.1 y.2 ∈ (w.object x.1).observersOf x.2 ↔ ∃ s, w.IsSite root s ∧ s.place = y ∧
      ∃ a ∈ s.arguments, w.target? root s.owner a.path = some x)

section Exact

variable {g u v w w' : World} {f : Frame} {root o : ObjectRef} {enums : EnumTable}

theorem getLast?_of_target? {segments : List String} {x : Place}
    (h : w.target? root o segments = some x) : segments.getLast? = some x.2 := by
  unfold target? at h
  split at h
  · next hlast =>
    obtain ⟨c, -, rfl⟩ := Option.map_eq_some_iff.1 h
    exact hlast
  · cases h

/-- The edges of a listener that is bound are what its arguments mean. -/
theorem edgesOf_of_bound {s : Site} (h : w.Bound root s v) :
    v.edgesOf s.place = w.siteEdges root s := by
  obtain ⟨ps, hps, hbinds⟩ := h
  have hpointers : v.pointersAt s.place = ps := by
    rw [pointersAt, Site.place, hps]
    rfl
  rw [edgesOf, hpointers, siteEdges]
  clear hps hpointers
  generalize s.arguments = arguments at hbinds ⊢
  induction hbinds with
  | nil => rfl
  | cons hq hrest ih => rw [List.map_cons, ih, List.filterMap_cons, hq.2]; rfl

theorem SamePlaces.postorder (h : w.SamePlaces w') (depth : Nat) (o : ObjectRef) :
    w'.postorder depth o = w.postorder depth o := by
  induction depth generalizing o with
  | zero => rfl
  | succ depth ih => rw [World.postorder, World.postorder, h.children, funext ih]

theorem SamePlaces.edges (h : w.SamePlaces w') (root : ObjectRef) :
    w'.edges root = w.edges root := by
  have hsite : w'.siteEdges root = w.siteEdges root := by
    funext s
    simp only [siteEdges, h.target?]
  simp only [World.edges, treeDepth, hsite, h.size, h.postorder, h.frame]

theorem mem_observersBy {edges : List (Place × Place)} {x y : Place} :
    .listener y.1 y.2 ∈ observersBy edges x ↔ (x, y) ∈ edges := by
  rw [observersBy, List.mem_filterMap]
  constructor
  · rintro ⟨⟨x', y'⟩, he, heq⟩
    dsimp only at heq
    split_ifs at heq with hx
    have hy : y' = y := by
      injection heq with heq
      injection heq with howner hname
      exact Prod.ext howner hname
    rwa [← hx, ← hy]
  · exact fun he ↦ ⟨(x, y), he, if_pos rfl⟩

/-- The listeners of furnished objects are those that their frames declare. -/
theorem Furnished.listenersAt (h : w.Furnished o) :
    w.listenersAt o = ((w.object o).frame.members.filterMap (siteOf o)).map Site.place := by
  rw [World.listenersAt, h.listenerNames]
  induction (w.object o).frame.members with
  | nil => rfl
  | cons m ms ih =>
    cases m with
    | property => exact ih
    | frame => exact ih
    | function name line f =>
      cases f with
      | listener arguments returns script => exact congrArg _ ih
      | init => exact ih
      | event => exact ih
      | procedure => exact ih

theorem IsTreeOf.mem_edges (h : w.IsTreeOf root f) {x y : Place} :
    (x, y) ∈ w.edges root ↔ ∃ s, w.IsSite root s ∧ s.place = y ∧
      ∃ a ∈ s.arguments, w.target? root s.owner a.path = some x := by
  have hdepth := w.size_le_add_treeDepth root.index
  simp only [edges, siteEdges, List.mem_flatMap, h.mem_postorder .refl hdepth]
  constructor
  · rintro ⟨o, ho, s, hs, hxy⟩
    obtain ⟨a, ha, htarget⟩ := List.mem_filterMap.1 hxy
    obtain ⟨x', hx', heq⟩ := Option.map_eq_some_iff.1 htarget
    cases heq
    exact ⟨s, isSite_of_mem ho rfl hs, rfl, a, ha, hx'⟩
  · rintro ⟨s, ⟨hbelow, hs⟩, rfl, a, ha, hx⟩
    refine ⟨s.owner, hbelow, s, hs, List.mem_filterMap.2 ⟨a, ha, ?_⟩⟩
    rw [hx]
    rfl

/-- Resolving that succeeds binds all listeners of the tree. -/
theorem IsTreeOf.bound_of_resolve (h : u.IsTreeOf root f) (hf : f.WellFormed enums)
    (hrun : resolve (collectPaths u u.treeDepth root Table.empty) u.treeDepth root u = .ok () v)
    {s : Site} (hs : u.IsSite root s) : u.Bound root s v := by
  have hresolve := (h.resolvesByWalks hf).resolve
  rw [hrun] at hresolve
  split at hresolve
  · obtain ⟨v', heq, hbound⟩ := hresolve
    cases heq
    exact hbound s hs
  · obtain ⟨v', heq⟩ := hresolve
    cases heq

/-- The worlds in which the passes leave a frame that is assembled: `u` when it has been built, `v`
when the arguments of its listeners are bound, and `w'` when the listeners are linked. -/
structure Passes (f : Frame) (root : ObjectRef) (w u v w' : World) : Prop where
  tree : u.IsTreeOf root f
  new : root.index = w.host.objects.size
  furnished : ∀ o, u.Below root o → u.Furnished o
  observers : w.SameObservers u
  resolved : u.SameButPointers v
  bound : ∀ s, u.IsSite root s → u.Bound root s v
  linked : v.Edged (u.edges root) w'

/-- The pointers of listeners that are bound lead to what their arguments mean. -/
theorem IsTreeOf.flatMap_edgesOf (h : u.IsTreeOf root f) (hv : u.SameButPointers v)
    (hfurnished : ∀ o, u.Below root o → u.Furnished o)
    (hbound : ∀ s, u.IsSite root s → u.Bound root s v) :
    (v.listenersUp v.treeDepth root).flatMap v.edgesOf = u.edges root := by
  have hplaces := hv.samePlaces
  have hup : v.listenersUp v.treeDepth root
      = (u.postorder u.treeDepth root).flatMap v.listenersAt := by
    rw [listenersUp, hplaces.postorder, treeDepth, treeDepth, hplaces.size]
  rw [hup, List.flatMap_assoc]
  refine List.flatMap_congr fun o ho ↦ ?_
  have ho := (h.mem_postorder .refl (u.size_le_add_treeDepth _)).1 ho
  have hnames : (v.object o).listenerNames = (u.object o).listenerNames :=
    (congrArg ReactiveObject.listenerNames (hv.object o) :)
  have hat : v.listenersAt o = u.listenersAt o := by
    rw [listenersAt, hnames]
    rfl
  rw [hat, (hfurnished o ho).listenersAt, List.flatMap_map]
  exact List.flatMap_congr fun s hs ↦ edgesOf_of_bound (hbound s (isSite_of_mem ho rfl hs))

/-- Listeners that are bound point at objects of the tree, which are kept. -/
theorem IsTreeOf.kept_of_mem_pointersAt (h : u.IsTreeOf root f) (hf : f.WellFormed enums)
    (hv : u.SameButPointers v) (hfurnished : ∀ o, u.Below root o → u.Furnished o)
    (hbound : ∀ s, u.IsSite root s → u.Bound root s v) {y : Place}
    (hy : y ∈ v.listenersUp v.treeDepth root) {q : Pointer} (hq : q ∈ v.pointersAt y) :
    q.object.index < v.host.objects.size ∧ q.object ∈ v.host.held := by
  have hmem : ((q.object, q.property), y) ∈ u.edges root := by
    rw [← h.flatMap_edgesOf hv hfurnished hbound]
    exact List.mem_flatMap.2 ⟨y, hy, List.mem_map.2 ⟨q, hq, rfl⟩⟩
  obtain ⟨s, hs, -, a, -, htarget⟩ := h.mem_edges.1 hmem
  have hbelow : u.Below root q.object := h.below_of_target? hf hs.1 htarget
  have hheld : v.host.held = u.host.held := (congrArg (fun w : World ↦ w.host.held) hv.rest :)
  rw [hheld, hv.size]
  exact ⟨h.index_lt hbelow, (hfurnished q.object hbelow).held⟩

theorem exists_passes_of_assemble (hf : f.WellFormed enums) (h : assemble f w = .ok root w') :
    ∃ u v, Passes f root w u v w' := by
  obtain ⟨u, v, hbuild, hresolve, hlink⟩ := exists_build_of_assemble h
  have htree := isTreeOf_of_build hbuild
  obtain ⟨hnew, hall⟩ := furnished_of_build hbuild
  have hfurnished (o : ObjectRef) (ho : u.Below root o) : u.Furnished o :=
    hall o (hnew ▸ htree.index_le ho) (htree.index_lt ho)
  have hbound (s : Site) (hs : u.IsSite root s) := htree.bound_of_resolve hf hresolve hs
  have hv : u.SameButPointers v :=
    (preserves_sameButPointers_resolve u _ _ _).of_ok (.refl u) hresolve
  obtain ⟨x, hrun, hx⟩ := (htree.samePlaces hv.samePlaces).exists_linkTree_edged
    (ε := CompileError) fun y hy q hq ↦ htree.kept_of_mem_pointersAt hf hv hfurnished hbound hy hq
  cases hrun.symm.trans hlink
  exact ⟨u, v, htree, hnew, hfurnished, sameObservers_of_build hbuild, hv, hbound,
    htree.flatMap_edgesOf hv hfurnished hbound ▸ hx⟩

namespace Passes

variable (h : Passes f root w u v w')

include h

theorem samePlaces : u.SamePlaces w' := h.resolved.samePlaces.trans h.linked.samePlaces

/-- Every object has the observers that it had before, and those that the arguments of the listeners
of the tree make. -/
theorem observersOf (x : Place) : (w'.object x.1).observersOf x.2
    = (w.object x.1).observersOf x.2 ++ observersBy (w'.edges root) x := by
  have hbefore : (v.object x.1).observers = (w.object x.1).observers :=
    (h.resolved.observers x.1).trans (h.observers x.1)
  rw [h.linked.observers, h.samePlaces.edges, ReactiveObject.observersOf, hbefore]
  rfl

theorem observersOf_of_below {x : Place} (hx : w'.Below root x.1) :
    (w'.object x.1).observersOf x.2 = observersBy (w'.edges root) x := by
  have hnew : w.host.objects.size ≤ x.1.index := h.new ▸ h.tree.index_le (h.samePlaces.below.1 hx)
  have hblank : w.object x.1 = .blank := by
    rw [object, ObjectGraph.object, Array.getElem?_eq_none hnew]
    rfl
  rw [h.observersOf, hblank]
  rfl

theorem observersOf_of_not_below (hf : f.WellFormed enums) {x : Place} (hx : ¬w'.Below root x.1) :
    (w'.object x.1).observersOf x.2 = (w.object x.1).observersOf x.2 := by
  have htree := h.tree.samePlaces h.samePlaces
  have hnone : observersBy (w'.edges root) x = [] := by
    rw [observersBy, List.filterMap_eq_nil_iff]
    rintro ⟨x', y⟩ he
    obtain ⟨s, hs, -, a, -, htarget⟩ := htree.mem_edges.1 he
    refine if_neg ?_
    rintro rfl
    exact hx (htree.below_of_target? hf hs.1 htarget)
  rw [h.observersOf, hnone, List.append_nil]

theorem exactlyWired : w'.ExactlyWired root := by
  have hplaces := h.samePlaces
  refine ⟨fun o ho ↦ ?_, fun s hs ↦ ?_, fun x hx ↦ h.observersOf_of_below hx, fun x y hx ↦ ?_⟩
  · have hnames : (w'.object o).listenerNames = (u.object o).listenerNames :=
      (h.linked.listenerNames o).trans
        (congrArg ReactiveObject.listenerNames (h.resolved.object o) :)
    have hlisteners := congrArg (List.map Prod.snd) (h.furnished o (hplaces.below.1 ho)).listenersAt
    rw [listenersAt, List.map_map, List.map_map] at hlisteners
    rw [hnames, hplaces.frame]
    exact (List.map_id _).symm.trans hlisteners
  · have hs' : u.IsSite root s := by rwa [IsSite, ← hplaces.below, ← hplaces.frame]
    obtain ⟨ps, hps, hbinds⟩ := h.bound s hs'
    have hpointers : (w'.object s.owner).pointers = (v.object s.owner).pointers :=
      (congrArg (fun x : ReactiveObject ↦ x.pointers) (h.linked.object s.owner) :)
    refine ⟨ps, by rw [hpointers]; exact hps, hbinds.imp fun a q hq ↦ ?_⟩
    exact ⟨hq.1, getLast?_of_target? hq.2, (hplaces.target? ..).trans hq.2⟩
  · rw [h.observersOf_of_below hx, mem_observersBy, (h.tree.samePlaces hplaces).mem_edges]

end Passes

/-- What is wired alike is exactly wired alike. -/
theorem ExactlyWired.sameWiring (h : w.ExactlyWired root) (hw : w.SameWiring w') :
    w'.ExactlyWired root := by
  have hplaces := hw.samePlaces
  have hsite (s : Site) : w'.IsSite root s ↔ w.IsSite root s := by
    rw [IsSite, IsSite, hplaces.below, hplaces.frame]
  refine ⟨fun o ho ↦ ?_, fun s hs ↦ ?_, fun x hx ↦ ?_, fun x y hx ↦ ?_⟩
  · have hnames : (w'.object o).listenerNames = (w.object o).listenerNames :=
      (congrArg ReactiveObject.listenerNames (hw.wiring o) :)
    rw [hnames, hplaces.frame]
    exact h.listeners o (hplaces.below.1 ho)
  · have hpointers : (w'.object s.owner).pointers = (w.object s.owner).pointers :=
      (congrArg (fun x : ReactiveObject ↦ x.pointers) (hw.wiring s.owner) :)
    obtain ⟨ps, hps, hpoints⟩ := h.pointers s ((hsite s).1 hs)
    refine ⟨ps, by rw [hpointers]; exact hps, hpoints.imp fun a q hq ↦ ?_⟩
    exact ⟨hq.argument, hq.property, (hplaces.target? ..).trans hq.target⟩
  · rw [hw.observersOf, hplaces.edges]
    exact h.observers x (hplaces.below.1 hx)
  · simp only [hw.observersOf, h.observes_iff x y (hplaces.below.1 hx), hsite, hplaces.target?]

end Exact

/-- A frame that was read and compiled is exactly wired. No other object has a further observer. -/
theorem exactly_wired {enums : EnumTable} {source : String} {f : Frame} {root : ObjectRef}
    {w w' : World} (hparse : Frame.parse enums source = .ok f)
    (h : compileObject f w = .ok root w') :
    w'.IsTreeOf root f ∧ w'.ExactlyWired root ∧
      ∀ x : Place, ¬w'.Below root x.1 →
        (w'.object x.1).observersOf x.2 = (w.object x.1).observersOf x.2 := by
  have hf := Frame.wellFormed_of_parse hparse
  obtain ⟨x, hassemble, hseed⟩ := exists_assemble_of_compileObject h
  obtain ⟨u, v, hpasses⟩ := exists_passes_of_assemble hf hassemble
  -- Running the listeners wires nothing.
  have hsame : x.SameWiring w' :=
    ((writeClosed_sameWiring x).scriptClosed.seedTree root).of_ok (.refl x) hseed
  refine ⟨hpasses.tree.samePlaces (hpasses.samePlaces.trans hsame.samePlaces),
    hpasses.exactlyWired.sameWiring hsame, fun p hp ↦ ?_⟩
  rw [hsame.observersOf]
  exact hpasses.observersOf_of_not_below hf fun hbelow ↦ hp (hsame.samePlaces.below.2 hbelow)

/-- A listener that looks twice at a property declared after it and once at a nested listener, which
looks back at the same property. -/
def crossing : String :=
  "top: T \x7b y: Listner(a: self.x, b: top.p.z, c: self.x) -> Int %\x7b return a %\x7d, x: Int 1, " ++
    "p: P \x7b z: Listner(a: top.x) -> Int %\x7b return a %\x7d \x7d \x7d"

theorem exactly_wired_crossing : ∃ f w', Frame.parse Table.empty crossing = .ok f ∧
    compileObject f (World.create 256 16) = .ok ⟨0⟩ w' ∧
      (w'.object ⟨0⟩).observersOf "x" = [.listener ⟨1⟩ "z", .listener ⟨0⟩ "y", .listener ⟨0⟩ "y"] ∧
        w'.IsTreeOf ⟨0⟩ f ∧ w'.ExactlyWired ⟨0⟩ := by
  have hrun : Except.okWith
      (fun f ↦ (compileObject f (World.create 256 16)).okWith fun root w' ↦
        root == ⟨0⟩ && w'.edges ⟨0⟩ == [((⟨0⟩, "x"), (⟨1⟩, "z")), ((⟨0⟩, "x"), (⟨0⟩, "y")),
          ((⟨1⟩, "z"), (⟨0⟩, "y")), ((⟨0⟩, "x"), (⟨0⟩, "y"))])
      (Frame.parse Table.empty crossing) = true := by
    rw [Frame.parse_eq]
    delta crossing
    repeat rewrite [String.toList_append]
    repeat rewrite [String.toList_ofList]
    decide +kernel
  obtain ⟨f, hparse, hrun⟩ := Except.exists_of_okWith hrun
  obtain ⟨root, w', hcompile, hrun⟩ := Outcome.exists_of_okWith hrun
  rw [Bool.and_eq_true, beq_iff_eq, beq_iff_eq] at hrun
  obtain ⟨rfl, hedges⟩ := hrun
  obtain ⟨htree, hwired, -⟩ := exactly_wired hparse hcompile
  refine ⟨f, w', hparse, hcompile, ?_, htree, hwired⟩
  rw [hwired.observers (⟨0⟩, "x") .refl, hedges]
  rfl

end World

end ReactiveFrames
