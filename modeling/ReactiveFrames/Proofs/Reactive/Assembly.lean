import ReactiveFrames.Proofs.Reactive.Building

/-!
# Assembled frames

What is there when a frame has been assembled, and none of its listeners has run yet: to the tree of
objects it adds that the observers are the listeners that point at what they observe
(`World.Assembled`).

Linking visits all objects of the tree, and so does seeding later. What a visit does is said once,
for an invariant and for what there is to do at each object (`exists_visit`).
-/

namespace ReactiveFrames

open Relation (ReflTransGen)

namespace World

/-! ## Visits -/

section Visit

variable {ε : Type} {g : World} {I : World → Prop} {act : ObjectRef → Effect ε Unit}
  {Done : ObjectRef → World → Prop}
  (hI : ∀ w, I w → ∀ o, (w.object o).children = (g.object o).children)
  (hact : ∀ o w, I w → o.index < g.host.objects.size →
    ∃ w', act o w = .ok () w' ∧ I w' ∧ Done o w' ∧ ∀ a, Done a w → Done a w')

include hI hact

/-- A visit does what there is to do for every object of the tree, if what is done for one is not
undone for another one. The numbers of the objects bound the depth of the tree. -/
theorem exists_visit (depth : Nat) (o : ObjectRef)
    (hchildren : ∀ a, g.Below o a → ∀ c, g.Child a c →
      a.index < c.index ∧ c.index < g.host.objects.size)
    (ho : o.index < g.host.objects.size)
    (hdepth : g.host.objects.size ≤ o.index + depth) {w : World} (hw : I w) :
    ∃ w', visit act depth o w = .ok () w' ∧ I w' ∧ (∀ a, g.Below o a → Done a w') ∧
      ∀ a, Done a w → Done a w' := by
  induction depth generalizing o w with
  | zero => omega
  | succ depth ih =>
    -- The children, one after the other.
    have hforest (cs : List ObjectRef) (hcs : ∀ c ∈ cs, g.Child o c) {w : World} (hw : I w) :
        ∃ w', cs.forM (visit act depth) w = .ok () w' ∧ I w' ∧
          (∀ c ∈ cs, ∀ a, g.Below c a → Done a w') ∧ ∀ a, Done a w → Done a w' := by
      induction cs generalizing w with
      | nil => exact ⟨w, rfl, hw, fun c hc ↦ absurd hc List.not_mem_nil, fun a ha ↦ ha⟩
      | cons c cs ihcs =>
        have hc := hcs c List.mem_cons_self
        obtain ⟨hlt, hsize⟩ := hchildren o .refl c hc
        obtain ⟨u, hvisit, hu, hbelow, hkept⟩ :=
          ih c (fun a ha ↦ hchildren a (.head hc ha)) hsize (by omega) hw
        obtain ⟨w', hrest, hw', hbelow', hkept'⟩ :=
          ihcs (fun c hc ↦ hcs c (List.mem_cons_of_mem _ hc)) hu
        refine ⟨w', Run.bind_eq_ok.2 ⟨(), u, hvisit, hrest⟩, hw', fun d hd a ha ↦ ?_,
          fun a ha ↦ hkept' a (hkept a ha)⟩
        rcases List.mem_cons.1 hd with rfl | hd
        · exact hkept' a (hbelow a ha)
        · exact hbelow' d hd a ha
    obtain ⟨u, hvisit, hu, hbelow, hkept⟩ := hforest (g.object o).children (fun c hc ↦ hc) hw
    obtain ⟨w', hrun, hw', hdone, hkept'⟩ := hact o u hu ho
    refine ⟨w', ?_, hw', fun a ha ↦ ?_, fun a ha ↦ hkept' a (hkept a ha)⟩
    · refine Run.bind_eq_ok.2 ⟨w, w, rfl, Run.bind_eq_ok.2 ⟨(), u, ?_, hrun⟩⟩
      rw [hI w hw]
      exact hvisit
    · rcases ReflTransGen.cases_head ha with rfl | ⟨c, hc, ha⟩
      · exact hdone
      · exact hkept' a (hbelow c hc a ha)

end Visit

/-! ## Linking -/

section Link

variable {g w : World}

/-- Some listeners of `g` have been linked in `w`, and else nothing has happened. -/
structure Linking (g w : World) : Prop where
  size : w.host.objects.size = g.host.objects.size
  held : w.host.held = g.host.held
  object : ∀ o, { w.object o with observers := Table.empty }
    = { g.object o with observers := Table.empty }
  feeds : ∀ x : Place, ∀ observer ∈ (w.object x.1).observersOf x.2,
    ∃ y, observer = .listener y.1 y.2 ∧ g.Feeds x y
  diagnostics : w.host.diagnostics = g.host.diagnostics
  noCycle : w.NoCycle

/-- The listeners of an object are observers of what they point at. -/
def LinkedAt (g : World) (o : ObjectRef) (w : World) : Prop :=
  ∀ x : Place, ∀ name, g.Feeds x (o, name) →
    .listener o name ∈ (w.object x.1).observersOf x.2

theorem Unlinked.index_lt_of_feeds (h : w.Unlinked) {x y : Place} (hxy : w.Feeds x y) :
    x.1.index < w.host.objects.size := by
  obtain ⟨-, q, hq, rfl⟩ := hxy
  rw [pointersAt] at hq
  cases hfind : (w.object y.1).pointers.find? y.2 with
  | none =>
    rw [hfind] at hq
    exact absurd hq List.not_mem_nil
  | some ps =>
    rw [hfind] at hq
    exact h.target y.1 y.2 ps hfind q hq

theorem isListener_iff {w : World} {o : ObjectRef} {name : String} :
    w.IsListener (o, name) ↔ name ∈ (w.object o).listenerNames := by
  rw [IsListener, ReactiveObject.listener?, ReactiveObject.listenerNames, List.mem_map]
  constructor
  · rintro ⟨f, hf⟩
    obtain ⟨l, hl, -⟩ := Option.map_eq_some_iff.1 hf
    exact ⟨l, List.mem_of_find?_eq_some hl, of_decide_eq_true (List.find?_some hl :)⟩
  · rintro ⟨l, hl, rfl⟩
    cases hfind : (w.object o).listeners.find? fun k ↦ k.1 = l.1 with
    | some k => exact ⟨k.2, rfl⟩
    | none => exact absurd (decide_eq_true rfl) (List.find?_eq_none.1 hfind l hl)

namespace Linking

theorem listenerNames (h : g.Linking w) (o : ObjectRef) :
    (w.object o).listenerNames = (g.object o).listenerNames :=
  (congrArg ReactiveObject.listenerNames (h.object o) :)

theorem pointersAt (h : g.Linking w) (y : Place) : w.pointersAt y = g.pointersAt y :=
  (congrArg (fun x : ReactiveObject ↦ (x.pointers.find? y.2).getD []) (h.object y.1) :)

theorem children (h : g.Linking w) (o : ObjectRef) :
    (w.object o).children = (g.object o).children :=
  (congrArg (fun x : ReactiveObject ↦ x.children) (h.object o) :)

theorem feeds_iff (h : g.Linking w) (x y : Place) : w.Feeds x y ↔ g.Feeds x y := by
  rw [Feeds, Feeds, h.pointersAt]
  refine and_congr_left fun _ ↦ ?_
  have hiff (u : World) : u.IsListener y ↔ y.2 ∈ (u.object y.1).listenerNames := isListener_iff
  rw [hiff, hiff, h.listenerNames]

end Linking

theorem observersOf_linked {o : ObjectRef} (ho : o.index < w.host.objects.size) (p : String)
    (observer : Observer) (x : Place) :
    ((w.modify o (·.addObserver p observer)).object x.1).observersOf x.2
      = if x = (o, p) then (w.object x.1).observersOf x.2 ++ [observer]
        else (w.object x.1).observersOf x.2 := by
  obtain ⟨a, q⟩ := x
  rw [object_modify]
  by_cases ha : a = o
  · rw [if_pos ⟨ha, ho⟩, ReactiveObject.observersOf_addObserver]
    by_cases hq : q = p
    · rw [if_pos hq, if_pos (Prod.ext ha hq), hq]
    · rw [if_neg hq, if_neg fun h ↦ hq (congrArg Prod.snd h)]
  · rw [if_neg fun h ↦ ha h.1, if_neg fun h ↦ ha (congrArg Prod.fst h)]

/-- A listener becomes an observer of one property that it points at. -/
theorem Linking.linkPointer (hg : g.Unlinked) (h : g.Linking w) {y : Place} {q : Pointer}
    (hy : g.Feeds (q.object, q.property) y) :
    g.Linking (World.linkPointer y.1 y.2 w q) ∧
      .listener y.1 y.2 ∈ ((World.linkPointer y.1 y.2 w q).object q.object).observersOf q.property ∧
      ∀ x : Place, ∀ observer ∈ (w.object x.1).observersOf x.2,
        observer ∈ ((World.linkPointer y.1 y.2 w q).object x.1).observersOf x.2 := by
  have hsize : q.object.index < g.host.objects.size := hg.index_lt_of_feeds hy
  have halive : w.isAlive q.object = true := by
    rw [isAlive, h.held, Bool.or_eq_true]
    exact .inl (List.contains_iff_mem.2 (hg.held q.object hsize))
  have hobservers := observersOf_linked (h.size.symm ▸ hsize) q.property (.listener y.1 y.2)
  rw [World.linkPointer, if_pos halive]
  refine ⟨⟨(w.size_modify _ _).trans h.size, h.held, fun o ↦ ?_, fun x observer hx ↦ ?_,
    h.diagnostics, h.noCycle.congr rfl rfl⟩, ?_, fun x observer hx ↦ ?_⟩
  · rw [object_modify]
    split_ifs
    · exact h.object o
    · exact h.object o
  · rw [hobservers] at hx
    split_ifs at hx with heq
    · rcases List.mem_append.1 hx with hx | hx
      · exact h.feeds x observer hx
      · exact ⟨y, List.mem_singleton.1 hx, heq ▸ hy⟩
    · exact h.feeds x observer hx
  · rw [hobservers (q.object, q.property), if_pos rfl]
    exact List.mem_append_right _ (List.mem_singleton_self _)
  · rw [hobservers]
    split_ifs
    · exact List.mem_append_left _ hx
    · exact hx

/-- A listener becomes an observer of everything that it points at. -/
theorem Linking.link (hg : g.Unlinked) (h : g.Linking w) {y : Place} (hy : g.IsListener y) :
    g.Linking (World.link y.1 y.2 w) ∧
      (∀ x : Place, g.Feeds x y →
        .listener y.1 y.2 ∈ ((World.link y.1 y.2 w).object x.1).observersOf x.2) ∧
      ∀ x : Place, ∀ observer ∈ (w.object x.1).observersOf x.2,
        observer ∈ ((World.link y.1 y.2 w).object x.1).observersOf x.2 := by
  have hfold (ps : List Pointer) (hps : ∀ q ∈ ps, g.Feeds (q.object, q.property) y) (w : World)
      (h : g.Linking w) :
      g.Linking (ps.foldl (World.linkPointer y.1 y.2) w) ∧
        (∀ q ∈ ps, .listener y.1 y.2 ∈ ((ps.foldl (World.linkPointer y.1 y.2) w).object
          q.object).observersOf q.property) ∧
        ∀ x : Place, ∀ observer ∈ (w.object x.1).observersOf x.2,
          observer ∈ ((ps.foldl (World.linkPointer y.1 y.2) w).object x.1).observersOf x.2 := by
    induction ps generalizing w with
    | nil => exact ⟨h, fun q hq ↦ absurd hq List.not_mem_nil, fun x observer hx ↦ hx⟩
    | cons q ps ih =>
      obtain ⟨hone, hmem, hkept⟩ := h.linkPointer hg (hps q List.mem_cons_self)
      obtain ⟨hrest, hall, hkept'⟩ := ih (fun q hq ↦ hps q (List.mem_cons_of_mem _ hq)) _ hone
      refine ⟨hrest, fun r hr ↦ ?_, fun x observer hx ↦ hkept' x observer (hkept x observer hx)⟩
      rcases List.mem_cons.1 hr with rfl | hr
      · exact hkept' (r.object, r.property) _ hmem
      · exact hall r hr
  obtain ⟨hlinking, hall, hkept⟩ := hfold (w.pointersAt y)
    (fun q hq ↦ ⟨hy, q, h.pointersAt y ▸ hq, rfl⟩) w h
  refine ⟨hlinking, ?_, hkept⟩
  rintro x ⟨-, q, hq, rfl⟩
  exact hall q ((h.pointersAt y).symm ▸ hq)

/-- Linking the listeners of one object. -/
theorem exists_linkListeners {ε : Type} (hg : g.Unlinked) (o : ObjectRef) (h : g.Linking w) :
    ∃ w', (linkListeners o : Effect ε Unit) w = .ok () w' ∧ g.Linking w' ∧ g.LinkedAt o w' ∧
      ∀ a, g.LinkedAt a w → g.LinkedAt a w' := by
  have hall (names : List String) (hnames : ∀ name ∈ names, g.IsListener (o, name)) (w : World)
      (h : g.Linking w) :
      ∃ w', (names.forM fun name ↦ Run.update (World.link o name) : Effect ε Unit) w = .ok () w' ∧
        g.Linking w' ∧
        (∀ name ∈ names, ∀ x : Place, g.Feeds x (o, name) →
          .listener o name ∈ (w'.object x.1).observersOf x.2) ∧
        ∀ x : Place, ∀ observer ∈ (w.object x.1).observersOf x.2,
          observer ∈ (w'.object x.1).observersOf x.2 := by
    induction names generalizing w with
    | nil => exact ⟨w, rfl, h, fun name hn ↦ absurd hn List.not_mem_nil, fun x observer hx ↦ hx⟩
    | cons name names ih =>
      obtain ⟨hone, hmem, hkept⟩ := h.link hg (hnames name List.mem_cons_self)
      obtain ⟨w', hrun, hw', hrest, hkept'⟩ :=
        ih (fun n hn ↦ hnames n (List.mem_cons_of_mem _ hn)) _ hone
      refine ⟨w', Run.bind_eq_ok.2 ⟨(), _, rfl, hrun⟩, hw', fun n hn x hx ↦ ?_,
        fun x observer hx ↦ hkept' x observer (hkept x observer hx)⟩
      rcases List.mem_cons.1 hn with rfl | hn
      · exact hkept' x _ (hmem x hx)
      · exact hrest n hn x hx
  obtain ⟨w', hrun, hw', hlinked, hkept⟩ := hall (w.object o).listenerNames
    (fun name hn ↦ isListener_iff.2 (h.listenerNames o ▸ hn)) w h
  refine ⟨w', Run.bind_eq_ok.2 ⟨w, w, rfl, hrun⟩, hw', fun x name hx ↦ ?_, fun a ha x name hx ↦ ?_⟩
  · refine hlinked name ?_ x hx
    rw [h.listenerNames]
    exact isListener_iff.1 hx.1
  · exact hkept x _ (ha x name hx)

end Link

/-! ## Assembled frames -/

/-- What is there when a frame has been assembled. -/
structure Assembled (root : ObjectRef) (w : World) : Prop extends w.Linked where
  children : ∀ o c, w.Child o c → o.index < c.index ∧ c.index < w.host.objects.size
  below : ∀ o : ObjectRef, o.index < w.host.objects.size → w.Below root o
  root : root.index < w.host.objects.size
  names : ∀ o, (w.object o).NamesApart
  unguarded : ∀ o, (w.object o).notifying = []
  noCycle : w.NoCycle

/-- A tree is assembled when all of its listeners are linked. -/
theorem Linking.assembled {g w : World} {root : ObjectRef} (hg : g.Unlinked)
    (hroot : root.index < g.host.objects.size)
    (hbelow : ∀ o : ObjectRef, o.index < g.host.objects.size → g.Below root o)
    (h : g.Linking w) (hall : ∀ o, g.Below root o → g.LinkedAt o w) : w.Assembled root := by
  have hchild (o c : ObjectRef) : w.Child o c ↔ g.Child o c := by
    rw [Child, Child, h.children]
  refine ⟨⟨fun o ho ↦ ?_, fun x y hxy ↦ ?_, fun x observer hx ↦ ?_, fun x y hxy ↦ ?_⟩,
    fun o c hc ↦ ?_, fun o ho ↦ ?_, h.size.symm ▸ hroot, fun o ↦ ?_, fun o ↦ ?_, h.noCycle⟩
  · rw [h.held]
    exact hg.held o (h.size ▸ ho)
  · rw [h.size]
    exact hg.index_lt_of_feeds ((h.feeds_iff x y).1 hxy)
  · obtain ⟨y, heq, hxy⟩ := h.feeds x observer hx
    exact ⟨y, heq, (h.feeds_iff x y).2 hxy⟩
  · have hxy := (h.feeds_iff x y).1 hxy
    exact hall y.1 (hbelow y.1 (lt_size_of_isListener hxy.1)) x y.2 hxy
  · rw [h.size]
    exact hg.children o c ((hchild o c).1 hc)
  · exact ReflTransGen.mono (fun a c ↦ (hchild a c).2) _ _ (hbelow o (h.size ▸ ho))
  · have hnames : ReactiveObject.NamesApart { g.object o with observers := Table.empty } :=
      ⟨(hg.names o).listeners, (hg.names o).inits⟩
    rw [← h.object] at hnames
    exact ⟨hnames.listeners, hnames.inits⟩
  · exact (congrArg (fun x : ReactiveObject ↦ x.notifying) (h.object o)).trans (hg.unguarded o)

/-- Assembling a frame in a world without objects builds `u`, binds the arguments of the listeners
in `g`, and links all listeners of the tree. -/
theorem exists_linking_of_assemble {f : Frame} {root : ObjectRef} {w w' : World}
    (hempty : w.host.objects = #[]) (hcycle : w.NoCycle) (h : assemble f w = .ok root w') :
    ∃ u g, build f w = .ok root u ∧
      resolve (collectPaths u u.treeDepth root Table.empty) u.treeDepth root u = .ok () g ∧
      g.Unlinked ∧ root.index < g.host.objects.size ∧
      (∀ o : ObjectRef, o.index < g.host.objects.size → g.Below root o) ∧
      g.Linking w' ∧ ∀ o, g.Below root o → g.LinkedAt o w' := by
  obtain ⟨u, g, hbuild, hresolve, hlink⟩ := exists_build_of_assemble h
  obtain ⟨hu, hroot, hbelow⟩ := unlinked_of_build hempty hcycle hbuild
  -- Resolving leaves the tree as it was built.
  have hempty (name : String) (q : ObjectRef) (h : Table.empty.find? name = some q) :
      q.index < u.host.objects.size := nomatch h
  have hg : u.Nested g :=
    (preserves_nested_resolve (index_lt_of_collectPaths hu u.treeDepth hroot hempty) u.treeDepth
      root).of_ok ⟨hu, rfl, fun _ ↦ rfl⟩ hresolve
  have hchild (o c : ObjectRef) (hc : u.Child o c) : g.Child o c := by
    rwa [Child, hg.nested]
  have hroot' : root.index < g.host.objects.size := hg.size.symm ▸ hroot
  -- Linking visits the whole tree.
  have hstart : g.Linking g := ⟨rfl, rfl, fun _ ↦ rfl, fun x observer hx ↦ by
    rw [hg.unobserved] at hx
    exact absurd hx List.not_mem_nil, rfl, hg.noCycle⟩
  have hact (o : ObjectRef) (w : World) (hw : g.Linking w) (_ : o.index < g.host.objects.size) :=
    exists_linkListeners (ε := CompileError) hg.toUnlinked o hw
  obtain ⟨w'', hvisit, hw'', hlinked, -⟩ := exists_visit (fun w hw ↦ hw.children) hact
    g.treeDepth root (fun a _ ↦ hg.children a) hroot' (g.size_le_add_treeDepth _) hstart
  cases hvisit.symm.trans hlink
  exact ⟨u, g, hbuild, hresolve, hg.toUnlinked, hroot',
    fun o ho ↦ ReflTransGen.mono hchild _ _ (hbelow o (hg.size ▸ ho)), hw'', hlinked⟩

/-- A frame that is assembled in a world without objects. -/
theorem assembled_of_assemble {f : Frame} {root : ObjectRef} {w w' : World}
    (hempty : w.host.objects = #[]) (hcycle : w.NoCycle) (h : assemble f w = .ok root w') :
    w'.Assembled root := by
  obtain ⟨u, g, -, -, hg, hroot, hbelow, hlinking, hlinked⟩ :=
    exists_linking_of_assemble hempty hcycle h
  exact hlinking.assembled hg hroot hbelow hlinked

end World

end ReactiveFrames
