import ReactiveFrames.Proofs.Reactive.Confinement
import ReactiveFrames.Proofs.Reactive.Edges

/-!
# What a write touches in a compiled frame

The observers in a compiled frame are its listeners, each at what its arguments mean. This lasts
whatever a host does with the frame, as long as it adds no other observers than watchers that write
nothing (`World.Later.fed`). So if no listener writes by itself, a write of a property touches only
what can be reached from the property along the arguments of listeners, in cyclic frames too, and
although some listeners fail or yield nothing (`World.writes_confined`).

## Main definitions

* `World.Later`: the worlds that a host comes to from a world.

## Main statements

* `World.fed_of_compileObject`: the observers in a compiled frame.
* `World.writes_confined`: what a write leaves as it was.
-/

open Filter

namespace ReactiveFrames

open Script (Value)
open Relation (ReflTransGen TransGen)

namespace World

/-! ## Compiled frames -/

section Compiled

variable {g w w' : World} {root root' : ObjectRef} {f f' : Frame} {enums : EnumTable}

/-- What compiling does after its passes wires nothing. -/
theorem exists_passes_of_compileObject (hf : f.WellFormed enums)
    (h : compileObject f w = .ok root w') :
    ∃ u v x, Passes f root w u v x ∧ x.SameWiring w' := by
  obtain ⟨x, hassemble, hseed⟩ := exists_assemble_of_compileObject h
  obtain ⟨u, v, hpasses⟩ := exists_passes_of_assemble hf hassemble
  exact ⟨u, v, x, hpasses,
    ((writeClosed_sameWiring x).scriptClosed.seedTree root).of_ok (.refl x) hseed⟩

/-- The edges of a tree that is exactly wired lead from what listeners point at to the listeners. -/
theorem ExactlyWired.feeds (h : w.ExactlyWired root) (htree : w.IsTreeOf root f) {x y : Place}
    (hedge : (x, y) ∈ w.edges root) : w.Feeds x y ∧ w.Below root y.1 := by
  obtain ⟨s, hs, rfl, a, ha, htarget⟩ := htree.mem_edges.1 hedge
  have hlistener : w.IsListener s.place := by
    refine isListener_iff.2 ?_
    rw [h.listeners s.owner hs.1]
    exact List.mem_map_of_mem hs.2
  obtain ⟨ps, hps, hpoints⟩ := h.pointers s hs
  -- The pointer for the argument stands at the place of the argument.
  obtain ⟨hlength, hpoints⟩ := List.forall₂_iff_get.1 hpoints
  obtain ⟨i, rfl⟩ := List.mem_iff_get.1 ha
  have hpoint := hpoints i i.2 (hlength ▸ i.2)
  have hmem : ps.get ⟨i, hlength ▸ i.2⟩ ∈ w.pointersAt s.place := by
    rw [pointersAt, Site.place, hps]
    exact List.get_mem ps _
  exact ⟨⟨hlistener, _, hmem, Option.some.inj (hpoint.target.symm.trans htarget)⟩, hs.1⟩

/-- In a compiled frame, the observers are listeners that point at what they observe. -/
theorem fed_of_compileObject (hf : f.WellFormed enums) (h : compileObject f w = .ok root w') :
    w'.Fed root w' := by
  obtain ⟨u, v, x', hpasses, hsame⟩ := exists_passes_of_compileObject hf h
  have htree := hpasses.tree.samePlaces (hpasses.samePlaces.trans hsame.samePlaces)
  have hwired := hpasses.exactlyWired.sameWiring hsame
  refine ⟨le_rfl, fun x hx observer hobserver ↦ .inr ?_⟩
  rw [hwired.observers x hx, observersBy, List.mem_filterMap] at hobserver
  obtain ⟨⟨x'', y⟩, hedge, heq⟩ := hobserver
  dsimp only at heq
  split_ifs at heq with hsource
  cases heq
  rw [hsource] at hedge
  obtain ⟨hfeeds, hbelow⟩ := hwired.feeds htree hedge
  exact ⟨y, rfl, hfeeds, hbelow⟩

theorem isTreeOf_of_compileObject (hf : f.WellFormed enums) (h : compileObject f w = .ok root w') :
    w'.IsTreeOf root f := by
  obtain ⟨u, v, x, hpasses, hsame⟩ := exists_passes_of_compileObject hf h
  exact hpasses.tree.samePlaces (hpasses.samePlaces.trans hsame.samePlaces)

/-! ## Whatever a host does -/

namespace Fed

theorem sameButPointers (h : g.Fed root w) (hw : w.SameButPointers w') : g.Fed root w' := by
  refine h.of_observersOf hw.size.ge fun x _ ↦ ?_
  rw [ReactiveObject.observersOf, hw.observers]
  rfl

theorem modify (h : g.Fed root w) (o : ObjectRef) {c : ReactiveObject → ReactiveObject}
    (hc : (c (w.object o)).observers = (w.object o).observers) : g.Fed root (w.modify o c) := by
  refine h.of_observersOf (w.size_modify o c).ge fun x _ ↦ ?_
  rw [object_modify]
  split_ifs with hx
  · rw [hx.1, ReactiveObject.observersOf, hc]
    rfl
  · rfl

theorem watch (h : g.Fed root w) (o : ObjectRef) (p tag : String) :
    g.Fed root (w.modify o (·.addObserver p (.watcher tag none))) := by
  refine ⟨h.size.trans (w.size_modify o _).ge, fun x hx observer hobserver ↦ ?_⟩
  rw [object_modify] at hobserver
  split_ifs at hobserver with ho
  · rw [ReactiveObject.observersOf_addObserver] at hobserver
    split_ifs at hobserver with hp
    · rcases List.mem_append.1 hobserver with hobserver | hobserver
      · exact h.observer x hx observer (hp ▸ hobserver)
      · exact .inl ⟨tag, List.mem_singleton.1 hobserver⟩
    · exact h.observer x hx observer hobserver
  · exact h.observer x hx observer hobserver

theorem addObject (hg : g.IsTreeOf root f) (h : g.Fed root w) (object : ReactiveObject) :
    g.Fed root (w.addObject object).2 := by
  have hsize : (w.addObject object).2.host.objects.size = w.host.objects.size + 1 :=
    Array.size_push _
  refine h.of_observersOf (hsize ▸ Nat.le_succ _) fun x hx ↦ ?_
  have hold : x.1.index < w.host.objects.size := (hg.index_lt hx).trans_le h.size
  have hobject : (w.addObject object).2.object x.1 = w.object x.1 := by
    change ((w.host.objects.push object)[x.1.index]?).getD default = _
    rw [Array.getElem?_push, if_neg hold.ne]
    rfl
  rw [hobject]

end Fed

/-- Whatever runs and whatever is written, observers stay where they are. -/
theorem writeClosed_fed (g : World) (root : ObjectRef) : WriteClosed (g.Fed root) where
  drifts _ _ hd hw := hw.sameWiring (.of_objects hd.objects)
  set o p v w hw hr :=
    ⟨hw.sameWiring (keeps_setWithin _ _ _ o p v w hr).toSameWiring, .of_forall fun _ ↦ rfl⟩

theorem buildClosed_fed (hg : g.IsTreeOf root f) : BuildClosed (g.Fed root) where
  congr _ _ heq _ hw := hw.sameWiring (.of_objects (congrArg ObjectGraph.objects heq))
  modify _ o _ hobservers _ hw := hw.modify o hobservers
  addObject _ _ _ hw := hw.addObject hg _
  evaluate := (writeClosed_fed g root).evaluate

variable (hg : g.IsTreeOf root f) (hf : f'.WellFormed enums)

include hg hf

/-- A further frame that is assembled gets no observers in the tree. -/
theorem Fed.of_assemble (h : g.Fed root w) (hassemble : assemble f' w = .ok root' w') :
    g.Fed root w' := by
  obtain ⟨u, v, hpasses⟩ := exists_passes_of_assemble hf hassemble
  have htree := hpasses.tree.samePlaces hpasses.samePlaces
  refine h.of_observersOf (hpasses.new ▸ htree.size.le) fun x hx ↦ ?_
  refine hpasses.observersOf_of_not_below hf fun hbelow ↦ ?_
  have hold : x.1.index < root'.index := hpasses.new ▸ (hg.index_lt hx).trans_le h.size
  exact absurd (htree.index_le hbelow) hold.not_ge

theorem preserves_fed_assemble : Run.Preserves (g.Fed root) (assemble f') := by
  intro w hw hr
  refine ⟨?_, .of_forall fun _ ↦ rfl⟩
  cases hbuild : build f' w with
  | exhausted u =>
    rw [assemble, Run.bind_of_exhausted hbuild] at hr
    exact hr.elim
  | error e u =>
    have hu := ((buildClosed_fed hg).build f').state_of_returns hw (by rw [hbuild]; trivial)
    rw [hbuild] at hu
    rw [assemble, Run.bind_of_error hbuild]
    exact hu
  | ok root' u =>
    have hu := ((buildClosed_fed hg).build f').of_ok hw hbuild
    have hresolved := preserves_sameButPointers_resolve u
      (collectPaths u u.treeDepth root' Table.empty) u.treeDepth root'
    have hassemble : assemble f' w
        = (resolve (collectPaths u u.treeDepth root' Table.empty) u.treeDepth root' >>= fun _ ↦ do
            World.linkTree root'
            pure root') u :=
      Run.bind_of_ok hbuild _
    cases hresolve : resolve (collectPaths u u.treeDepth root' Table.empty) u.treeDepth root' u with
    | exhausted v =>
      rw [hassemble, Run.bind_of_exhausted hresolve] at hr
      exact hr.elim
    | error e v =>
      have hv := hresolved.state_of_returns (.refl u) (by rw [hresolve]; trivial)
      rw [hresolve] at hv
      rw [hassemble, Run.bind_of_error hresolve]
      exact hu.sameButPointers hv
    | ok _ v =>
      -- Linking does not fail, so the frame is assembled.
      obtain ⟨x, hlink⟩ := (isTreeOf_of_build hbuild).exists_linkTree (ε := CompileError)
        (hresolved.of_ok (.refl u) hresolve).samePlaces
      have hok : assemble f' w = .ok root' x := by
        rw [hassemble, Run.bind_of_ok hresolve, Run.bind_of_ok hlink]
        rfl
      rw [hok]
      exact hw.of_assemble hg hf hok

theorem preserves_fed_compile (registry : ComponentRegistry) :
    Run.Preserves (g.Fed root) (compile registry f') := by
  have hobject : Run.Preserves (g.Fed root) (compileObject f') :=
    (preserves_fed_assemble hg hf).bind fun root' ↦
      ((writeClosed_fed g root).scriptClosed.seedTree root').bind fun _ ↦ .pure root'
  refine hobject.bind fun root' ↦ Run.Tracks.bind (fun w hw hr ↦ ?_) fun component ↦
    (Run.Tracks.update fun _ hw ↦ hw.sameWiring (.of_objects rfl)).bind fun _ ↦ .pure _
  exact Run.Tracks.ofExcept _ w hw hr

end Compiled

/-- Worlds that a host comes to from `g`, also in the midst of a script, but not of a write. The
host compiles frames that it has read, executes programs, runs scripts and listeners, writes
properties and watches them; it adds no observer that writes. -/
inductive Later (g : World) : World → Prop
  | refl : Later g g
  /-- Whatever goes on while no property is written. -/
  | drift {w w' : World} (hw : Later g w) (h : w.Drifts w') : Later g w'
  | defineForeign {w : World} (name : String) (f : Foreign) (hw : Later g w) :
      Later g (w.defineForeign name f)
  | addObject {w : World} (object : ReactiveObject) (hw : Later g w) :
      Later g (w.addObject object).2
  | compile {w : World} {enums : EnumTable} {source : String} {f : Frame}
      (registry : ComponentRegistry) (hw : Later g w) (hparse : Frame.parse enums source = .ok f)
      (hr : (ReactiveFrames.compile registry f w).Returns) :
      Later g (ReactiveFrames.compile registry f w).state
  | execute {w : World} (argument : Option Value) (c : Component) (hw : Later g w)
      (hr : (ReactiveFrames.execute argument c w).Returns) :
      Later g (ReactiveFrames.execute argument c w).state
  | seedTree {w : World} (o : ObjectRef) (hw : Later g w)
      (hr : (World.seedTree o w : Outcome World ObserverError Unit).Returns) :
      Later g (World.seedTree o w : Outcome World ObserverError Unit).state
  | evaluate {w : World} (source : String) (hw : Later g w)
      (hr : (World.evaluate source w).Returns) : Later g (World.evaluate source w).state
  | call {w : World} (f : Value) (arguments : List Value) (hw : Later g w)
      (hr : (World.call f arguments w).Returns) : Later g (World.call f arguments w).state
  | fire {w : World} (owner : ObjectRef) (listener : String) (hw : Later g w)
      (hr : (World.fire owner listener w : Outcome World ObserverError Unit).Returns) :
      Later g (World.fire owner listener w : Outcome World ObserverError Unit).state
  | set {w : World} (o : ObjectRef) (p : String) (v : Value) (hw : Later g w)
      (hr : (World.set o p v w).Returns) : Later g (World.set o p v w).state
  | define {w : World} (o : ObjectRef) (p : String) (v : Value) (hw : Later g w) :
      Later g (w.define o p v)
  | watch {w : World} (o : ObjectRef) (p tag : String) (hw : Later g w) :
      Later g (w.modify o (·.addObserver p (.watcher tag none)))
  | letGo {w : World} (o : ObjectRef) (hw : Later g w) : Later g (w.letGo o)

section Later

variable {g w : World} {root : ObjectRef} {f : Frame}

/-- In a tree that is there at first, no observers come up but watchers that write nothing. -/
theorem Later.fed (h : g.Later w) (htree : g.IsTreeOf root f) (hg : g.Fed root g) :
    g.Fed root w := by
  have hclosed := writeClosed_fed g root
  induction h with
  | refl => exact hg
  | drift _ h ih => exact hclosed.drifts _ _ h ih
  | defineForeign name f _ ih => exact ih.sameWiring (.of_objects rfl)
  | addObject object _ ih => exact ih.addObject htree object
  | compile registry _ hparse hr ih =>
    exact (preserves_fed_compile htree (Frame.wellFormed_of_parse hparse) registry).state_of_returns
      ih hr
  | execute argument c _ hr ih =>
    exact (hclosed.scriptClosed.execute argument c).state_of_returns ih hr
  | seedTree o _ hr ih => exact (hclosed.scriptClosed.seedTree o).state_of_returns ih hr
  | evaluate source _ hr ih => exact (hclosed.evaluate source).state_of_returns ih hr
  | call f arguments _ hr ih => exact (hclosed.call f arguments).state_of_returns ih hr
  | fire owner listener _ hr ih =>
    exact (hclosed.scriptClosed.fire owner listener).state_of_returns ih hr
  | set o p v _ hr ih => exact (hclosed.set o p v).state_of_returns ih hr
  | define o p v _ ih => exact ih.modify o rfl
  | watch o p tag _ ih => exact ih.watch o p tag
  | letGo o _ ih => exact ih.sameWiring (.of_objects rfl)

/-- A write of a property in a compiled frame changes no other property than those of the listeners
that can be reached from it along their arguments, and runs no observers of any other property. The
frame may be cyclic, and listeners may fail or yield nothing, but none that is run makes a write by
itself. -/
theorem writes_confined {enums : EnumTable} {source : String} {w₀ w₁ : World} {o : ObjectRef}
    {p : String} {v : Value} (hparse : Frame.parse enums source = .ok f)
    (hcompile : compileObject f w₀ = .ok root w₁) (hw : w₁.Later w) (ho : w₁.Below root o)
    (hsilent : (⟨.write none o p v, w⟩ : Moment).Silent) (hr : (set o p v w).Returns)
    {y : Place} (hne : y ≠ (o, p)) (hy : ¬TransGen w₁.Feeds (o, p) y) :
    (set o p v w).state.get? y.1 y.2 = w.get? y.1 y.2 ∧
      ∀ observer u, ¬(⟨.write none o p v, w⟩ : Moment).Runs y observer u := by
  have hf := Frame.wellFormed_of_parse hparse
  have hfed := hw.fed (isTreeOf_of_compileObject hf hcompile) (fed_of_compileObject hf hcompile)
  have hsilent (z y : Place) (u : World)
      (hruns : (⟨.write none o p v, w⟩ : Moment).Runs z (.listener y.1 y.2) u) (_ : w.Evolves u) :
      u.SilentAt y :=
    hsilent z y u hruns
  have hunreached : ¬ReflTransGen w₁.Feeds (o, p) y := by
    rw [Relation.reflTransGen_iff_eq_or_transGen]
    rintro (heq | hreach)
    · exact hne heq
    · exact hy hreach
  refine ⟨Moment.get?_of_within (x := (o, p)) (z := (o, p)) hfed ho hr hsilent hunreached
    (Moment.Within.start.enters .layOut), ?_⟩
  rintro observer u ⟨k, levels, v', b, hwithin, -⟩
  obtain ⟨-, hreach, -⟩ := Moment.confined_of_within (x := (o, p)) hfed ho hr hsilent hwithin
  exact hunreached hreach

end Later

/-! ## Listeners that depend on each other -/

/-- Two listeners depend on each other, one fails, one yields nothing, and one depends on `z`
alone. -/
def coupled : String :=
  "top: Object \x7b x: Bool true, z: Bool true, " ++
    "a: Listner(v: self.x, c: self.b) -> Bool %\x7b return !c; %\x7d, " ++
    "b: Listner(v: self.a) -> Bool %\x7b return !v; %\x7d, " ++
    "bad: Listner(v: self.a) -> Bool %\x7b throw \"no\"; %\x7d, " ++
    "none: Listner(v: self.x) -> Bool %\x7b v; %\x7d, " ++
    "l: Listner(v: self.z) -> Bool %\x7b return v; %\x7d \x7d"

/-- The bodies are plain, and the listeners point at what the frame says. -/
def isCoupled (w : World) : Bool :=
  w.plainListeners && (w.object ⟨0⟩).listenerNames == ["a", "b", "bad", "none", "l"] &&
    w.pointersAt (⟨0⟩, "a") == [⟨"v", ⟨0⟩, "x"⟩, ⟨"c", ⟨0⟩, "b"⟩] &&
    w.pointersAt (⟨0⟩, "b") == [⟨"v", ⟨0⟩, "a"⟩] && w.pointersAt (⟨0⟩, "l") == [⟨"v", ⟨0⟩, "z"⟩]

/-- A write has been refused, and listeners have failed and yielded nothing. -/
def isTroubled (w : World) : Bool :=
  [.cycle "top" "a", .script "top" "bad" (.thrown "no"), .noResult "top" "none"].all
    (w.host.diagnostics.errors.contains ·)

section Coupled

variable {w₁ w : World}

theorem isListener_of_isCoupled (h : isCoupled w₁ = true) (p : String) :
    w₁.IsListener (⟨0⟩, p) ↔ p ∈ ["a", "b", "bad", "none", "l"] := by
  simp only [isCoupled, Bool.and_eq_true, beq_iff_eq] at h
  rw [isListener_iff, h.1.1.1.2]

theorem cyclic_of_isCoupled (h : isCoupled w₁ = true) :
    TransGen w₁.Feeds (⟨0⟩, "a") (⟨0⟩, "a") := by
  have hlistener := isListener_of_isCoupled h
  simp only [isCoupled, Bool.and_eq_true, beq_iff_eq] at h
  obtain ⟨⟨⟨-, ha⟩, hb⟩, -⟩ := h
  have hab : w₁.Feeds (⟨0⟩, "a") (⟨0⟩, "b") := by
    refine ⟨(hlistener "b").2 (by decide), ⟨"v", ⟨0⟩, "a"⟩, ?_, rfl⟩
    rw [hb]
    decide
  have hba : w₁.Feeds (⟨0⟩, "b") (⟨0⟩, "a") := by
    refine ⟨(hlistener "a").2 (by decide), ⟨"c", ⟨0⟩, "b"⟩, ?_, rfl⟩
    rw [ha]
    decide
  exact .tail (.single hab) hba

theorem unreached_of_isCoupled (h : isCoupled w₁ = true) :
    ¬TransGen w₁.Feeds (⟨0⟩, "x") (⟨0⟩, "l") := by
  have hlistener := isListener_of_isCoupled h
  simp only [isCoupled, Bool.and_eq_true, beq_iff_eq] at h
  -- Only `z` feeds `l`, and nothing feeds `z`, which is no listener.
  intro hreach
  obtain ⟨y, hreach, -, q, hq, rfl⟩ := TransGen.tail'_iff.1 hreach
  rw [h.2, List.mem_singleton] at hq
  subst hq
  rcases Relation.reflTransGen_iff_eq_or_transGen.1 hreach with heq | hreach
  · exact absurd heq (by decide)
  · obtain ⟨y, -, hfeeds⟩ := TransGen.tail'_iff.1 hreach
    exact absurd ((hlistener "z").1 hfeeds.1) (by decide)

/-- A write of `x` is refused further down, and makes listeners fail; it does not run the listener
that depends on `z`. -/
theorem writes_confined_coupled : ∃ f w₁ w w', Frame.parse Table.empty coupled = .ok f ∧
    compileObject f (World.create 256 16) = .ok ⟨0⟩ w₁ ∧ w₁.Later w ∧
      TransGen w₁.Feeds (⟨0⟩, "a") (⟨0⟩, "a") ∧ set ⟨0⟩ "x" (.bool false) w = .ok () w' ∧
        isTroubled w' = true ∧ ¬TransGen w₁.Feeds (⟨0⟩, "x") (⟨0⟩, "l") ∧
          w'.get? ⟨0⟩ "l" = w.get? ⟨0⟩ "l" ∧ ∀ observer u,
            ¬(⟨.write none ⟨0⟩ "x" (.bool false), w⟩ : Moment).Runs (⟨0⟩, "l") observer u := by
  have hrun : Except.okWith
      (fun f ↦ (compileObject f (World.create 256 16)).okWith fun root w₁ ↦
        root == ⟨0⟩ && isCoupled w₁ && (set ⟨0⟩ "b" (.bool true) w₁).okWith fun _ w ↦
          (set ⟨0⟩ "x" (.bool false) w).okWith fun _ w' ↦ isTroubled w')
      (Frame.parse Table.empty coupled) = true := by
    rw [Frame.parse_eq]
    delta coupled
    repeat rewrite [String.toList_append]
    repeat rewrite [String.toList_ofList]
    decide +kernel
  obtain ⟨f, hparse, hrun⟩ := Except.exists_of_okWith hrun
  obtain ⟨root, w₁, hcompile, hrun⟩ := Outcome.exists_of_okWith hrun
  rw [Bool.and_eq_true, Bool.and_eq_true, beq_iff_eq] at hrun
  obtain ⟨⟨rfl, hcoupled⟩, hrun⟩ := hrun
  obtain ⟨_, w, hbefore, hrun⟩ := Outcome.exists_of_okWith hrun
  obtain ⟨_, w', hset, htroubled⟩ := Outcome.exists_of_okWith hrun
  have hplain : w₁.plainListeners = true := by
    simp only [isCoupled, Bool.and_eq_true] at hcoupled
    exact hcoupled.1.1.1.1
  have hstate : (set ⟨0⟩ "b" (.bool true) w₁).state = w := congrArg Outcome.state hbefore
  have hreturns : (set ⟨0⟩ "b" (.bool true) w₁).Returns := hbefore ▸ Outcome.returns_ok _ _
  have hw : w₁.Later w := hstate ▸ .set ⟨0⟩ "b" (.bool true) .refl hreturns
  have hevolves : w₁.Evolves w :=
    hstate ▸ .of_keeps (keeps_setWithin stepBound get? w₁.levels ⟨0⟩ "b" _ w₁ hreturns)
  have hr : (set ⟨0⟩ "x" (.bool false) w).Returns := hset ▸ Outcome.returns_ok _ _
  have hf := Frame.wellFormed_of_parse hparse
  have hfed := hw.fed (isTreeOf_of_compileObject hf hcompile) (fed_of_compileObject hf hcompile)
  have hsilent := Moment.silent_of_evolves (x := (⟨0⟩, "x")) hfed .refl hr fun u hu ↦
    silentAt_of_plainListeners hplain (hevolves.trans hu)
  have hunreached := unreached_of_isCoupled hcoupled
  obtain ⟨hvalue, hruns⟩ :=
    writes_confined hparse hcompile hw .refl hsilent hr (by decide) hunreached
  rw [hset] at hvalue
  exact ⟨f, w₁, w, w', hparse, hcompile, hw, cyclic_of_isCoupled hcoupled, hset, htroubled,
    hunreached, hvalue, hruns⟩

end Coupled

end World

end ReactiveFrames
