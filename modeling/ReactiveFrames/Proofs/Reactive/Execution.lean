import ReactiveFrames.Proofs.Reactive.Enrolling
import ReactiveFrames.Proofs.Reactive.Notifications
import ReactiveFrames.Proofs.Reactive.Seeding
import ReactiveFrames.Proofs.Reactive.StoredValue

/-!
# The order of execution

Executing a program calls all its init functions, one after the other, and then seeds all its
listeners. Both go through the tree of objects with the children of an object before the object, so
what there is to call and what there is to seed are two lists that are known beforehand: they are
read off the frame, whatever the functions do (`Frame.namesUp`).

The calls are a run through the first list (`World.Initialized`). What a function returns is stored
before the next one is called, an undefined result is passed over, and a result that its object
refuses is reported. Only a function that fails ends the run, and nothing that has happened before
is taken back.

## Main definitions

* `Component.postorder`, `World.initsUp`: objects and init functions of a tree of components,
  children first.
* `Frame.namesUp`: paths and names of members of a frame and of the frames in it, nested ones first.
* `World.Initialized`: init functions that have been called one after the other.

## Main statements

* `World.runInitTree_eq_forM`: the init functions of a tree are called in the order of the list.
* `World.namesUp_eq`: what the objects of a tree have, from the children up, is what the frame
  declares.
* `World.executes_in_order`: how the execution of a compiled program goes.
-/

namespace ReactiveFrames

open Script (Value)

/-! ## Init functions -/

/-- An init function of an object. -/
structure InitFunction where
  object : ObjectRef
  name : String
  callable : Value

namespace InitFunction

/-- Calls an init function with its object and an argument, if there is one, and stores what it
returns. -/
def run (argument : Option Value) (i : InitFunction) : Effect ExecuteError Unit :=
  runInit i.object argument (i.name, i.callable)

/-- Calls an init function with its object and an argument, if there is one. -/
def call (argument : Option Value) (i : InitFunction) : Effect Script.ScriptError Value := fun w ↦
  (World.call i.callable (w.toValue i.object :: argument.toList) w).mapState
    fun w' ↦ { w' with failures := 0 }

end InitFunction

mutual

/-- Objects of a component and of all below it, children first. -/
def Component.postorder : Component → List ObjectRef
  | .mk o cs => Component.postorderForest cs ++ [o]

/-- Objects of components and of all below them, children first. -/
def Component.postorderForest : List Component → List ObjectRef
  | [] => []
  | c :: cs => c.postorder ++ Component.postorderForest cs

end

namespace World

variable {w w' u : World} {o root : ObjectRef} {argument : Option Value}

/-- Init functions of an object, in order. -/
def initsAt (w : World) (o : ObjectRef) : List InitFunction :=
  (w.object o).inits.map fun i ↦ ⟨o, i.1, i.2⟩

/-- Init functions of a tree of components, children first. -/
def initsUp (w : World) (c : Component) : List InitFunction := c.postorder.flatMap w.initsAt

/-! ## The order of the calls -/

theorem runInits_eq_forM (h : w.SameWiring u) (o : ObjectRef) :
    runInits o argument u = ((w.initsAt o).forM (·.run argument)) u := by
  have hinits : (u.object o).inits = (w.object o).inits :=
    (congrArg ReactiveObject.inits (h.wiring o) :)
  rw [initsAt, ← hinits, List.forM_eq_forM, List.forM_map]
  rfl

mutual

/-- The init functions of a tree of components are called children first, and those of an object in
their order. -/
theorem runInitTree_eq_forM (c : Component) {u : World} (h : w.SameWiring u) :
    c.runInitTree argument u = ((w.initsUp c).forM (·.run argument)) u := by
  match c with
  | .mk o cs =>
    rw [Component.runInitTree, Run.bind_congr_left (runInitForest_eq_forM cs h), initsUp,
      Component.postorder, List.flatMap_append, List.flatMap_singleton, List.forM_eq_forM,
      List.forM_append]
    refine Run.bind_congr_right fun _ v hrun ↦ runInits_eq_forM ?_ o
    have hforest : Run.Preserves w.SameWiring
        (((Component.postorderForest cs).flatMap w.initsAt).forM (·.run argument)) :=
      .forM fun i _ ↦ (writeClosed_sameWiring w).scriptClosed.runInit i.object argument _
    exact hforest.of_ok h hrun

theorem runInitForest_eq_forM (cs : List Component) {u : World} (h : w.SameWiring u) :
    Component.runInitForest argument cs u
      = (((Component.postorderForest cs).flatMap w.initsAt).forM (·.run argument)) u := by
  match cs with
  | [] => rfl
  | c :: cs =>
    rw [Component.runInitForest, Run.bind_congr_left (runInitTree_eq_forM c h),
      Component.postorderForest, List.flatMap_append, List.forM_eq_forM, List.forM_append]
    refine Run.bind_congr_right fun _ v hrun ↦ runInitForest_eq_forM cs ?_
    have htree : Run.Preserves w.SameWiring ((w.initsUp c).forM (·.run argument)) :=
      .forM fun i _ ↦ (writeClosed_sameWiring w).scriptClosed.runInit i.object argument _
    exact htree.of_ok h hrun

end

/-! ## What a call does -/

section Call

variable {i : InitFunction}

theorem run_of_error {e : Script.ScriptError} (h : i.call argument w = .error e u) :
    i.run argument w = .error ⟨(w.object i.object).path, i.name, e⟩ u := by
  obtain ⟨u, hcall, rfl⟩ := Outcome.mapState_eq_error.1 h
  exact runInit_of_error hcall

theorem run_of_ok {v : Value} (h : i.call argument w = .ok v u) :
    i.run argument w
      = if v.isUndefined then .ok () u else reporting (World.set i.object i.name v) u := by
  obtain ⟨u, hcall, rfl⟩ := Outcome.mapState_eq_ok.1 h
  exact runInit_of_ok hcall

theorem exists_call_of_returns (h : (i.run argument w).Returns) :
    (∃ v u, i.call argument w = .ok v u) ∨ ∃ e u, i.call argument w = .error e u := by
  cases hcall : World.call i.callable (w.toValue i.object :: argument.toList) w with
  | ok v u =>
    refine .inl ⟨v, { u with failures := 0 }, ?_⟩
    rw [InitFunction.call, hcall]
    rfl
  | error e u =>
    refine .inr ⟨e, { u with failures := 0 }, ?_⟩
    rw [InitFunction.call, hcall]
    rfl
  | exhausted u =>
    rw [InitFunction.run, runInit_of_exhausted hcall] at h
    exact h.elim

/-- Only a call that fails makes an init function fail. -/
theorem exists_call_of_error {e : ExecuteError} (h : i.run argument w = .error e u) :
    ∃ e', i.call argument w = .error e' u ∧ e = ⟨(w.object i.object).path, i.name, e'⟩ := by
  obtain ⟨v, x, hcall⟩ | ⟨e', x, hcall⟩ := exists_call_of_returns (by rw [h]; trivial)
  · rw [run_of_ok hcall] at h
    by_cases hv : v.isUndefined
    · rw [if_pos hv] at h
      cases h
    · rw [if_neg hv] at h
      exact absurd h (reporting_ne_error _ x e u)
  · rw [run_of_error hcall] at h
    cases h
    exact ⟨e', hcall, rfl⟩

theorem sameWiring_of_call {v : Value} (h : i.call argument w = .ok v u) : w.SameWiring u := by
  obtain ⟨u, hcall, rfl⟩ := Outcome.mapState_eq_ok.1 h
  exact (((writeClosed_sameWiring w).call _ _).of_ok (.refl w) hcall).trans (.of_objects rfl)

end Call

/-- Init functions have been called, one after the other, and none of them has failed. The next one
is called when the result of the one before has been stored, or has been refused, or there was
none. -/
inductive Initialized (argument : Option Value) : List InitFunction → World → World → Prop
  | nil (w : World) : Initialized argument [] w w
  | undefined {i : InitFunction} {is : List InitFunction} {w u w' : World}
      (hcall : i.call argument w = .ok .undefined u) (hrest : Initialized argument is u w') :
      Initialized argument (i :: is) w w'
  | stored {i : InitFunction} {is : List InitFunction} {w u v' w' : World} {v : Value}
      (hcall : i.call argument w = .ok v u) (hdefined : v.isUndefined = false)
      (hset : World.set i.object i.name v u = .ok () v')
      (hget : v'.get? i.object i.name = some v) (hrest : Initialized argument is v' w') :
      Initialized argument (i :: is) w w'
  | refused {i : InitFunction} {is : List InitFunction} {w u w' : World} {v : Value}
      {e : ObserverError} (hcall : i.call argument w = .ok v u) (hdefined : v.isUndefined = false)
      (hset : World.set i.object i.name v u = .error e u)
      (hrest : Initialized argument is (u.report e) w') : Initialized argument (i :: is) w w'

/-- One init function that does not fail is called, and the others after it. -/
theorem initialized_cons {i : InitFunction} {is : List InitFunction}
    (hi : i.object.index < w.host.objects.size) (hrun : i.run argument w = .ok () u)
    (h : Initialized argument is u w') : Initialized argument (i :: is) w w' := by
  obtain ⟨v, x, hcall⟩ | ⟨e, x, hcall⟩ := exists_call_of_returns (by rw [hrun]; trivial)
  · rw [run_of_ok hcall] at hrun
    by_cases hv : v.isUndefined
    · rw [if_pos hv] at hrun
      cases hrun
      cases v with
      | undefined => exact .undefined hcall h
      | _ => cases hv
    · rw [if_neg hv] at hrun
      have hdefined := Bool.eq_false_iff.2 hv
      obtain hset | ⟨e, y, hset, rfl⟩ := reporting_eq_ok.1 hrun
      · have hx : i.object.index < x.host.objects.size := (sameWiring_of_call hcall).size.symm ▸ hi
        have hget := (get?_of_set_eq_ok hx hset fun _ _ _ _ ↦ rfl).1
        exact .stored hcall hdefined hset hget h
      · obtain ⟨-, -, rfl⟩ := eq_of_set_eq_error hset
        exact .refused hcall hdefined hset h
  · rw [run_of_error hcall] at hrun
    cases hrun

/-- Init functions are called until one of them fails, or does not come to an end. -/
theorem forM_run_cases (argument : Option Value) {is : List InitFunction}
    (his : ∀ i ∈ is, i.object.index < w.host.objects.size) :
    (∃ u, is.forM (·.run argument) w = .ok () u ∧ Initialized argument is w u) ∨
    (∃ done i rest u e u', is = done ++ i :: rest ∧ Initialized argument done w u ∧
      i.call argument u = .error e u' ∧
      is.forM (·.run argument) w = .error ⟨(w.object i.object).path, i.name, e⟩ u') ∨
    ∃ done i rest u u', is = done ++ i :: rest ∧ Initialized argument done w u ∧
      i.run argument u = .exhausted u' ∧ is.forM (·.run argument) w = .exhausted u' := by
  induction is generalizing w with
  | nil => exact .inl ⟨w, rfl, .nil w⟩
  | cons i is ih =>
    obtain ⟨hi, his⟩ := List.forall_mem_cons.1 his
    have hcons : (i :: is).forM (·.run argument) w
        = (i.run argument >>= fun _ ↦ is.forM (·.run argument)) w := rfl
    cases hrun : i.run argument w with
    | ok _ u =>
      have hu := ((writeClosed_sameWiring w).scriptClosed.runInit i.object argument _).of_ok
        (.refl w) hrun
      rw [hcons, Run.bind_of_ok hrun]
      obtain ⟨w', hrest, h⟩ | ⟨done, j, rest, v, e, v', rfl, h, hcall, hrest⟩
        | ⟨done, j, rest, v, v', rfl, h, hbound, hrest⟩ := ih fun j hj ↦ hu.size.symm ▸ his j hj
      · exact .inl ⟨w', hrest, initialized_cons hi hrun h⟩
      · rw [hu.path] at hrest
        exact .inr (.inl
          ⟨i :: done, j, rest, v, e, v', rfl, initialized_cons hi hrun h, hcall, hrest⟩)
      · exact .inr (.inr
          ⟨i :: done, j, rest, v, v', rfl, initialized_cons hi hrun h, hbound, hrest⟩)
    | error e u =>
      obtain ⟨e', hcall, rfl⟩ := exists_call_of_error hrun
      rw [hcons, Run.bind_of_error hrun]
      exact .inr (.inl ⟨[], i, is, w, e', u, rfl, .nil w, hcall, rfl⟩)
    | exhausted u =>
      rw [hcons, Run.bind_of_exhausted hrun]
      exact .inr (.inr ⟨[], i, is, w, u, rfl, .nil w, hrun, rfl⟩)

end World

/-! ## What is declared -/

mutual

/-- Paths and names of the selected members of the frames among the members of a frame, nested ones
first. -/
def Member.namesBelow (select : Member → Option String) (path : String) :
    List Member → List (String × String)
  | [] => []
  | m :: ms => m.namesUp select path ++ Member.namesBelow select path ms

/-- Paths and names of the selected members of a frame at a path, with those of nested ones
first. -/
def Member.namesUp (select : Member → Option String) (path : String) :
    Member → List (String × String)
  | .property .. => []
  | .function .. => []
  | .frame name _ _ members => Member.namesBelow select (path ++ "." ++ name) members ++
    (members.filterMap select).map (path ++ "." ++ name, ·)

end

/-- Paths and names of the selected members of a frame and of the frames in it: nested frames come
first, in the order of their declaration, and so do the members of one frame. -/
def Frame.namesUp (select : Member → Option String) (path : String) (f : Frame) :
    List (String × String) :=
  Member.namesBelow select path f.members ++ (f.members.filterMap select).map (path, ·)

theorem Member.namesBelow_eq_flatMap (select : Member → Option String) (path : String)
    (ms : List Member) : Member.namesBelow select path ms
      = (ms.filterMap Member.frame?).flatMap fun f ↦
          f.namesUp select (path ++ "." ++ f.instanceName) := by
  induction ms with
  | nil => rfl
  | cons m ms ih =>
    rw [Member.namesBelow, ih]
    cases m <;> rfl

namespace World

variable {w w' : World} {o root : ObjectRef} {f : Frame}

/-- What the objects of a tree have is what the frame declares, from the children up. -/
theorem namesUp_eq {select : Member → Option String} {names : ObjectRef → List String}
    (h : w.IsTreeOf root f)
    (hnames : ∀ a, w.Below root a → names a = (w.object a).frame.members.filterMap select)
    {depth : Nat} (ho : w.Below root o) (hdepth : w.host.objects.size ≤ o.index + depth) :
    ((w.postorder depth o).flatMap fun a ↦ (names a).map ((w.object a).path, ·))
      = (w.object o).frame.namesUp select (w.object o).path := by
  have hsize := h.index_lt ho
  induction depth generalizing o with
  | zero => omega
  | succ depth ih =>
    have hplanted := h.planted o ho
    have hchild (c : ObjectRef) (hc : c ∈ (w.object o).children) :
        ((w.postorder depth c).flatMap fun a ↦ (names a).map ((w.object a).path, ·))
          = (w.object c).frame.namesUp select
              ((w.object o).path ++ "." ++ (w.object c).frame.instanceName) := by
      obtain ⟨hlt, hlt'⟩ := hplanted.newer c hc
      rw [ih (ho.tail hc) (by omega) hlt', hplanted.path c hc]
      rfl
    rw [postorder, List.flatMap_append, List.flatMap_singleton, List.flatMap_assoc, hnames o ho,
      Frame.namesUp, Member.namesBelow_eq_flatMap]
    congr 1
    change _ = (w.object o).frame.children.flatMap _
    rw [← hplanted.frames, List.flatMap_map]
    exact List.flatMap_congr hchild

/-! ## Compiled programs -/

/-- Components are nested like their objects. -/
theorem postorder_of_ofObjectWithin {registry : ComponentRegistry} {depth : Nat} {c : Component}
    (h : Component.ofObjectWithin registry w depth o = .ok c) :
    c.object = o ∧ c.postorder = w.postorder depth o := by
  induction depth generalizing o c with
  | zero => cases h
  | succ depth ih =>
    have hforest (os : List ObjectRef) (cs : List Component)
        (h : os.mapM (Component.ofObjectWithin registry w depth) = .ok cs) :
        Component.postorderForest cs = os.flatMap (w.postorder depth) := by
      induction os generalizing cs with
      | nil =>
        cases h
        rfl
      | cons a os ihos =>
        rw [List.mapM_cons] at h
        obtain ⟨d, hd, h⟩ := Except.bind_eq_ok.1 h
        obtain ⟨ds, hds, h⟩ := Except.bind_eq_ok.1 h
        cases h
        rw [Component.postorderForest, (ih hd).2, ihos ds hds, List.flatMap_cons]
    rw [Component.ofObjectWithin] at h
    dsimp only at h
    split at h
    · cases h
    · obtain ⟨cs, hcs, h⟩ := Except.bind_eq_ok.1 h
      cases h
      exact ⟨rfl, congrArg (· ++ [o]) (hforest _ cs hcs)⟩

namespace KeepsMembers

variable (hk : w.KeepsMembers w') (h : w.IsTreeOf root f)

include hk h

theorem below_iff : w'.Below root o ↔ w.Below root o := by
  have hchildren (a : ObjectRef) (ha : w.Below root a) :
      (w'.object a).children = (w.object a).children :=
    congrArg (fun p ↦ p.2.2.2) (hk.place (h.index_lt ha))
  constructor
  · intro ho
    induction ho with
    | refl => exact .refl
    | tail _ hc ih => exact ih.tail (by rwa [Child, hchildren _ ih] at hc)
  · intro ho
    induction ho with
    | refl => exact .refl
    | tail ha hc ih => exact ih.tail (by rwa [Child, hchildren _ ha])

theorem isTreeOf : w'.IsTreeOf root f where
  frame := (congrArg (fun p ↦ p.1) (hk.place h.size)).trans h.frame
  path := (congrArg (fun p ↦ p.2.1) (hk.place h.size)).trans h.path
  size := h.size.trans_le hk.size
  planted o ho := by
    have ho := (hk.below_iff h).1 ho
    exact (h.planted o ho).congr (h.index_lt ho) hk.size fun a _ ha ↦ hk.place ha

theorem postorder_eq {depth depth' : Nat} (ho : w.Below root o)
    (hdepth : w.host.objects.size ≤ o.index + depth)
    (hdepth' : w.host.objects.size ≤ o.index + depth') :
    w'.postorder depth' o = w.postorder depth o := by
  refine h.eq_of_depth (fun n n' a ha ih ↦ ?_) ho hdepth' hdepth
  have hchildren : (w'.object a).children = (w.object a).children :=
    congrArg (fun p ↦ p.2.2.2) (hk.place (h.index_lt ha))
  rw [postorder, postorder, hchildren]
  exact congrArg (· ++ [a]) (List.flatMap_congr ih)

end KeepsMembers

/-- What a compiled program consists of. -/
structure Compiled (w : World) (f : Frame) (program : Program) : Prop where
  tree : w.IsTreeOf program.root f
  enrolled : ∀ o, w.Below program.root o → w.Enrolled o
  listenerNames : ∀ o, w.Below program.root o →
    (w.object o).listenerNames = (w.object o).frame.members.filterMap Member.listener?
  object : program.component.object = program.root
  postorder : program.component.postorder = w.postorder w.treeDepth program.root

theorem Compiled.keepsMembers {program : Program} (h : w.Compiled f program)
    (hk : w.KeepsMembers w') : w'.Compiled f program where
  tree := hk.isTreeOf h.tree
  enrolled o ho := by
    have ho := (hk.below_iff h.tree).1 ho
    exact hk.enrolled (h.tree.index_lt ho) (h.enrolled o ho)
  listenerNames o ho := by
    have ho := (hk.below_iff h.tree).1 ho
    have hframe : (w'.object o).frame = (w.object o).frame :=
      congrArg (fun p ↦ p.1) (hk.place (h.tree.index_lt ho))
    rw [hk.listenerNames (h.tree.index_lt ho), hframe, h.listenerNames o ho]
  object := h.object
  postorder := by
    rw [h.postorder]
    exact (hk.postorder_eq h.tree .refl (w.size_le_add_treeDepth _)
      (hk.size.trans (w'.size_le_add_treeDepth _))).symm

/-- A program that has been compiled has what its frame declares. -/
theorem compiled_of_compile {registry : ComponentRegistry} {program : Program}
    (h : compile registry f w = .ok program w') : w'.Compiled f program := by
  obtain ⟨root, x, hobject, h⟩ := Run.bind_eq_ok.1 h
  obtain ⟨c, y, hcomponent, h⟩ := Run.bind_eq_ok.1 h
  obtain ⟨_, z, hglobal, h⟩ := Run.bind_eq_ok.1 h
  cases hglobal
  cases h
  obtain ⟨hcomponent, rfl⟩ : Component.ofObject registry x root = .ok c ∧ y = x := by
    cases hc : Component.ofObject registry x root with
    | error e =>
      simp only [hc, Except.mapError, Run.ofExcept, Run.fail] at hcomponent
      cases hcomponent
    | ok d =>
      simp only [hc, Except.mapError, Run.ofExcept, Run.pure] at hcomponent
      cases hcomponent
      exact ⟨rfl, rfl⟩
  obtain ⟨u, hbuild, hkept⟩ := exists_build_of_compileObject hobject
  obtain ⟨hroot, hfurnished⟩ := furnished_of_build hbuild
  have htree := isTreeOf_of_build hbuild
  obtain ⟨hobject, hpostorder⟩ := postorder_of_ofObjectWithin hcomponent
  have hy : y.Compiled f ⟨root, c⟩ := by
    refine ⟨hkept.isTreeOf htree, fun o ho ↦ ?_, fun o ho ↦ ?_, hobject, hpostorder⟩
    all_goals
      have ho := (hkept.below_iff htree).1 ho
      have hnew : w.host.objects.size ≤ o.index := hroot ▸ htree.index_le ho
    · exact hkept.enrolled (htree.index_lt ho) (enrolled_of_build hbuild hnew (htree.index_lt ho))
    · have hframe : (y.object o).frame = (u.object o).frame :=
        congrArg (fun p ↦ p.1) (hkept.place (htree.index_lt ho))
      rw [hkept.listenerNames (htree.index_lt ho), hframe]
      exact (hfurnished o hnew (htree.index_lt ho)).listenerNames
  exact hy.keepsMembers (.of_sameWiring (.of_objects rfl))

namespace Compiled

variable {program : Program} (h : w.Compiled f program)

include h

theorem initsUp_names :
    (w.initsUp program.component).map (fun i ↦ ((w.object i.object).path, i.name))
    = f.namesUp Member.init? f.instanceName := by
  have hnames := namesUp_eq h.tree h.enrolled .refl (w.size_le_add_treeDepth _)
  rw [h.tree.frame, h.tree.path] at hnames
  rw [← hnames, initsUp, h.postorder, List.map_flatMap]
  refine List.flatMap_congr fun o _ ↦ ?_
  rw [initsAt, ReactiveObject.initNames, List.map_map, List.map_map]
  rfl

theorem listenersUp_names : (w.listenersUp w.treeDepth program.root).map
    (fun y ↦ ((w.object y.1).path, y.2)) = f.namesUp Member.listener? f.instanceName := by
  have hnames := namesUp_eq h.tree h.listenerNames .refl (w.size_le_add_treeDepth _)
  rw [h.tree.frame, h.tree.path] at hnames
  rw [← hnames, listenersUp, List.map_flatMap]
  refine List.flatMap_congr fun o _ ↦ ?_
  rw [listenersAt, List.map_map]
  rfl

theorem index_lt_of_mem_initsUp {i : InitFunction} (hi : i ∈ w.initsUp program.component) :
    i.object.index < w.host.objects.size := by
  rw [initsUp, h.postorder] at hi
  obtain ⟨o, ho, hi⟩ := List.mem_flatMap.1 hi
  obtain ⟨init, -, rfl⟩ := List.mem_map.1 hi
  exact h.tree.index_lt ((h.tree.mem_postorder .refl (w.size_le_add_treeDepth _)).1 ho)

end Compiled

theorem forM_fire_ne_error {ε : Type} (l : List Place) (w : World) (e : ε) (w' : World) :
    (l.forM fun y ↦ fire y.1 y.2 : Effect ε Unit) w ≠ .error e w' := by
  induction l generalizing w e w' with
  | nil => exact nofun
  | cons y l ih =>
    exact bind_ne_error (fun w e w' ↦ reporting_ne_error _ w e w') (fun _ ↦ ih) w e w'

/-- A compiled program is executed in an order that its frame declares, whatever its functions do,
and whatever has happened to the values of its objects before. All init functions are called, with
nested frames first, and then all listeners are seeded; or an init function fails, its object and
name are reported, and what has happened until then stays; or the scripts do not come to an end. -/
theorem executes_in_order {registry : ComponentRegistry} {f : Frame} {program : Program}
    {w₀ w₁ w : World} (hcompile : compile registry f w₀ = .ok program w₁)
    (hw : w₁.KeepsMembers w) (argument : Option Value) :
    (w.initsUp program.component).map (fun i ↦ ((w.object i.object).path, i.name))
      = f.namesUp Member.init? f.instanceName ∧
    (w.listenersUp w.treeDepth program.root).map (fun y ↦ ((w.object y.1).path, y.2))
      = f.namesUp Member.listener? f.instanceName ∧
    ((∃ u, Initialized argument (w.initsUp program.component) (w.pinned argument.toList) u ∧
      execute argument program.component w
        = (((w.listenersUp w.treeDepth program.root).forM fun y ↦ fire y.1 y.2) u).mapState
            (fun w' ↦ { w' with pins := w.pins }) ∧
      ∀ e w', execute argument program.component w ≠ .error e w') ∨
    (∃ done i rest u e u', w.initsUp program.component = done ++ i :: rest ∧
      Initialized argument done (w.pinned argument.toList) u ∧ i.call argument u = .error e u' ∧
      execute argument program.component w
        = .error ⟨(w.object i.object).path, i.name, e⟩ { u' with pins := w.pins }) ∨
    ∃ done i rest u u', w.initsUp program.component = done ++ i :: rest ∧
      Initialized argument done (w.pinned argument.toList) u ∧ i.run argument u = .exhausted u' ∧
      execute argument program.component w = .exhausted { u' with pins := w.pins }) := by
  have h := (compiled_of_compile hcompile).keepsMembers hw
  refine ⟨h.initsUp_names, h.listenersUp_names, ?_⟩
  have hpinned : w.SameWiring (w.pinned argument.toList) := .of_objects rfl
  have hexecute : execute argument program.component w
      = (((w.initsUp program.component).forM (·.run argument) >>= fun _ ↦
          seedTree program.root) (w.pinned argument.toList)).mapState
            fun w' ↦ { w' with pins := w.pins } := by
    rw [← Run.bind_congr_left (runInitTree_eq_forM program.component hpinned), ← h.object]
    rfl
  rw [hexecute]
  obtain ⟨u, hrun, hinits⟩ | ⟨done, i, rest, u, e, u', hsplit, hdone, hcall, hrun⟩
    | ⟨done, i, rest, u, u', hsplit, hdone, hbound, hrun⟩ :=
      forM_run_cases (w := w.pinned argument.toList) argument
        fun i (hi : i ∈ w.initsUp program.component) ↦ h.index_lt_of_mem_initsUp hi
  · refine .inl ⟨u, hinits, ?_⟩
    have hforM : Run.Preserves w.SameWiring ((w.initsUp program.component).forM (·.run argument)) :=
      .forM fun i _ ↦ (writeClosed_sameWiring w).scriptClosed.runInit i.object argument _
    rw [Run.bind_of_ok hrun, seedTree_eq_forM_of_sameWiring (fun o ho ↦ (h.tree.planted o ho).newer)
      h.tree.size (hforM.of_ok hpinned hrun)]
    refine ⟨rfl, fun e w' herror ↦ ?_⟩
    obtain ⟨v, hseed, -⟩ := Outcome.mapState_eq_error.1 herror
    exact forM_fire_ne_error _ u e v hseed
  · refine .inr (.inl ⟨done, i, rest, u, e, u', hsplit, hdone, hcall, ?_⟩)
    rw [Run.bind_of_error hrun]
    rfl
  · refine .inr (.inr ⟨done, i, rest, u, u', hsplit, hdone, hbound, ?_⟩)
    rw [Run.bind_of_exhausted hrun]
    rfl

/-- A frame with four init functions, the third of which fails. -/
def failing : String :=
  "top: Object \x7b x: Bool true, a: Init(n) %\x7b return self.x; %\x7d, " ++
    "p: Object \x7b b: Init(n) %\x7b return n; %\x7d \x7d, c: Init %\x7b throw \"no\"; %\x7d, " ++
    "d: Init %\x7b return 1; %\x7d, l: Listner(v: self.x) -> Bool %\x7b return v; %\x7d \x7d"

theorem executes_in_order_failing : ∃ f program w e w',
    Frame.parse Table.empty failing = .ok f ∧
      compile ⟨["Object"], false⟩ f (World.create 256 16) = .ok program w ∧
      (w.initsUp program.component).map (fun i ↦ ((w.object i.object).path, i.name))
        = [("top.p", "b"), ("top", "a"), ("top", "c"), ("top", "d")] ∧
      execute (some (.bool false)) program.component w = .error e w' ∧
      e.object = "top" ∧ e.function = "c" ∧ w'.get? ⟨1⟩ "b" = some (.bool false) ∧
      w'.get? ⟨0⟩ "a" = some (.bool true) ∧ w'.get? ⟨0⟩ "d" = none ∧
      ∃ done i rest u, w.initsUp program.component = done ++ i :: rest ∧ i.name = "c" ∧
        Initialized (some (.bool false)) done (w.pinned [.bool false]) u := by
  have hrun : Except.okWith (fun f ↦
      f.namesUp Member.init? f.instanceName
          == [("top.p", "b"), ("top", "a"), ("top", "c"), ("top", "d")] &&
        (compile ⟨["Object"], false⟩ f (World.create 256 16)).okWith fun program w ↦
          (execute (some (.bool false)) program.component w).errorWith fun e w' ↦
            e.object == "top" && e.function == "c" && isBool false (w'.get? ⟨1⟩ "b") &&
              isBool true (w'.get? ⟨0⟩ "a") && (w'.get? ⟨0⟩ "d").isNone)
      (Frame.parse Table.empty failing) = true := by
    rw [Frame.parse_eq]
    delta failing
    repeat rewrite [String.toList_append]
    repeat rewrite [String.toList_ofList]
    decide +kernel
  obtain ⟨f, hparse, hrun⟩ := Except.exists_of_okWith hrun
  rw [Bool.and_eq_true, beq_iff_eq] at hrun
  obtain ⟨hnames, hrun⟩ := hrun
  obtain ⟨program, w, hcompile, hrun⟩ := Outcome.exists_of_okWith hrun
  obtain ⟨e, w', hexecute, hrun⟩ := Outcome.exists_of_errorWith hrun
  simp only [Bool.and_eq_true, beq_iff_eq, Option.isNone_iff_eq_none] at hrun
  obtain ⟨⟨⟨⟨hobject, hfunction⟩, hb⟩, ha⟩, hd⟩ := hrun
  obtain ⟨horder, -, ⟨u, -, -, hne⟩ | ⟨done, i, rest, u, e', u', hsplit, hdone, -, herror⟩
    | ⟨done, i, rest, u, u', -, -, -, hbound⟩⟩ :=
      executes_in_order hcompile (.refl w) (some (.bool false))
  · exact absurd hexecute (hne e w')
  · have he := hexecute.symm.trans herror
    injection he with he
    refine ⟨f, program, w, e, w', hparse, hcompile, horder.trans hnames, hexecute, hobject,
      hfunction, eq_of_isBool hb, eq_of_isBool ha, hd, done, i, rest, u, hsplit, ?_, hdone⟩
    rw [← hfunction, he]
  · rw [hexecute] at hbound
    cases hbound

end World

end ReactiveFrames
