import ReactiveFrames.Proofs.Reactive.Execution
import ReactiveFrames.Proofs.Reactive.Globals

/-!
# Components of a tree of objects

The objects of a compiled frame are a tree, and mapping it to components is a recursion over that
tree. Either each class has components, and then there is a component for each object, with the
children of the object in their order; or the recursion stops at the first object, parents before
children, whose class has none, and names the class. Children of a component are found by the names
of their objects, so a component finds the component of the child that its object finds.

A compile that fails while it maps objects has compiled them. It ends in the world that it has come
to by then, in which the root is no global variable.

## Main definitions

* `World.preorder`: objects of a tree, parents first.
* `FailsWith`: a step that fails with what was found, if anything was.
* `Component.Mirrors`: a tree of components that has the shape of a tree of objects.
* `World.Maps`: what mapping an object comes to.

## Main statements

* `World.IsTreeOf.maps`: it comes to this for each object of a tree.
* `World.components_mirror_objects`: and so for all programs that are compiled.
-/

namespace ReactiveFrames

open Relation (ReflTransGen)
open Script (Task)

/-! ## Lists of steps that may fail -/

section Lists

variable {α β γ ε : Type} {f : α → Except ε β}

/-- Results that tell what they come from. -/
theorem map_eq_of_mapM {g : β → α} {as : List α} {bs : List β} (h : as.mapM f = .ok bs)
    (hg : ∀ a ∈ as, ∀ b, f a = .ok b → g b = a) : bs.map g = as ∧ ∀ b ∈ bs, f (g b) = .ok b := by
  induction as generalizing bs with
  | nil =>
    cases h
    exact ⟨rfl, List.forall_mem_nil _⟩
  | cons a as ih =>
    obtain ⟨ha, has⟩ := List.forall_mem_cons.1 hg
    rw [List.mapM_cons] at h
    obtain ⟨b, hb, h⟩ := Except.bind_eq_ok.1 h
    obtain ⟨bs, hbs, h⟩ := Except.bind_eq_ok.1 h
    cases h
    obtain ⟨hmap, hsteps⟩ := ih hbs has
    rw [List.map_cons, hmap, ha b hb]
    refine ⟨rfl, List.forall_mem_cons.2 ⟨?_, hsteps⟩⟩
    rwa [ha b hb]

theorem mapM_congr {f' : α → Except ε β} {as : List α} (h : ∀ a ∈ as, f a = f' a) :
    as.mapM f = as.mapM f' := by
  induction as with
  | nil => rfl
  | cons a as ih =>
    obtain ⟨ha, has⟩ := List.forall_mem_cons.1 h
    rw [List.mapM_cons, List.mapM_cons, ha, ih has]

/-- The step fails with what was found, and not at all if nothing was. -/
def FailsWith {β : Type} (error : γ → ε) (x : Except ε β) : Option γ → Prop
  | none => ∃ b, x = .ok b
  | some c => x = .error (error c)

namespace FailsWith

variable {x : Except ε β} {error : γ → ε} {found : Option γ}

theorem exists_ok_iff (h : FailsWith error x found) : (∃ b, x = .ok b) ↔ found = none := by
  cases found with
  | none => exact iff_of_true h rfl
  | some c =>
    refine iff_of_false ?_ (Option.some_ne_none c)
    rintro ⟨b, rfl⟩
    cases h

theorem eq_error_iff (h : FailsWith error x found) {e : ε} :
    x = .error e ↔ ∃ c, found = some c ∧ error c = e := by
  cases found with
  | none =>
    obtain ⟨b, rfl⟩ := h
    simp
  | some c =>
    rw [show x = .error (error c) from h]
    simp

/-- Where each step fails with the first element of a list that passes a test, all steps one after
the other fail with the first one of all lists. -/
theorem mapM {g : α → List γ} {test : γ → Bool} {as : List α}
    (h : ∀ a ∈ as, FailsWith error (f a) ((g a).find? test)) :
    FailsWith error (as.mapM f) ((as.flatMap g).find? test) := by
  induction as with
  | nil => exact ⟨[], rfl⟩
  | cons a as ih =>
    obtain ⟨ha, has⟩ := List.forall_mem_cons.1 h
    have ih := ih has
    rw [List.flatMap_cons, List.find?_append, List.mapM_cons]
    cases hfirst : (g a).find? test with
    | some x =>
      rw [hfirst] at ha
      rw [show f a = _ from ha]
      rfl
    | none =>
      rw [hfirst] at ha
      obtain ⟨b, hb⟩ := ha
      rw [hb, Option.none_or]
      cases hrest : (as.flatMap g).find? test with
      | some x =>
        rw [hrest] at ih
        rw [show as.mapM f = _ from ih]
        rfl
      | none =>
        rw [hrest] at ih
        obtain ⟨bs, hbs⟩ := ih
        rw [hbs]
        exact ⟨b :: bs, rfl⟩

end FailsWith

end Lists

namespace ComponentRegistry

theorem allows_iff {r : ComponentRegistry} {className : String} :
    r.allows className = true ↔ r.openToAll = true ∨ className ∈ r.classes := by
  rw [allows, Bool.or_eq_true, List.contains_iff_mem]

end ComponentRegistry

/-! ## Trees of objects without a bound on their depth -/

namespace World

/-- An object and all below it, each before its children. -/
def preorder (w : World) (o : ObjectRef) : List ObjectRef := w.tree w.treeDepth o

namespace IsTreeOf

variable {w : World} {f : Frame} {root o a : ObjectRef} {registry : ComponentRegistry}
  (h : w.IsTreeOf root f)

include h

/-- What holds of an object if it holds of its children holds of all objects of a tree: children are
newer than their parents. -/
theorem induction_up {motive : ObjectRef → Prop}
    (step : ∀ o, w.Below root o → (∀ c, w.Child o c → motive c) → motive o)
    (ho : w.Below root o) : motive o := by
  obtain ⟨n, hn⟩ : ∃ n, w.host.objects.size ≤ o.index + n := ⟨w.host.objects.size, by omega⟩
  induction n generalizing o with
  | zero => exact absurd (h.index_lt ho) (by omega)
  | succ n ih =>
    refine step o ho fun c hc ↦ ih (ho.tail hc) ?_
    have hlt := ((h.planted o ho).newer c hc).1
    omega

theorem preorder_eq (ho : w.Below root o) :
    w.preorder o = o :: (w.object o).children.flatMap w.preorder := by
  refine congrArg (o :: ·) (List.flatMap_congr fun c hc ↦ ?_)
  obtain ⟨hlt, -⟩ := (h.planted o ho).newer c hc
  exact h.eq_of_depth (fun n n' o _ ih ↦ congrArg (o :: ·) (List.flatMap_congr ih)) (ho.tail hc)
    (by omega) (w.size_le_add_treeDepth _)

theorem mem_preorder (ho : w.Below root o) : a ∈ w.preorder o ↔ w.Below o a :=
  h.mem_tree ho (w.size_le_add_treeDepth _)

/-- Components of a tree are made without any bound on its depth. -/
theorem ofObject_eq (ho : w.Below root o) : Component.ofObject registry w o
    = if registry.allows (w.object o).className then
        (w.object o).children.mapM (Component.ofObject registry w) >>= fun cs ↦ .ok (.mk o cs)
      else .error (w.object o).className := by
  have hchildren : (w.object o).children.mapM
        (Component.ofObjectWithin registry w w.host.objects.size)
      = (w.object o).children.mapM (Component.ofObject registry w) := by
    refine mapM_congr fun c hc ↦ ?_
    obtain ⟨hlt, -⟩ := (h.planted o ho).newer c hc
    refine h.eq_of_depth (fun n n' o _ ih ↦ ?_) (ho.tail hc) (by omega) (by omega)
    rw [Component.ofObjectWithin, Component.ofObjectWithin, mapM_congr ih]
  rw [Component.ofObject, Component.ofObjectWithin, ← hchildren]
  cases registry.allows (w.object o).className <;> rfl

/-- The class of the first object for which there are no components decides what becomes of mapping
an object. -/
theorem failsWith_ofObject (registry : ComponentRegistry) (ho : w.Below root o) :
    FailsWith (fun a ↦ (w.object a).className) (Component.ofObject registry w o)
      ((w.preorder o).find? fun a ↦ !registry.allows (w.object a).className) := by
  refine h.induction_up (motive := fun o ↦ FailsWith (fun a ↦ (w.object a).className)
    (Component.ofObject registry w o)
      ((w.preorder o).find? fun a ↦ !registry.allows (w.object a).className)) (fun o ho ih ↦ ?_) ho
  -- The object itself comes first. If its class has components, the children decide.
  have hchildren := FailsWith.mapM ih
  rw [h.preorder_eq ho, h.ofObject_eq ho, List.find?_cons]
  cases hallows : registry.allows (w.object o).className with
  | false => rfl
  | true =>
    rw [if_pos rfl]
    cases hfirst : ((w.object o).children.flatMap w.preorder).find?
        fun a ↦ !registry.allows (w.object a).className with
    | none =>
      rw [hfirst] at hchildren
      obtain ⟨cs, hcs⟩ := hchildren
      rw [hcs]
      exact ⟨_, rfl⟩
    | some a =>
      rw [hfirst] at hchildren
      rw [show List.mapM _ _ = _ from hchildren]
      rfl

/-- The component of an object is one of the object. -/
theorem object_of_ofObject (ho : w.Below root o) {c : Component}
    (hc : Component.ofObject registry w o = .ok c) : c.object = o := by
  rw [h.ofObject_eq ho] at hc
  split_ifs at hc
  obtain ⟨cs, -, hc⟩ := Except.bind_eq_ok.1 hc
  cases hc
  rfl

/-- Its children are the components of the children. -/
theorem children_of_ofObject (ho : w.Below root o) {c : Component}
    (hc : Component.ofObject registry w o = .ok c) :
    c.children.map Component.object = (w.object o).children ∧
      ∀ d ∈ c.children, Component.ofObject registry w d.object = .ok d := by
  rw [h.ofObject_eq ho] at hc
  split_ifs at hc
  obtain ⟨cs, hcs, hc⟩ := Except.bind_eq_ok.1 hc
  cases hc
  exact map_eq_of_mapM hcs fun a ha d hd ↦ h.object_of_ofObject (ho.tail ha) hd

end IsTreeOf

end World

/-! ## Trees of components -/

/-- A component and all below it. -/
def Component.Contains : Component → Component → Prop := ReflTransGen fun c d ↦ d ∈ c.children

/-- The component is that of the object, and those below it are those of the objects below that. -/
structure Component.Mirrors (w : World) (registry : ComponentRegistry) (o : ObjectRef)
    (c : Component) : Prop where
  object : c.object = o
  /-- Each component is what becomes of its object. -/
  own : ∀ d, c.Contains d → Component.ofObject registry w d.object = .ok d
  /-- Components have as many children as their objects, in the same order. -/
  shape : ∀ d, c.Contains d → d.children.map Component.object = (w.object d.object).children
  /-- The objects of the components are those of the tree. -/
  objects : ∀ a, w.Below o a ↔ ∃ d, c.Contains d ∧ d.object = a
  /-- Under a name a component has the component of the child that its object has. -/
  child : ∀ d, c.Contains d → ∀ name, (d.child? w name).map Component.object
    = w.child? d.object name

/-- The names that lead to a component lead to its object. -/
theorem Component.Mirrors.map_search? {w : World} {registry : ComponentRegistry} {o : ObjectRef}
    {c d : Component} (h : c.Mirrors w registry o) (hd : c.Contains d) (names : List String) :
    (d.search? w names).map Component.object = w.walk? d.object names := by
  induction names generalizing d with
  | nil => rfl
  | cons name names ih =>
    rw [search?, World.walk?, ← h.child d hd name]
    cases hchild : d.child? w name with
    | none => rfl
    | some e => exact ih (hd.tail (List.mem_of_find?_eq_some hchild))

namespace World

variable {w : World} {f : Frame} {root o : ObjectRef} {registry : ComponentRegistry}

theorem IsTreeOf.mirrors (h : w.IsTreeOf root f) (ho : w.Below root o) {c : Component}
    (hc : Component.ofObject registry w o = .ok c) : c.Mirrors w registry o := by
  have hobject := h.object_of_ofObject ho hc
  have hown (d : Component) (hd : c.Contains d) :
      w.Below o d.object ∧ Component.ofObject registry w d.object = .ok d := by
    induction hd with
    | refl => exact hobject.symm ▸ ⟨.refl, hc⟩
    | @tail d e _ he ih =>
      -- A component below is that of its own object, so its children are too.
      obtain ⟨hd, hdc⟩ := ih
      obtain ⟨hshape, hchildren⟩ := h.children_of_ofObject (ho.trans hd) hdc
      have hchild : w.Child d.object e.object := by
        rw [Child, ← hshape]
        exact List.mem_map_of_mem he
      exact ⟨hd.tail hchild, hchildren e he⟩
  have hshape (d : Component) (hd : c.Contains d) :
      d.children.map Component.object = (w.object d.object).children :=
    (h.children_of_ofObject (ho.trans (hown d hd).1) (hown d hd).2).1
  refine ⟨hobject, fun d hd ↦ (hown d hd).2, hshape, fun a ↦ ⟨fun ha ↦ ?_, ?_⟩, fun d hd name ↦ ?_⟩
  · induction ha with
    | refl => exact ⟨c, .refl, hobject⟩
    | tail _ ha ih =>
      obtain ⟨d, hd, rfl⟩ := ih
      rw [Child, ← hshape d hd] at ha
      obtain ⟨e, he, rfl⟩ := List.mem_map.1 ha
      exact ⟨e, hd.tail he, rfl⟩
  · rintro ⟨d, hd, rfl⟩
    exact (hown d hd).1
  · rw [child?, ← hshape d hd, List.find?_map]
    rfl

/-- What mapping an object and all below it to components comes to. -/
structure Maps (w : World) (registry : ComponentRegistry) (o : ObjectRef) : Prop where
  /-- Objects come before their children, -/
  preorder : w.preorder o = o :: (w.object o).children.flatMap w.preorder
  /-- and all objects come up. -/
  members : ∀ a, a ∈ w.preorder o ↔ w.Below o a
  /-- There are components if and only if all classes have some. -/
  succeeds : (∃ c, Component.ofObject registry w o = .ok c) ↔
    registry.openToAll = true ∨ ∀ a, w.Below o a → (w.object a).className ∈ registry.classes
  /-- Else the class of the first object without components is reported. -/
  fails : ∀ name, Component.ofObject registry w o = .error name ↔
    ∃ a, (w.preorder o).find? (fun a ↦ !registry.allows (w.object a).className) = some a ∧
      (w.object a).className = name
  mirrors : ∀ c, Component.ofObject registry w o = .ok c → c.Mirrors w registry o

theorem IsTreeOf.maps (h : w.IsTreeOf root f) (registry : ComponentRegistry) (ho : w.Below root o) :
    w.Maps registry o := by
  have hcases := h.failsWith_ofObject registry ho
  have hnone : ((w.preorder o).find? fun a ↦ !registry.allows (w.object a).className) = none ↔
      registry.openToAll = true ∨ ∀ a, w.Below o a → (w.object a).className ∈ registry.classes := by
    rw [List.find?_eq_none, ← forall_or_left]
    refine forall_congr' fun a ↦ ?_
    rw [h.mem_preorder ho, Bool.not_eq_true, Bool.not_eq_false', ComponentRegistry.allows_iff]
    tauto
  exact ⟨h.preorder_eq ho, fun a ↦ h.mem_preorder ho, hcases.exists_ok_iff.trans hnone,
    fun name ↦ hcases.eq_error_iff, fun c ↦ h.mirrors ho⟩

/-- Objects that stay in their places have the same components. -/
theorem KeepsMembers.ofObject_eq {w' : World} (hk : w.KeepsMembers w') (h : w.IsTreeOf root f)
    (ho : w.Below root o) :
    Component.ofObject registry w' o = Component.ofObject registry w o := by
  refine h.induction_up (motive := fun o ↦
    Component.ofObject registry w' o = Component.ofObject registry w o) (fun o ho ih ↦ ?_) ho
  have hplace := hk.place (h.index_lt ho)
  have hclass : (w'.object o).className = (w.object o).className :=
    congrArg (fun p ↦ p.1.className) hplace
  have hchildren : (w'.object o).children = (w.object o).children :=
    congrArg (fun p ↦ p.2.2.2) hplace
  rw [(hk.isTreeOf h).ofObject_eq ((hk.below_iff h).2 ho), h.ofObject_eq ho, hclass, hchildren,
    mapM_congr ih]

/-! ## Compiled programs -/

/-- Mapping the root is the last thing in a compile that can fail. -/
theorem compile_of_compileObject {w u : World} {registry : ComponentRegistry}
    (h : compileObject f w = .ok root u) : compile registry f w
      = match Component.ofObject registry u root with
        | .error name => .error (.unknownClass name) u
        | .ok c => .ok ⟨root, c⟩
            (u.mapHeap (·.bindGlobal f.instanceName (u.toValue root))) := by
  rw [compile, Run.bind_of_ok h]
  change Run.bind _ _ u = _
  unfold Run.bind
  dsimp only
  cases Component.ofObject registry u root <;> rfl

/-- When a frame has been compiled, and whatever happens to the values of its objects afterwards,
mapping an object of it to components succeeds if and only if all classes have some, and else fails
with the class of the first object that has none; and the components mirror the objects. If the root
cannot be mapped, the compile fails in the world that it has come to by then, in which the root is
no global variable: if no code names a variable of its name, that one has the value it had before.
-/
theorem components_mirror_objects {w u : World} (hcompile : compileObject f w = .ok root u)
    (registry : ComponentRegistry) :
    (∀ v, u.KeepsMembers v → ∀ o, u.Below root o →
      v.Maps registry o ∧ Component.ofObject registry v o = Component.ofObject registry u o) ∧
    (∀ c, Component.ofObject registry u root = .ok c → ∃ u',
      compile registry f w = .ok ⟨root, c⟩ u' ∧ u.KeepsMembers u' ∧
        u'.heap.binding none f.instanceName = some (u.toValue root)) ∧
    ∀ name, Component.ofObject registry u root = .error name →
      compile registry f w = .error (.unknownClass name) u ∧
        ((w.heap.Sound fun s ↦ s.name ≠ f.instanceName) →
          (∀ source ∈ f.programs, ∀ s ∈ (Task.program source).sites, s.name ≠ f.instanceName) →
            u.heap.binding none f.instanceName = w.heap.binding none f.instanceName) := by
  obtain ⟨u₀, hbuild, hkept⟩ := exists_build_of_compileObject hcompile
  have htree := hkept.isTreeOf (isTreeOf_of_build hbuild)
  refine ⟨fun v hv o ho ↦ ⟨(hv.isTreeOf htree).maps registry ((hv.below_iff htree).2 ho),
    hv.ofObject_eq htree ho⟩, fun c hc ↦ ?_, fun name hname ↦ ⟨?_, fun hw hs ↦
      binding_of_compileObject hw hs hcompile⟩⟩
  · rw [compile_of_compileObject hcompile, hc]
    exact ⟨_, rfl, .of_sameWiring (.of_objects rfl),
      (u.heap.binding_bindGlobal _ _ none _).trans (if_pos ⟨rfl, rfl⟩)⟩
  · rw [compile_of_compileObject hcompile, hname]

/-- A frame with a function and a nested frame of another class. -/
def boxed : String :=
  "top: Object \x7b x: Int 1, f: Func(a) %\x7b return a; %\x7d, sub: Box \x7b y: Int 2 \x7d \x7d"

theorem components_mirror_objects_boxed : ∃ f root u,
    Frame.parse Table.empty boxed = .ok f ∧
      compileObject f (World.create 256 16) = .ok root u ∧
      u.Maps ⟨["Object"], false⟩ root ∧ u.Maps ⟨[], true⟩ root ∧
      compile ⟨["Object"], false⟩ f (World.create 256 16) = .error (.unknownClass "Box") u ∧
      u.heap.binding none "top" = none ∧
      ∃ c u', compile ⟨[], true⟩ f (World.create 256 16) = .ok ⟨root, c⟩ u' ∧
        u'.heap.binding none "top" = some (u.toValue root) := by
  have hrun : Except.okWith (fun f ↦ f.instanceName == "top" &&
      f.programs.all (fun source ↦ (Task.program source).sites.all (·.name != "top")) &&
      (compileObject f (World.create 256 16)).okWith fun root u ↦
        Except.errorWith (· == "Box") (Component.ofObject ⟨["Object"], false⟩ u root) &&
          Except.okWith (fun _ ↦ true) (Component.ofObject ⟨[], true⟩ u root))
      (Frame.parse Table.empty boxed) = true := by
    rw [Frame.parse_eq]
    delta boxed
    rewrite [String.toList_ofList]
    decide +kernel
  obtain ⟨f, hparse, hrun⟩ := Except.exists_of_okWith hrun
  simp only [Bool.and_eq_true, beq_iff_eq] at hrun
  obtain ⟨⟨hname, hsites⟩, hrun⟩ := hrun
  obtain ⟨root, u, hcompile, hrun⟩ := Outcome.exists_of_okWith hrun
  rw [Bool.and_eq_true] at hrun
  obtain ⟨hunknown, hknown⟩ := hrun
  obtain ⟨name, hbox, heq⟩ := Except.exists_of_errorWith hunknown
  obtain ⟨c, hc, -⟩ := Except.exists_of_okWith hknown
  obtain ⟨hmaps, -, hfails⟩ := components_mirror_objects hcompile ⟨["Object"], false⟩
  obtain ⟨hmaps', hsucceeds, -⟩ := components_mirror_objects hcompile ⟨[], true⟩
  obtain ⟨hfailure, hunset⟩ := hfails name hbox
  obtain ⟨u', hsuccess, -, hset⟩ := hsucceeds c hc
  rw [hname] at hunset hset
  have hsites' : ∀ source ∈ f.programs, ∀ s ∈ (Task.program source).sites, s.name ≠ "top" := by
    simpa using hsites
  exact ⟨f, root, u, hparse, hcompile, (hmaps u (.refl u) root .refl).1,
    (hmaps' u (.refl u) root .refl).1, beq_iff_eq.1 heq ▸ hfailure,
    hunset (fun n c hc ↦ by cases hc) hsites', c, u', hsuccess, hset⟩

end World

end ReactiveFrames
