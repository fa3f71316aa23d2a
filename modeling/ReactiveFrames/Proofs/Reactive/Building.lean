import ReactiveFrames.Proofs.Reactive.Propagation
import ReactiveFrames.Proofs.Reactive.Reachable

/-!
# Objects of a frame

Building a frame makes objects and nests them. The objects have no observers yet, so the scripts
that are evaluated meanwhile cannot run a listener. Afterwards every object is kept, the objects
form a tree below the root in which children have higher numbers than their parents, and no listener
has the name of an init function (`World.Unlinked`). Resolving leaves this as it is, and binds
arguments to objects that exist.
-/

open Filter

namespace ReactiveFrames

open Script (Value Host)
open Relation (ReflTransGen)

/-! ## The passes of compiling -/

section Passes

variable {o root : ObjectRef} {path name className : String} {n n' line : Nat} {f : Frame}
  {w w' : World}

/-- A property that is built is recorded, and its literal is stored. -/
theorem exists_record_of_property {type : PropertyType} {value : Literal}
    (h : buildMember o path n (.property name line type value) w = .ok n' w') :
    ∃ u, recordMember o path name w = .ok () u ∧ storeLiteral o name value u = w' := by
  obtain ⟨_, u, hrecord, h⟩ := Run.bind_eq_ok.1 h
  cases h
  exact ⟨u, hrecord, rfl⟩

/-- A function that is built is recorded, its script is evaluated, and what that yields is stored.
-/
theorem exists_record_of_function {f : Function}
    (h : buildMember o path n (.function name line f) w = .ok n' w') :
    ∃ u callable v, recordMember o path name w = .ok () u ∧
      compileFunction path name f n u = .ok callable v ∧
      storeFunction o name f callable v = w' := by
  obtain ⟨_, u, hrecord, h⟩ := Run.bind_eq_ok.1 h
  obtain ⟨callable, v, hcompile, h⟩ := Run.bind_eq_ok.1 h
  cases h
  exact ⟨u, callable, v, hrecord, hcompile, rfl⟩

/-- A frame that is built is recorded, gets an object of its own, in which its members are built,
and is a child from then on. -/
theorem exists_record_of_frame {members : List Member}
    (h : buildMember o path n (.frame name line className members) w = .ok n' w') :
    ∃ u v, recordMember o path name w = .ok () u ∧
      let added := World.addObject (.ofFrame ⟨className, name, members⟩ (path ++ "." ++ name)) u
      buildMembers added.1 (path ++ "." ++ name) n members added.2 = .ok n' v ∧
        World.addChild o added.1 v = w' := by
  obtain ⟨_, u, hrecord, h⟩ := Run.bind_eq_ok.1 h
  obtain ⟨child, _, hadd, h⟩ := Run.bind_eq_ok.1 h
  cases hadd
  obtain ⟨k, v, hmembers, hparent⟩ := Run.bind_eq_ok.1 h
  cases hparent
  exact ⟨u, v, hrecord, hmembers, rfl⟩

/-- The members of a frame are built in its object. -/
theorem exists_members_of_build (h : build f w = .ok root w') :
    root = (World.addObject (.ofFrame f f.instanceName) w).1 ∧
      ∃ n, buildMembers root f.instanceName 0 f.members
        (World.addObject (.ofFrame f f.instanceName) w).2 = .ok n w' := by
  obtain ⟨_, u, hadd, h⟩ := Run.bind_eq_ok.1 h
  obtain ⟨n, v, hmembers, hroot⟩ := Run.bind_eq_ok.1 h
  cases hadd
  cases hroot
  exact ⟨rfl, n, hmembers⟩

/-- A frame that is assembled is built, its listener arguments are resolved, and its listeners are
linked. -/
theorem exists_build_of_assemble (h : assemble f w = .ok root w') :
    ∃ u v, build f w = .ok root u ∧
      resolve (collectPaths u u.treeDepth root Table.empty) u.treeDepth root u = .ok () v ∧
      (World.linkTree root : Effect CompileError Unit) v = .ok () w' := by
  obtain ⟨root', u, hbuild, h⟩ := Run.bind_eq_ok.1 h
  obtain ⟨_, _, hstate, h⟩ := Run.bind_eq_ok.1 h
  cases hstate
  obtain ⟨_, v, hresolve, h⟩ := Run.bind_eq_ok.1 h
  obtain ⟨_, _, hlink, hroot⟩ := Run.bind_eq_ok.1 h
  cases hroot
  exact ⟨u, v, hbuild, hresolve, hlink⟩

/-- A frame that is compiled is assembled, and its listeners are run once. -/
theorem exists_assemble_of_compileObject (h : compileObject f w = .ok root w') :
    ∃ u, assemble f w = .ok root u ∧
      (World.seedTree root : Effect CompileError Unit) u = .ok () w' := by
  obtain ⟨root', u, hassemble, h⟩ := Run.bind_eq_ok.1 h
  obtain ⟨_, _, hseed, hroot⟩ := Run.bind_eq_ok.1 h
  cases hroot
  exact ⟨u, hassemble, hseed⟩

end Passes

/-! ## Objects of a tree -/

/-- Objects are told apart by their numbers. -/
theorem ObjectRef.eq_of_index {a b : ObjectRef} (h : a.index = b.index) : a = b := by
  cases a
  cases b
  exact congrArg ObjectRef.mk h

/-- No name is the name of two functions of an object that are listeners or init functions. -/
structure ReactiveObject.NamesApart (o : ReactiveObject) : Prop where
  listeners : ∀ name ∈ o.listenerNames, name ∈ o.memberNames
  inits : ∀ init ∈ o.inits, init.1 ∈ o.memberNames ∧ init.1 ∉ o.listenerNames

theorem ReactiveObject.NamesApart.of_nil {o : ReactiveObject} (hlisteners : o.listenerNames = [])
    (hinits : o.inits = []) : o.NamesApart where
  listeners _ h := absurd (hlisteners ▸ h) List.not_mem_nil
  inits _ h := absurd (hinits ▸ h) List.not_mem_nil

namespace World

/-- The object `c` is right below `o`. -/
def Child (w : World) (o c : ObjectRef) : Prop := c ∈ (w.object o).children

/-- The object is `o` or below it. -/
abbrev Below (w : World) : ObjectRef → ObjectRef → Prop := ReflTransGen w.Child

/-- A world whose objects are kept, and whose children are younger than their parents, before any
listener is linked. -/
structure Unlinked (w : World) : Prop where
  held : ∀ o : ObjectRef, o.index < w.host.objects.size → o ∈ w.host.held
  children : ∀ o c, w.Child o c → o.index < c.index ∧ c.index < w.host.objects.size
  names : ∀ o, (w.object o).NamesApart
  target : ∀ o name ps, (w.object o).pointers.find? name = some ps →
    ∀ q ∈ ps, q.object.index < w.host.objects.size
  unobserved : ∀ o p, (w.object o).observersOf p = []
  unguarded : ∀ o, (w.object o).notifying = []
  noCycle : w.NoCycle

/-- Between two worlds no object has lost a child, and the new objects are below `o`. -/
structure Sprouts (o : ObjectRef) (w w' : World) : Prop where
  size : w.host.objects.size ≤ w'.host.objects.size
  child : ∀ a c, w.Child a c → w'.Child a c
  below : ∀ a : ObjectRef, w.host.objects.size ≤ a.index → a.index < w'.host.objects.size →
    w'.Below o a

namespace Sprouts

variable {o c : ObjectRef} {w w' w'' : World}

/-- No object is new. -/
theorem of_children (hsize : w'.host.objects.size = w.host.objects.size)
    (hchildren : ∀ a, (w'.object a).children = (w.object a).children) : Sprouts o w w' where
  size := hsize.ge
  child a c h := by rwa [Child, hchildren]
  below _ h h' := absurd (h.trans_lt h') (by omega)

theorem modify (w : World) (o a : ObjectRef) {f : ReactiveObject → ReactiveObject}
    (hf : (f (w.object a)).children = (w.object a).children) : Sprouts o w (w.modify a f) := by
  refine .of_children (w.size_modify a f) fun b ↦ ?_
  rw [object_modify]
  split_ifs with hb
  · rw [hb.1, hf]
  · rfl

protected theorem trans (h₁ : Sprouts o w w') (h₂ : Sprouts o w' w'') : Sprouts o w w'' where
  size := h₁.size.trans h₂.size
  child a c h := h₂.child a c (h₁.child a c h)
  below a h h' := by
    by_cases ha : a.index < w'.host.objects.size
    · exact ReflTransGen.mono h₂.child _ _ (h₁.below a h ha)
    · exact h₂.below a (Nat.le_of_not_lt ha) h'

end Sprouts

/-! ## Changes of an object -/

namespace Unlinked

variable {w w' : World}

/-- Nothing of interest has changed but the names of members and what arguments are bound to. -/
theorem congr (h : w.Unlinked) (hsize : w'.host.objects.size = w.host.objects.size)
    (hheld : w'.host.held = w.host.held)
    (hchildren : ∀ o, (w'.object o).children = (w.object o).children)
    (hnames : ∀ o, (w'.object o).NamesApart)
    (htarget : ∀ o name ps, (w'.object o).pointers.find? name = some ps →
      ∀ q ∈ ps, q.object.index < w.host.objects.size)
    (hobservers : ∀ o, (w'.object o).observers = (w.object o).observers)
    (hnotifying : ∀ o, (w'.object o).notifying = (w.object o).notifying) (hcycle : w'.NoCycle) :
    w'.Unlinked where
  held o ho := by
    rw [hheld]
    exact h.held o (hsize ▸ ho)
  children o c hc := by
    rw [hsize]
    rw [Child, hchildren] at hc
    exact h.children o c hc
  names := hnames
  target o name ps hps q hq := hsize ▸ htarget o name ps hps q hq
  unobserved o p := by
    rw [ReactiveObject.observersOf, hobservers]
    exact h.unobserved o p
  unguarded o := (hnotifying o).trans (h.unguarded o)
  noCycle := hcycle

/-- Scripts and writes preserve it, as long as no cycle is reported. -/
theorem keeps (h : w.Unlinked) (hk : w.Keeps w') (hcycle : w'.NoCycle) : w'.Unlinked := by
  have field {α : Type} (f : ReactiveObject → α) (hf : ∀ x : ReactiveObject, f x.wiring = f x)
      (o : ObjectRef) : f (w'.object o) = f (w.object o) := by
    rw [← hf, hk.wiring, hf]
  refine h.congr hk.size hk.held (field _ fun _ ↦ rfl) (fun o ↦ ?_) (fun o name ps hps ↦ ?_)
    (field _ fun _ ↦ rfl) hk.notifying hcycle
  · have hnames : (w.object o).wiring.NamesApart := ⟨(h.names o).listeners, (h.names o).inits⟩
    rw [← hk.wiring] at hnames
    exact ⟨hnames.listeners, hnames.inits⟩
  · rw [field (fun x ↦ x.pointers) (fun _ ↦ rfl)] at hps
    exact h.target o name ps hps

/-- An object whose place in the tree and whose observers stay the same. -/
theorem modify (h : w.Unlinked) (o : ObjectRef) {f : ReactiveObject → ReactiveObject}
    (hchildren : (f (w.object o)).children = (w.object o).children)
    (hnames : (f (w.object o)).NamesApart)
    (htarget : ∀ name ps, (f (w.object o)).pointers.find? name = some ps →
      ∀ q ∈ ps, q.object.index < w.host.objects.size)
    (hobservers : (f (w.object o)).observers = (w.object o).observers)
    (hnotifying : (f (w.object o)).notifying = (w.object o).notifying) :
    (w.modify o f).Unlinked := by
  refine h.congr (w.size_modify o f) rfl (fun a ↦ ?_) (fun a ↦ ?_) (fun a ↦ ?_) (fun a ↦ ?_)
    (fun a ↦ ?_) (h.noCycle.congr rfl rfl)
  all_goals rw [object_modify]; split_ifs with ha
  · rw [ha.1, hchildren]
  · rfl
  · rwa [ha.1]
  · exact h.names a
  · rwa [ha.1]
  · exact h.target a
  · rw [ha.1, hobservers]
  · rfl
  · rw [ha.1, hnotifying]
  · rfl

theorem define (h : w.Unlinked) (o : ObjectRef) (p : String) (v : Value) :
    (w.define o p v).Unlinked :=
  h.keeps (.define w (by rw [h.unguarded]; exact List.not_mem_nil) v) (h.noCycle.congr rfl rfl)

/-- A heap with other data. -/
theorem withHeap (h : w.Unlinked) (heap : Script.Heap) : Unlinked { w with heap := heap } :=
  h.congr rfl rfl (fun _ ↦ rfl) h.names h.target (fun _ ↦ rfl) (fun _ ↦ rfl)
    (h.noCycle.congr rfl rfl)

end Unlinked

/-! ## New objects -/

section Objects

variable {w : World} {f : Frame} {path : String}

theorem object_addObject (o : ObjectRef) :
    (addObject (.ofFrame f path) w).2.object o
      = if o.index = w.host.objects.size then .ofFrame f path else w.object o := by
  change ((w.host.objects.push (.ofFrame f path))[o.index]?).getD default = _
  rw [Array.getElem?_push]
  split_ifs <;> rfl

theorem size_addObject :
    (addObject (.ofFrame f path) w).2.host.objects.size = w.host.objects.size + 1 :=
  Array.size_push _

theorem lt_size_addObject :
    (addObject (.ofFrame f path) w).1.index
      < (addObject (.ofFrame f path) w).2.host.objects.size :=
  size_addObject.symm ▸ Nat.lt_succ_self _

/-- An object that was there before stays as it is when another one is added. -/
theorem addObject_of_lt (f : Frame) (path : String) {a : ObjectRef}
    (ha : a.index < w.host.objects.size) :
    a ≠ (addObject (.ofFrame f path) w).1 ∧
      a.index < (addObject (.ofFrame f path) w).2.host.objects.size ∧
      (addObject (.ofFrame f path) w).2.object a = w.object a := by
  refine ⟨?_, ha.trans lt_size_addObject, (object_addObject a).trans (if_neg ha.ne)⟩
  rintro rfl
  exact ha.false

/-- An object that was not there before is the one that is added, or is added after it. -/
theorem eq_or_size_addObject_le (f : Frame) (path : String) {a : ObjectRef}
    (ha : w.host.objects.size ≤ a.index) :
    a = (addObject (.ofFrame f path) w).1 ∨
      (addObject (.ofFrame f path) w).2.host.objects.size ≤ a.index := by
  rcases Nat.eq_or_lt_of_le ha with heq | hlt
  · exact .inl (ObjectRef.eq_of_index heq.symm)
  · exact .inr (size_addObject.symm ▸ hlt)

theorem Unlinked.addObject (h : w.Unlinked) : (World.addObject (.ofFrame f path) w).2.Unlinked where
  held o ho := by
    rw [size_addObject] at ho
    change o ∈ ⟨w.host.objects.size⟩ :: w.host.held
    rcases Nat.lt_succ_iff_lt_or_eq.1 ho with ho | ho
    · exact List.mem_cons_of_mem _ (h.held o ho)
    · exact List.mem_cons.2 (.inl (ObjectRef.eq_of_index ho))
  children o c hc := by
    rw [Child, object_addObject] at hc
    rw [size_addObject]
    split_ifs at hc
    · exact absurd hc List.not_mem_nil
    · exact ⟨(h.children o c hc).1, (h.children o c hc).2.trans (Nat.lt_succ_self _)⟩
  names o := by
    rw [object_addObject]
    split_ifs
    · exact .of_nil rfl rfl
    · exact h.names o
  target o name ps hps q hq := by
    rw [object_addObject] at hps
    rw [size_addObject]
    split_ifs at hps
    · cases hps
    · exact (h.target o name ps hps q hq).trans (Nat.lt_succ_self _)
  unobserved o p := by
    rw [object_addObject]
    split_ifs
    · rfl
    · exact h.unobserved o p
  unguarded o := by
    rw [object_addObject]
    split_ifs
    · rfl
    · exact h.unguarded o
  noCycle := h.noCycle.congr rfl rfl

/-- The new object is the only new one, and has no children yet. -/
theorem child_addObject {a c : ObjectRef} (h : w.Unlinked) (hc : w.Child a c) :
    (addObject (.ofFrame f path) w).2.Child a c := by
  have ha : a.index < w.host.objects.size := (h.children a c hc).1.trans (h.children a c hc).2
  rw [Child, object_addObject, if_neg ha.ne]
  exact hc

theorem object_addChild {parent child : ObjectRef} (hparent : parent.index < w.host.objects.size)
    (o : ObjectRef) : (w.addChild parent child).object o
      = if o = parent then
          { (w.object o).define (w.object child).instanceName (w.toValue child) with
            children := (w.object o).children ++ [child] }
        else w.object o := by
  rw [addChild, object_modify, define, size_modify, object_modify]
  split_ifs with ho ho' ho'
  · rfl
  · exact absurd ho.1 ho'
  · exact absurd ⟨ho', hparent⟩ ho
  · rfl

theorem size_addChild {parent child : ObjectRef} :
    (w.addChild parent child).host.objects.size = w.host.objects.size := by
  rw [World.addChild, size_modify, World.define, size_modify]

theorem child_addChild {parent child a c : ObjectRef}
    (hparent : parent.index < w.host.objects.size) :
    (w.addChild parent child).Child a c ↔ w.Child a c ∨ a = parent ∧ c = child := by
  rw [Child, object_addChild hparent, Child]
  split_ifs with ha
  · rw [List.mem_append, List.mem_singleton]
    exact or_congr_right ⟨fun hc ↦ ⟨ha, hc⟩, fun hc ↦ hc.2⟩
  · exact ⟨.inl, fun hc ↦ hc.resolve_right fun hand ↦ ha hand.1⟩

theorem Unlinked.addChild (h : w.Unlinked) {parent child : ObjectRef}
    (hlt : parent.index < child.index) (hchild : child.index < w.host.objects.size) :
    (w.addChild parent child).Unlinked := by
  have hparent := hlt.trans hchild
  have hsize : (w.addChild parent child).host.objects.size = w.host.objects.size := size_addChild
  have hobject (o : ObjectRef) : ∃ table children, (w.addChild parent child).object o
      = { w.object o with properties := table, children := children } := by
    rw [object_addChild hparent]
    split_ifs
    · exact ⟨_, _, rfl⟩
    · exact ⟨_, _, rfl⟩
  refine ⟨fun o ho ↦ h.held o (hsize ▸ ho), fun o c hc ↦ ?_, fun o ↦ ?_, fun o name ps hps ↦ ?_,
    fun o p ↦ ?_, fun o ↦ ?_, h.noCycle.congr rfl rfl⟩
  · rw [hsize]
    rcases (child_addChild hparent).1 hc with hc | ⟨rfl, rfl⟩
    · exact h.children o c hc
    · exact ⟨hlt, hchild⟩
  all_goals obtain ⟨table, children, heq⟩ := hobject o
  · rw [heq]
    exact ⟨(h.names o).listeners, (h.names o).inits⟩
  · rw [heq] at hps
    rw [hsize]
    exact h.target o name ps hps
  · rw [heq]
    exact h.unobserved o p
  · rw [heq]
    exact h.unguarded o

end Objects

/-! ## Building -/

section Build

/-- Scripts that are evaluated while nothing is observed change values only. -/
theorem Unlinked.preserves_evaluate {w : World} (h : w.Unlinked) (source : String) :
    Run.Preserves w.Calm (World.evaluate source) := by
  have hwrite (o : ObjectRef) (p : String) (v : Value) :
      Run.Preserves w.Calm (reporting (World.set o p v) : Effect Script.ScriptError Unit) := by
    refine .of_preserves fun u hu ↦ ?_
    have hunlinked := h.keeps hu.1 hu.2
    have hp : p ∉ (u.object o).notifying := by
      rw [hunlinked.unguarded]
      exact List.not_mem_nil
    have hset : World.set o p v u = .ok () (u.define o p v) :=
      setWith_of_unobserved hp (hunlinked.unobserved o p)
    unfold reporting
    rw [hset]
    exact ⟨hu.1.trans (.define u hp v), hu.2.congr rfl rfl⟩
  exact Script.tracks_evaluate (Calm.growthClosed w) (Calm.tracks_host (a := World.access) hwrite)
    (.of_forall fun _ ↦ le_rfl) source

theorem Unlinked.calm_of_compileFunction {w w' : World} (h : w.Unlinked) {path name : String}
    {f : Function} {n : Nat} {callable : Value}
    (hrun : compileFunction path name f n w = .ok callable w') : w.Calm w' :=
  (preserves_compileFunction (Calm.growthClosed w).failures h.preserves_evaluate
    path name f n).of_ok
    ⟨.refl w, h.noCycle⟩ hrun

theorem recordMember_eq_ok {o : ObjectRef} {path name : String} {w w' : World}
    (h : recordMember o path name w = .ok () w') :
    name ∉ (w.object o).memberNames ∧ w' = w.modify o fun _ ↦
      { w.object o with memberNames := (w.object o).memberNames ++ [name] } := by
  unfold recordMember ReactiveObject.addMemberName? at h
  split_ifs at h with hname
  cases h
  exact ⟨hname, rfl⟩

/-- A name that is recorded for the first time is the name of no function yet. -/
theorem Unlinked.recordMember {w w' : World} (h : w.Unlinked) {o : ObjectRef}
    (ho : o.index < w.host.objects.size) {path name : String}
    (hrun : ReactiveFrames.recordMember o path name w = .ok () w') :
    w'.Unlinked ∧ Sprouts o w w' ∧ name ∈ (w'.object o).memberNames ∧
      name ∉ (w'.object o).listenerNames ∧ ∀ init ∈ (w'.object o).inits, init.1 ≠ name := by
  obtain ⟨hname, rfl⟩ := recordMember_eq_ok hrun
  have hobject := w.object_modify o o fun _ ↦
    { w.object o with memberNames := (w.object o).memberNames ++ [name] }
  rw [if_pos ⟨rfl, ho⟩] at hobject
  refine ⟨h.modify o rfl ⟨fun n hn ↦ ?_, fun init hinit ↦ ?_⟩ (h.target o) rfl rfl,
    .modify w o o rfl, ?_, ?_, ?_⟩
  · exact List.mem_append_left _ ((h.names o).listeners n hn)
  · exact ⟨List.mem_append_left _ ((h.names o).inits init hinit).1,
      ((h.names o).inits init hinit).2⟩
  all_goals rw [hobject]
  · exact List.mem_append_right _ (List.mem_singleton_self name)
  · exact fun hn ↦ hname ((h.names o).listeners name hn)
  · rintro init hinit rfl
    exact hname ((h.names o).inits init hinit).1

/-- Objects that are built below a new one are below its parent, once it has become a child. -/
theorem Sprouts.addChild {w w' : World} {f : Frame} {path : String} {o : ObjectRef}
    (hw : w.Unlinked) (ho : o.index < w.host.objects.size)
    (hsize : w.host.objects.size < w'.host.objects.size)
    (h : Sprouts ⟨w.host.objects.size⟩ (World.addObject (.ofFrame f path) w).2 w') :
    Sprouts o w (w'.addChild o ⟨w.host.objects.size⟩) := by
  have hchild (a c : ObjectRef) (hc : w'.Child a c) :
      (w'.addChild o ⟨w.host.objects.size⟩).Child a c :=
    (child_addChild (ho.trans hsize)).2 (.inl hc)
  have hnew : (w'.addChild o ⟨w.host.objects.size⟩).Child o ⟨w.host.objects.size⟩ :=
    (child_addChild (ho.trans hsize)).2 (.inr ⟨rfl, rfl⟩)
  have hsize' : (w'.addChild o ⟨w.host.objects.size⟩).host.objects.size
      = w'.host.objects.size := size_addChild
  refine ⟨hsize'.symm ▸ hsize.le, fun a c hc ↦ hchild a c (h.child a c (child_addObject hw hc)),
    fun a ha ha' ↦ ?_⟩
  rw [hsize'] at ha'
  rcases eq_or_size_addObject_le f path ha with rfl | ha
  · exact .single hnew
  · exact .head hnew (ReflTransGen.mono hchild _ _ (h.below a ha ha'))

theorem mem_listenerNames_setListener {x : ReactiveObject} {name n : String} {callable : Value}
    (h : n ∈ (x.setListener name callable).listenerNames) : n ∈ x.listenerNames ∨ n = name := by
  rw [ReactiveObject.listenerNames, ReactiveObject.setListener] at h
  split_ifs at h
  · rw [List.map_map] at h
    obtain ⟨l, hl, heq⟩ := List.mem_map.1 h
    by_cases hname : l.1 = name
    · rw [Function.comp_apply, if_pos hname] at heq
      exact .inr heq.symm
    · rw [Function.comp_apply, if_neg hname] at heq
      exact .inl (List.mem_map.2 ⟨l, hl, heq⟩)
  · rw [List.map_append, List.mem_append] at h
    exact h.imp_right fun h ↦ List.mem_singleton.1 h

/-- The callable of a function is stored under a name that no other function of the object has. -/
theorem Unlinked.storeFunction {w : World} (h : w.Unlinked) {o : ObjectRef} {name : String}
    (hmember : name ∈ (w.object o).memberNames) (hlistener : name ∉ (w.object o).listenerNames)
    (hinit : ∀ init ∈ (w.object o).inits, init.1 ≠ name) (f : Function) (callable : Value) :
    (ReactiveFrames.storeFunction o name f callable w).Unlinked ∧
      Sprouts o w (ReactiveFrames.storeFunction o name f callable w) := by
  have hdefine : (w.define o name callable).Unlinked ∧ Sprouts o w (w.define o name callable) :=
    ⟨h.define o name callable, .modify w o o rfl⟩
  cases f with
  | event => exact hdefine
  | procedure => exact hdefine
  | init =>
    refine ⟨h.modify o rfl ⟨(h.names o).listeners, fun init hmem ↦ ?_⟩ (h.target o) rfl rfl,
      .modify w o o rfl⟩
    rcases List.mem_append.1 hmem with hmem | hmem
    · exact (h.names o).inits init hmem
    · rw [List.mem_singleton.1 hmem]
      exact ⟨hmember, hlistener⟩
  | listener =>
    refine ⟨h.modify o rfl ⟨fun n hn ↦ ?_, fun init hmem ↦ ⟨?_, fun hn ↦ ?_⟩⟩ (h.target o) rfl rfl,
      .modify w o o rfl⟩
    · rcases mem_listenerNames_setListener hn with hn | rfl
      · exact (h.names o).listeners n hn
      · exact hmember
    · exact ((h.names o).inits init hmem).1
    · rcases mem_listenerNames_setListener hn with hn | heq
      · exact ((h.names o).inits init hmem).2 hn
      · exact hinit init hmem heq

theorem Calm.sprouts {w w' : World} (h : w.Calm w') (o : ObjectRef) : Sprouts o w w' :=
  .of_children h.1.size fun a ↦ (congrArg (fun x : ReactiveObject ↦ x.children) (h.1.wiring a) :)

mutual

theorem unlinked_of_buildMember {o : ObjectRef} {path : String} {n n' : Nat} {w w' : World}
    (m : Member) (hw : w.Unlinked) (ho : o.index < w.host.objects.size)
    (h : buildMember o path n m w = .ok n' w') : w'.Unlinked ∧ Sprouts o w w' := by
  match m with
  | .property name _ _ value =>
    obtain ⟨u, hrecord, rfl⟩ := exists_record_of_property h
    obtain ⟨hu, hsprouts, -⟩ := hw.recordMember ho hrecord
    have hheap : Sprouts o u { u with heap := (value.toValue u.heap).2 } :=
      .of_children rfl fun _ ↦ rfl
    exact ⟨(hu.withHeap _).define o name _, (hsprouts.trans hheap).trans (.modify _ o o rfl)⟩
  | .function name _ f =>
    obtain ⟨u, callable, u', hrecord, hcompile, rfl⟩ := exists_record_of_function h
    obtain ⟨hu, hsprouts, hmember, hlistener, hinit⟩ := hw.recordMember ho hrecord
    have hcalm := hu.calm_of_compileFunction hcompile
    have field {α : Type} (g : ReactiveObject → α) (hg : ∀ x : ReactiveObject, g x.wiring = g x) :
        g (u'.object o) = g (u.object o) := by
      rw [← hg, hcalm.1.wiring, hg]
    have hmember' : name ∈ (u'.object o).memberNames := by
      rwa [field (fun x ↦ x.memberNames) fun _ ↦ rfl]
    have hlistener' : name ∉ (u'.object o).listenerNames := by
      rwa [field (fun x ↦ x.listenerNames) fun _ ↦ rfl]
    have hinit' : ∀ init ∈ (u'.object o).inits, init.1 ≠ name := by
      rwa [field (fun x ↦ x.inits) fun _ ↦ rfl]
    have hstore := (hu.keeps hcalm.1 hcalm.2).storeFunction hmember' hlistener' hinit' f callable
    exact ⟨hstore.1, (hsprouts.trans (hcalm.sprouts o)).trans hstore.2⟩
  | .frame name _ className members =>
    obtain ⟨u, u'', hrecord, hmembers, rfl⟩ := exists_record_of_frame h
    obtain ⟨hu, hsprouts, -⟩ := hw.recordMember ho hrecord
    obtain ⟨hu'', hchild⟩ :=
      unlinked_of_buildMembers members hu.addObject lt_size_addObject hmembers
    have hou : o.index < u.host.objects.size := ho.trans_le hsprouts.size
    have hsize : u.host.objects.size < u''.host.objects.size :=
      lt_size_addObject.trans_le hchild.size
    exact ⟨hu''.addChild hou hsize, hsprouts.trans (.addChild hu hou hsize hchild)⟩

theorem unlinked_of_buildMembers {o : ObjectRef} {path : String} {n n' : Nat} {w w' : World}
    (ms : List Member) (hw : w.Unlinked) (ho : o.index < w.host.objects.size)
    (h : buildMembers o path n ms w = .ok n' w') : w'.Unlinked ∧ Sprouts o w w' := by
  match ms with
  | [] =>
    cases h
    exact ⟨hw, .of_children rfl fun _ ↦ rfl⟩
  | m :: ms =>
    obtain ⟨k, u, hm, hms⟩ := Run.bind_eq_ok.1 h
    obtain ⟨hu, hsprouts⟩ := unlinked_of_buildMember m hw ho hm
    obtain ⟨hw', hsprouts'⟩ := unlinked_of_buildMembers ms hu (ho.trans_le hsprouts.size) hms
    exact ⟨hw', hsprouts.trans hsprouts'⟩

end

theorem Unlinked.of_empty {w : World} (hempty : w.host.objects = #[]) (hcycle : w.NoCycle) :
    w.Unlinked := by
  have hobject (o : ObjectRef) : w.object o = .blank := by
    rw [object, ObjectGraph.object, hempty]
    rfl
  refine ⟨fun o ho ↦ ?_, fun o c hc ↦ ?_, fun o ↦ ?_, fun o name ps hps ↦ ?_, fun o p ↦ ?_,
    fun o ↦ ?_, hcycle⟩
  · rw [hempty] at ho
    exact absurd ho (Nat.not_lt_zero _)
  · rw [Child, hobject] at hc
    exact absurd hc List.not_mem_nil
  · rw [hobject]
    exact .of_nil rfl rfl
  · rw [hobject] at hps
    cases hps
  · rw [hobject]
    rfl
  · rw [hobject]
    rfl

/-- All objects of a frame that is built in a world without objects are below its root. -/
theorem unlinked_of_build {f : Frame} {root : ObjectRef} {w w' : World}
    (hempty : w.host.objects = #[]) (hcycle : w.NoCycle) (h : build f w = .ok root w') :
    w'.Unlinked ∧ root.index < w'.host.objects.size ∧
      ∀ o : ObjectRef, o.index < w'.host.objects.size → w'.Below root o := by
  obtain ⟨rfl, k, hmembers⟩ := exists_members_of_build h
  have hzero : w.host.objects.size = 0 := by rw [hempty]; rfl
  obtain ⟨hu, hsprouts⟩ := unlinked_of_buildMembers f.members
    (Unlinked.of_empty hempty hcycle).addObject lt_size_addObject hmembers
  refine ⟨hu, lt_size_addObject.trans_le hsprouts.size, fun o ho ↦ ?_⟩
  rcases eq_or_size_addObject_le f f.instanceName (hzero ▸ Nat.zero_le o.index) with rfl | hle
  · exact .refl
  · exact hsprouts.below o hle ho

end Build

/-! ## Resolving -/

section Resolve

theorem index_lt_of_collectPaths {w : World} (hw : w.Unlinked) (depth : Nat) {o : ObjectRef}
    (ho : o.index < w.host.objects.size) {objects : Table ObjectRef}
    (h : ∀ name q, objects.find? name = some q → q.index < w.host.objects.size) (name : String)
    (q : ObjectRef) (hq : (collectPaths w depth o objects).find? name = some q) :
    q.index < w.host.objects.size := by
  induction depth generalizing o objects name q with
  | zero => exact h name q hq
  | succ depth ih =>
    have hinsert (name : String) (q : ObjectRef)
        (hq : (objects.insert (w.object o).path o).find? name = some q) :
        q.index < w.host.objects.size := by
      rw [Table.find?_insert] at hq
      split_ifs at hq
      · cases hq
        exact ho
      · exact h name q hq
    have hfold (cs : List ObjectRef) (hcs : ∀ c ∈ cs, w.Child o c) (objects : Table ObjectRef)
        (h : ∀ name q, objects.find? name = some q → q.index < w.host.objects.size) (name : String)
        (q : ObjectRef)
        (hq : (cs.foldl (fun objects c ↦ collectPaths w depth c objects) objects).find? name
          = some q) : q.index < w.host.objects.size := by
      induction cs generalizing objects with
      | nil => exact h name q hq
      | cons c cs ihcs =>
        exact ihcs (fun c hc ↦ hcs c (List.mem_cons_of_mem _ hc)) _
          (fun name q ↦ ih (hw.children o c (hcs c List.mem_cons_self)).2 h name q) hq
    exact hfold _ (fun c hc ↦ hc) _ hinsert name q hq

theorem index_lt_of_pointersOf {objects : Table ObjectRef} {size : Nat}
    (h : ∀ name q, objects.find? name = some q → q.index < size) {path listener : String}
    {arguments : List PathArgument} {ps : List Pointer}
    (hps : pointersOf objects path listener arguments = .ok ps) :
    ∀ q ∈ ps, q.object.index < size := by
  induction arguments generalizing ps with
  | nil =>
    cases hps
    exact fun q hq ↦ absurd hq List.not_mem_nil
  | cons a rest ih =>
    obtain ⟨⟨target, property⟩, -, hps⟩ := Except.bind_eq_ok.1 hps
    dsimp only at hps
    split at hps
    · cases hps
    · next o ho =>
      obtain ⟨qs, hqs, hps⟩ := Except.bind_eq_ok.1 hps
      cases hps
      rintro q hq
      rcases List.mem_cons.1 hq with rfl | hq
      · exact h _ _ ho
      · exact ih hqs q hq

/-- The same objects, nested alike, and none of them linked. -/
structure Nested (g w : World) : Prop extends w.Unlinked where
  size : w.host.objects.size = g.host.objects.size
  nested : ∀ o, (w.object o).children = (g.object o).children

theorem Nested.setPointers {g w : World} (h : g.Nested w) (o : ObjectRef) (name : String)
    {ps : List Pointer} (hps : ∀ q ∈ ps, q.object.index < g.host.objects.size) :
    g.Nested (w.modify o (·.setPointers name ps)) where
  toUnlinked := by
    refine h.modify o rfl ⟨(h.names o).listeners, (h.names o).inits⟩ (fun n qs hqs q hq ↦ ?_)
      rfl rfl
    rw [ReactiveObject.setPointers, Table.find?_insert] at hqs
    split_ifs at hqs
    · cases hqs
      exact h.size.symm ▸ hps q hq
    · exact h.target o n qs hqs q hq
  size := (w.size_modify o _).trans h.size
  nested a := by
    rw [object_modify]
    split_ifs
    · exact h.nested a
    · exact h.nested a

theorem preserves_nested_resolve {g : World} {objects : Table ObjectRef}
    (h : ∀ name q, objects.find? name = some q → q.index < g.host.objects.size) (depth : Nat)
    (o : ObjectRef) : Run.Preserves g.Nested (resolve objects depth o) := by
  have hlisteners (o : ObjectRef) (ms : List Member) :
      Run.Preserves g.Nested (resolveListeners objects o ms) := by
    induction ms with
    | nil => exact .pure ()
    | cons m ms ih =>
      unfold resolveListeners
      split
      · exact .pure ()
      · next heq =>
        cases heq
        refine Run.Tracks.state.bind fun w ↦ ?_
        dsimp only
        cases hps : pointersOf objects (w.object o).path _ _ with
        | error e => exact Run.Tracks.fail (α := Unit) _
        | ok ps =>
          have hsize := index_lt_of_pointersOf h hps
          exact (Run.Tracks.update fun u hu ↦ hu.setPointers o _ hsize).bind fun _ ↦ ih
      · next heq =>
        cases heq
        exact ih
  induction depth generalizing o with
  | zero => exact .exhaust
  | succ depth ih =>
    exact Run.Tracks.state.bind fun _ ↦ (hlisteners o _).bind fun _ ↦ Run.Tracks.forM fun c _ ↦ ih c

end Resolve

end World

end ReactiveFrames
