import ReactiveFrames.Proofs.Reactive.Furnishing

/-!
# Init functions of built objects

An object that has been built holds the init functions of its frame, in the order in which they are
declared (`World.Enrolled`). Neither resolving nor linking nor running anything adds to them, takes
one away or moves an object to another place (`World.KeepsMembers`), so that this holds of a
compiled frame for as long as it is there.

## Main definitions

* `World.Enrolled`: the init functions of an object are those that its frame declares.
* `World.KeepsMembers`: objects stay where they are, with the functions that they have.

## Main statements

* `World.enrolled_of_build`: all objects of a frame that is built are enrolled.
* `World.exists_build_of_compileObject`: compiling changes no members of the objects that it has
  built.
-/

namespace ReactiveFrames

open Script (Value)

/-- Name of the init function that a member declares. -/
def Member.init? : Member → Option String
  | .function name _ (.init ..) => some name
  | _ => none

/-- Names of the init functions in order. -/
def ReactiveObject.initNames (o : ReactiveObject) : List String := o.inits.map (·.1)

/-- The place of an object and the functions that it has. -/
def ReactiveObject.members (x : ReactiveObject) :
    (Frame × String × List String × List ObjectRef) × List (String × Value) × List String :=
  (x.place, x.inits, x.listenerNames)

namespace World

variable {w w' w'' : World} {o : ObjectRef}

/-! ## Nothing is enrolled -/

/-- There are the same objects, with the same frames and init functions. -/
structure SameInits (w w' : World) : Prop where
  size : w'.host.objects.size = w.host.objects.size
  frame : ∀ a, (w'.object a).frame = (w.object a).frame
  inits : ∀ a, (w'.object a).inits = (w.object a).inits

namespace SameInits

protected theorem trans (h : w.SameInits w') (h' : w'.SameInits w'') : w.SameInits w'' where
  size := h'.size.trans h.size
  frame a := (h'.frame a).trans (h.frame a)
  inits a := (h'.inits a).trans (h.inits a)

theorem of_sameWiring (h : w.SameWiring w') : w.SameInits w' where
  size := h.size
  frame a := (congrArg ReactiveObject.frame (h.wiring a) :)
  inits a := (congrArg ReactiveObject.inits (h.wiring a) :)

/-- An object that keeps its frame and its init functions. -/
theorem modify (w : World) (o : ObjectRef) {f : ReactiveObject → ReactiveObject}
    (hframe : (f (w.object o)).frame = (w.object o).frame)
    (hinits : (f (w.object o)).inits = (w.object o).inits) : w.SameInits (w.modify o f) := by
  refine ⟨w.size_modify o f, fun a ↦ ?_, fun a ↦ ?_⟩
  all_goals
    rw [object_modify]
    split_ifs with ha
  · rw [ha.1, hframe]
  · rfl
  · rw [ha.1, hinits]
  · rfl

theorem recordMember {path name : String}
    (h : ReactiveFrames.recordMember o path name w = .ok () w') : w.SameInits w' := by
  obtain ⟨-, rfl⟩ := recordMember_eq_ok h
  exact .modify w o rfl rfl

theorem storeLiteral (w : World) (o : ObjectRef) (name : String) (value : Literal) :
    w.SameInits (ReactiveFrames.storeLiteral o name value w) := by
  have hheap : w.SameInits { w with heap := (value.toValue w.heap).2 } :=
    .of_sameWiring (.of_objects rfl)
  exact hheap.trans (.of_sameWiring (sameWiring_define _ o name _))

theorem addChild (w : World) (parent child : ObjectRef) :
    w.SameInits (w.addChild parent child) :=
  (SameInits.of_sameWiring (w.sameWiring_define parent _ _)).trans (.modify _ parent rfl rfl)

theorem compileFunction {path name : String} {f : Function} {n : Nat} {callable : Value}
    (h : ReactiveFrames.compileFunction path name f n w = .ok callable w') : w.SameInits w' := by
  have hclosed := writeClosed_sameWiring w
  exact .of_sameWiring ((preserves_compileFunction hclosed.drifts.growthClosed.failures
    hclosed.evaluate path name f n).of_ok (.refl w) h)

end SameInits

/-! ## Enrolled objects -/

/-- The init functions of the object are those that its frame declares, in order. -/
def Enrolled (w : World) (o : ObjectRef) : Prop :=
  (w.object o).initNames = (w.object o).frame.members.filterMap Member.init?

/-- The object has the same frame and the same init functions. -/
theorem Enrolled.congr (h : w.Enrolled o) (hframe : (w'.object o).frame = (w.object o).frame)
    (hinits : (w'.object o).inits = (w.object o).inits) : w'.Enrolled o := by
  rw [Enrolled, ReactiveObject.initNames, hframe, hinits]
  exact h

/-- Building members of an object adds the init functions among them to it, and none to the objects
that were there before. The new objects are enrolled. -/
structure Enrolling (o : ObjectRef) (ms : List Member) (w w' : World) : Prop where
  size : w.host.objects.size ≤ w'.host.objects.size
  frame : ∀ a : ObjectRef, a.index < w.host.objects.size →
    (w'.object a).frame = (w.object a).frame
  others : ∀ a : ObjectRef, a ≠ o → a.index < w.host.objects.size →
    (w'.object a).inits = (w.object a).inits
  initNames : (w'.object o).initNames = (w.object o).initNames ++ ms.filterMap Member.init?
  enrolled : ∀ a : ObjectRef, w.host.objects.size ≤ a.index → a.index < w'.host.objects.size →
    w'.Enrolled a

namespace Enrolling

variable {ms ms' : List Member} {m : Member}

protected theorem trans (ho : o.index < w.host.objects.size) (h : Enrolling o ms w w')
    (h' : Enrolling o ms' w' w'') : Enrolling o (ms ++ ms') w w'' where
  size := h.size.trans h'.size
  frame a ha := (h'.frame a (ha.trans_le h.size)).trans (h.frame a ha)
  others a hne ha := (h'.others a hne (ha.trans_le h.size)).trans (h.others a hne ha)
  initNames := by rw [h'.initNames, h.initNames, List.filterMap_append, List.append_assoc]
  enrolled a ha ha' := by
    by_cases hnew : a.index < w'.host.objects.size
    · have hne : a ≠ o := by
        rintro rfl
        omega
      exact (h.enrolled a ha hnew).congr (h'.frame a hnew) (h'.others a hne hnew)
    · exact h'.enrolled a (Nat.le_of_not_lt hnew) ha'

/-- A member that is no init function. -/
theorem of_sameInits (h : w.SameInits w') (hm : m.init? = none) : Enrolling o [m] w w' where
  size := h.size.ge
  frame a _ := h.frame a
  others a _ _ := h.inits a
  initNames := by
    rw [ReactiveObject.initNames, h.inits, List.filterMap_cons, hm]
    exact (List.append_nil _).symm
  enrolled a ha ha' := by
    rw [h.size] at ha'
    omega

/-- An init function comes after those that were there before. -/
theorem init (ho : o.index < w.host.objects.size) (h : w.SameInits w') {name : String}
    (hm : m.init? = some name) (callable : Value) :
    Enrolling o [m] w (w'.modify o (·.addInit name callable)) := by
  have hobject (a : ObjectRef) := object_modify w' o a (·.addInit name callable)
  have hself := hobject o
  rw [if_pos ⟨rfl, h.size.symm ▸ ho⟩] at hself
  refine ⟨?_, fun a _ ↦ ?_, fun a hne _ ↦ ?_, ?_, fun a ha ha' ↦ ?_⟩
  · rw [size_modify, h.size]
  · rw [hobject, ← h.frame a]
    split_ifs <;> rfl
  · rw [hobject, if_neg fun hand ↦ hne hand.1, h.inits]
  · have hnames : (w'.object o).initNames = (w.object o).initNames := by
      rw [ReactiveObject.initNames, h.inits]
      rfl
    rw [hself, ← hnames, List.filterMap_cons, hm]
    exact List.map_append
  · rw [size_modify, h.size] at ha'
    omega

/-- A new object is enrolled once its members have been built. -/
theorem enrolled_of_new {f : Frame} {path : String} (ho : o.index < w.host.objects.size)
    (hnew : w.object o = .ofFrame f path) (h : Enrolling o f.members w w') : w'.Enrolled o := by
  rw [Enrolled, h.initNames, h.frame o ho, hnew]
  rfl

/-- A nested frame brings the objects of its own. -/
theorem of_frame {u v : World} {name : String} {line : Nat} {className path : String}
    {members : List Member} (ho : o.index < w.host.objects.size) (hu : w.SameInits u)
    (h : Enrolling ⟨u.host.objects.size⟩ members
      (addObject (.ofFrame ⟨className, name, members⟩ path) u).2 v) :
    Enrolling o [.frame name line className members] w (v.addChild o ⟨u.host.objects.size⟩) := by
  have hnew : (addObject (.ofFrame ⟨className, name, members⟩ path) u).2.object
      ⟨u.host.objects.size⟩ = _ := object_addObject_self u _ _
  have hlt : u.host.objects.size
      < (addObject (.ofFrame ⟨className, name, members⟩ path) u).2.host.objects.size :=
    lt_size_addObject
  have hend := SameInits.addChild v o ⟨u.host.objects.size⟩
  -- Objects that were there before have not changed when the members have been built.
  have hbefore (a : ObjectRef) (ha : a.index < w.host.objects.size) :
      ((v.addChild o ⟨u.host.objects.size⟩).object a).frame = (w.object a).frame ∧
        ((v.addChild o ⟨u.host.objects.size⟩).object a).inits = (w.object a).inits := by
    obtain ⟨hne, hsize, hobject⟩ :=
      addObject_of_lt ⟨className, name, members⟩ path (hu.size.symm ▸ ha)
    rw [hend.frame, hend.inits, h.frame a hsize, h.others a hne hsize, hobject, hu.frame, hu.inits]
    exact ⟨rfl, rfl⟩
  refine ⟨?_, fun a ha ↦ (hbefore a ha).1, fun a _ ha ↦ (hbefore a ha).2, ?_, fun a ha ha' ↦ ?_⟩
  · rw [hend.size, ← hu.size]
    exact hlt.le.trans h.size
  · rw [ReactiveObject.initNames, (hbefore o ho).2]
    exact (List.append_nil _).symm
  · rw [hend.size] at ha'
    refine Enrolled.congr ?_ (hend.frame a) (hend.inits a)
    rcases eq_or_size_addObject_le ⟨className, name, members⟩ path (hu.size.le.trans ha)
      with rfl | hle
    · exact h.enrolled_of_new hlt hnew
    · exact h.enrolled a hle ha'

theorem storeFunction {u : World} {name : String} (line : Nat) {f : Function}
    (ho : o.index < w.host.objects.size) (h : w.SameInits u) (callable : Value) :
    Enrolling o [.function name line f] w
      (ReactiveFrames.storeFunction o name f callable u) := by
  cases f with
  | init => exact .init ho h rfl callable
  | listener => exact .of_sameInits (h.trans (.modify u o rfl rfl)) rfl
  | event => exact .of_sameInits (h.trans (.of_sameWiring (u.sameWiring_define o name _))) rfl
  | procedure => exact .of_sameInits (h.trans (.of_sameWiring (u.sameWiring_define o name _))) rfl

end Enrolling

mutual

theorem enrolling_of_buildMember {o : ObjectRef} {path : String} {n n' : Nat} {w w' : World}
    (m : Member) (ho : o.index < w.host.objects.size) (h : buildMember o path n m w = .ok n' w') :
    Enrolling o [m] w w' := by
  match m with
  | .property name line type value =>
    obtain ⟨u, hrecord, rfl⟩ := exists_record_of_property h
    exact .of_sameInits ((SameInits.recordMember hrecord).trans (.storeLiteral u o name value)) rfl
  | .function name line f =>
    obtain ⟨u, callable, v, hrecord, hcompile, rfl⟩ := exists_record_of_function h
    exact .storeFunction line ho
      ((SameInits.recordMember hrecord).trans (.compileFunction hcompile)) callable
  | .frame name line className members =>
    obtain ⟨u, v, hrecord, hmembers, rfl⟩ := exists_record_of_frame h
    exact .of_frame ho (.recordMember hrecord)
      (enrolling_of_buildMembers members lt_size_addObject hmembers)

theorem enrolling_of_buildMembers {o : ObjectRef} {path : String} {n n' : Nat} {w w' : World}
    (ms : List Member) (ho : o.index < w.host.objects.size)
    (h : buildMembers o path n ms w = .ok n' w') : Enrolling o ms w w' := by
  match ms with
  | [] =>
    cases h
    exact ⟨le_rfl, fun _ _ ↦ rfl, fun _ _ _ ↦ rfl, (List.append_nil _).symm,
      fun a ha ha' ↦ by omega⟩
  | m :: ms =>
    obtain ⟨k, u, hm, hms⟩ := Run.bind_eq_ok.1 h
    have hfirst := enrolling_of_buildMember m ho hm
    exact hfirst.trans ho (enrolling_of_buildMembers ms (ho.trans_le hfirst.size) hms)

end

/-- All objects of a frame that is built are enrolled. -/
theorem enrolled_of_build {f : Frame} {root : ObjectRef} (h : build f w = .ok root w')
    (ho : w.host.objects.size ≤ o.index) (ho' : o.index < w'.host.objects.size) :
    w'.Enrolled o := by
  obtain ⟨rfl, k, hmembers⟩ := exists_members_of_build h
  have hnew := object_addObject_self w f f.instanceName
  have henrolling := enrolling_of_buildMembers f.members lt_size_addObject hmembers
  rcases eq_or_size_addObject_le f f.instanceName ho with rfl | hle
  · exact henrolling.enrolled_of_new lt_size_addObject hnew
  · exact henrolling.enrolled o hle ho'

/-! ## Members are kept -/

/-- All objects are still there, in their places and with their functions. There may be more. -/
structure KeepsMembers (w w' : World) : Prop where
  size : w.host.objects.size ≤ w'.host.objects.size
  members : ∀ a : ObjectRef, a.index < w.host.objects.size →
    (w'.object a).members = (w.object a).members

namespace KeepsMembers

protected theorem refl (w : World) : w.KeepsMembers w := ⟨le_rfl, fun _ _ ↦ rfl⟩

protected theorem trans (h : w.KeepsMembers w') (h' : w'.KeepsMembers w'') :
    w.KeepsMembers w'' where
  size := h.size.trans h'.size
  members a ha := (h'.members a (ha.trans_le h.size)).trans (h.members a ha)

theorem of_sameWiring (h : w.SameWiring w') : w.KeepsMembers w' :=
  ⟨h.size.ge, fun a _ ↦ (congrArg ReactiveObject.members (h.wiring a) :)⟩

/-- Objects change in what is not a matter of their members. -/
theorem modify (w : World) (o : ObjectRef) {f : ReactiveObject → ReactiveObject}
    (hf : ∀ x, (f x).members = x.members) : w.KeepsMembers (w.modify o f) := by
  refine ⟨(w.size_modify o f).ge, fun a _ ↦ ?_⟩
  rw [object_modify]
  split_ifs
  · exact hf _
  · rfl

theorem place (h : w.KeepsMembers w') (ho : o.index < w.host.objects.size) :
    (w'.object o).place = (w.object o).place := congrArg (fun m ↦ m.1) (h.members o ho)

theorem inits (h : w.KeepsMembers w') (ho : o.index < w.host.objects.size) :
    (w'.object o).inits = (w.object o).inits := congrArg (fun m ↦ m.2.1) (h.members o ho)

theorem listenerNames (h : w.KeepsMembers w') (ho : o.index < w.host.objects.size) :
    (w'.object o).listenerNames = (w.object o).listenerNames :=
  congrArg (fun m ↦ m.2.2) (h.members o ho)

theorem enrolled (h : w.KeepsMembers w') (ho : o.index < w.host.objects.size)
    (henrolled : w.Enrolled o) : w'.Enrolled o :=
  henrolled.congr (congrArg (fun p ↦ p.1) (h.place ho)) (h.inits ho)

theorem linkPointer (w : World) (owner : ObjectRef) (listener : String) (p : Pointer) :
    w.KeepsMembers (World.linkPointer owner listener w p) := by
  rw [World.linkPointer]
  split
  · exact .modify w p.object fun _ ↦ rfl
  · exact .of_sameWiring (.of_objects rfl)

theorem link (w : World) (owner : ObjectRef) (listener : String) :
    w.KeepsMembers (World.link owner listener w) := by
  rw [World.link]
  generalize ((w.object owner).pointers.find? listener).getD [] = ps
  induction ps generalizing w with
  | nil => exact .refl w
  | cons p ps ih => exact (linkPointer w owner listener p).trans (ih _)

end KeepsMembers

section Passes

variable {ε : Type} (g : World)

theorem writeClosed_keepsMembers : WriteClosed g.KeepsMembers where
  drifts _ _ hd hw := hw.trans (.of_sameWiring (.of_objects hd.objects))
  set o p v u hu hr :=
    ⟨hu.trans (.of_sameWiring (keeps_setWithin _ _ _ o p v u hr).toSameWiring),
      .of_forall fun _ ↦ rfl⟩

theorem preserves_keepsMembers_resolveListeners (objects : Table ObjectRef) (o : ObjectRef)
    (ms : List Member) : Run.Preserves g.KeepsMembers (resolveListeners objects o ms) := by
  induction ms with
  | nil => exact .pure ()
  | cons m ms ih =>
    unfold resolveListeners
    split
    · exact .pure ()
    · next heq =>
      cases heq
      exact Run.Tracks.state.bind fun _ ↦ (Run.Tracks.ofExcept _).bind fun pointers ↦
        (Run.Tracks.update fun w hw ↦ hw.trans (.modify w o fun _ ↦ rfl)).bind fun _ ↦ ih
    · next heq =>
      cases heq
      exact ih

theorem preserves_keepsMembers_resolve (objects : Table ObjectRef) (depth : Nat) (o : ObjectRef) :
    Run.Preserves g.KeepsMembers (resolve objects depth o) := by
  induction depth generalizing o with
  | zero => exact .exhaust
  | succ depth ih =>
    exact Run.Tracks.state.bind fun _ ↦
      (preserves_keepsMembers_resolveListeners g objects o _).bind fun _ ↦
        Run.Tracks.forM fun c _ ↦ ih c

theorem preserves_keepsMembers_linkTree (o : ObjectRef) :
    Run.Preserves g.KeepsMembers (linkTree o : Effect ε Unit) := by
  have hlink (o : ObjectRef) : Run.Preserves g.KeepsMembers (linkListeners o : Effect ε Unit) :=
    Run.Tracks.state.bind fun _ ↦ Run.Tracks.forM fun name _ ↦
      .update fun w hw ↦ hw.trans (.link w o name)
  intro w hw hr
  have hvisit := preserves_visit hlink w.treeDepth o
  unfold World.linkTree at hr ⊢
  exact ⟨(hvisit w hw hr).1, .of_forall fun _ ↦ rfl⟩

end Passes

/-- Compiling changes no members of the objects that it has built. -/
theorem exists_build_of_compileObject {f : Frame} {root : ObjectRef}
    (h : compileObject f w = .ok root w') : ∃ u, build f w = .ok root u ∧ u.KeepsMembers w' := by
  obtain ⟨x, hassemble, hseed⟩ := exists_assemble_of_compileObject h
  obtain ⟨u, v, hbuild, hresolve, hlink⟩ := exists_build_of_assemble hassemble
  refine ⟨u, hbuild, ?_⟩
  have hv := (preserves_keepsMembers_resolve u _ _ root).of_ok (.refl u) hresolve
  have hx := (preserves_keepsMembers_linkTree u root).of_ok hv hlink
  exact ((writeClosed_keepsMembers u).scriptClosed.seedTree root).of_ok hx hseed

end World

end ReactiveFrames
