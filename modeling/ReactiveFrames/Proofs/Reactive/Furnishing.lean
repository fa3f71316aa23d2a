import ReactiveFrames.Proofs.Reactive.ObjectTree

/-!
# Members of built objects

An object that has been built has what its frame declares (`World.Furnished`): its listeners are the
listener members of the frame, in order, and each of the other members is a property, save for init
functions, which become properties when a program is executed. No object loses any of it later. A
write adds a property or replaces a value, and no script can do more.

## Main definitions

* `World.Furnished`: an object has what its frame declares.
* `World.Retains`: no object has lost anything.

## Main statements

* `World.retains_setWithin`: writes take nothing away.
* `World.furnished_of_build`: all objects of a frame that is built are furnished.
-/

open Filter

namespace ReactiveFrames

open Script (Value)
open Relation (ReflTransGen)

/-- Name of the listener that a member declares. -/
def Member.listener? : Member → Option String
  | .function name _ (.listener ..) => some name
  | _ => none

/-- The member becomes a property when it is built. -/
def Member.isStored : Member → Bool
  | .function _ _ (.init ..) => false
  | .function _ _ (.listener ..) => false
  | _ => true

theorem Member.name_of_listener? {m : Member} {name : String} (h : m.listener? = some name) :
    m.name = name := by
  unfold Member.listener? at h
  split at h
  · cases h
    rfl
  · cases h

theorem Member.filterMap_listener?_subset {ms : List Member} {name : String}
    (h : name ∈ ms.filterMap Member.listener?) : name ∈ ms.map Member.name := by
  obtain ⟨m, hm, hname⟩ := List.mem_filterMap.1 h
  exact List.mem_map.2 ⟨m, hm, Member.name_of_listener? hname⟩

namespace World

variable {w w' w'' : World} {o : ObjectRef}

/-! ## Nothing is lost -/

/-- The objects have the same listeners, and no object has lost a property. -/
structure Retains (w w' : World) : Prop where
  size : w'.host.objects.size = w.host.objects.size
  held : w'.host.held = w.host.held
  frame : ∀ a, (w'.object a).frame = (w.object a).frame
  listenerNames : ∀ a, (w'.object a).listenerNames = (w.object a).listenerNames
  present : ∀ a p, (w.get? a p).isSome → (w'.get? a p).isSome

namespace Retains

protected theorem refl (w : World) : w.Retains w :=
  ⟨rfl, rfl, fun _ ↦ rfl, fun _ ↦ rfl, fun _ _ h ↦ h⟩

protected theorem trans (h : w.Retains w') (h' : w'.Retains w'') : w.Retains w'' where
  size := h'.size.trans h.size
  held := h'.held.trans h.held
  frame a := (h'.frame a).trans (h.frame a)
  listenerNames a := (h'.listenerNames a).trans (h.listenerNames a)
  present a p hp := h'.present a p (h.present a p hp)

theorem of_sameWiring (h : w.SameWiring w') (hheld : w'.host.held = w.host.held)
    (hpresent : ∀ a p, (w.get? a p).isSome → (w'.get? a p).isSome) : w.Retains w' where
  size := h.size
  held := hheld
  frame a := (congrArg ReactiveObject.frame (h.wiring a) :)
  listenerNames a := (congrArg ReactiveObject.listenerNames (h.wiring a) :)
  present := hpresent

theorem of_drifts (h : w.Drifts w') : w.Retains w' :=
  .of_sameWiring (.of_objects h.objects) h.held fun a p hp ↦ by rwa [h.get?]

theorem define (w : World) (o : ObjectRef) (p : String) (v : Value) :
    w.Retains (w.define o p v) := by
  refine .of_sameWiring (w.sameWiring_define o p v) rfl fun a q hq ↦ ?_
  rw [get?_define]
  split_ifs
  · rfl
  · exact hq

/-- An object that keeps its frame, its listeners and its properties. -/
theorem modify (w : World) (o : ObjectRef) {f : ReactiveObject → ReactiveObject}
    (hframe : (f (w.object o)).frame = (w.object o).frame)
    (hlisteners : (f (w.object o)).listenerNames = (w.object o).listenerNames)
    (hproperties : (f (w.object o)).properties = (w.object o).properties) :
    w.Retains (w.modify o f) := by
  refine ⟨w.size_modify o f, rfl, fun a ↦ ?_, fun a ↦ ?_, fun a p hp ↦ ?_⟩
  · rw [object_modify]
    split_ifs with ha
    · rw [ha.1, hframe]
    · rfl
  · rw [object_modify]
    split_ifs with ha
    · rw [ha.1, hlisteners]
    · rfl
  · rw [get?, object_modify]
    split_ifs with ha
    · rw [ha.1, hproperties]
      rwa [ha.1] at hp
    · exact hp

theorem recordMember {path name : String}
    (h : ReactiveFrames.recordMember o path name w = .ok () w') :
    w.Retains w' := by
  obtain ⟨-, rfl⟩ := recordMember_eq_ok h
  exact .modify w o rfl rfl rfl

theorem storeLiteral (w : World) (o : ObjectRef) (name : String) (value : Literal) :
    w.Retains (ReactiveFrames.storeLiteral o name value w) := by
  have hheap : w.Retains { w with heap := (value.toValue w.heap).2 } :=
    .of_sameWiring (.of_objects rfl) rfl fun _ _ hp ↦ hp
  exact hheap.trans (.define _ o name _)

theorem addChild (w : World) (parent child : ObjectRef) : w.Retains (w.addChild parent child) :=
  (Retains.define w parent _ _).trans (.modify _ parent rfl rfl rfl)

end Retains

/-- Writes take nothing away. -/
theorem retains_setWithin (bound : Nat) (read : Lookup) (levels : Nat) (o : ObjectRef) (p : String)
    (v : Value) (w : World) (hr : (setWithin bound read levels o p v w).Returns) :
    w.Retains (setWithin bound read levels o p v w).state := by
  induction levels generalizing o p v w with
  | zero => exact hr.elim
  | succ levels ih =>
    rw [setWithin] at hr ⊢
    rcases setWith_cases rfl hr with ⟨-, h⟩ | ⟨-, -, h⟩ | ⟨-, -, w', hrun, h⟩
    · rw [h]
      exact .refl w
    · rw [h]
      exact .define w o p v
    · -- Between its two ends the write lets observers run, whose writes are at the levels below.
      have hdrift : World.DriftClosed w.Retains := fun _ _ hd hu ↦ hu.trans (.of_drifts hd)
      have haccess : (⟨read, setWithin bound read levels⟩ : Access).Tracks w.Retains
          fun _ ↦ ⟨read, setWithin bound read levels⟩ := {
        read := fun _ _ _ _ ↦ .of_forall fun _ ↦ rfl
        write := fun o' p' v' u hu hr' ↦ ⟨hu.trans (ih o' p' v' u hr'), .of_forall fun _ ↦ rfl⟩ }
      have hbegun : w.Retains (w.begun o p v) :=
        .of_sameWiring (w.sameWiring_begun o p v) rfl fun a q hq ↦ by
          rw [get?_begun]
          split_ifs
          · rfl
          · exact hq
      have hobservers := (tracks_runObservers (n := bound) (b := fun _ ↦ bound) (ε := ObserverError)
        hdrift haccess (.of_forall fun _ ↦ le_rfl) v ((w.object o).observersOf p)).of_ok hbegun hrun
      rw [h]
      refine hobservers.1.trans
        (.of_sameWiring (w'.sameWiring_ended o p w.pins) rfl fun a q hq ↦ ?_)
      have hget : (w'.ended o p w.pins).get? a q = w'.get? a q := get?_stopNotifying _ o a p q
      exact hget ▸ hq

theorem writeClosed_retains (w : World) : WriteClosed w.Retains where
  drifts _ _ hd hw := hw.trans (.of_drifts hd)
  set o p v u hu hr := ⟨hu.trans (retains_setWithin _ _ _ o p v u hr), .of_forall fun _ ↦ rfl⟩

theorem Retains.compileFunction {path name : String} {f : Function} {n : Nat} {callable : Value}
    (h : ReactiveFrames.compileFunction path name f n w = .ok callable w') : w.Retains w' := by
  have hclosed := writeClosed_retains w
  exact (preserves_compileFunction hclosed.drifts.growthClosed.failures hclosed.evaluate path name f
    n).of_ok (.refl w) h

/-! ## Furnished objects -/

/-- The object is kept, and has what its frame declares. -/
structure Furnished (w : World) (o : ObjectRef) : Prop where
  held : o ∈ w.host.held
  listenerNames : (w.object o).listenerNames
    = (w.object o).frame.members.filterMap Member.listener?
  stored : ∀ m ∈ (w.object o).frame.members, m.isStored = true → (w.get? o m.name).isSome

theorem Furnished.retains (h : w.Furnished o) (hw : w.Retains w') : w'.Furnished o where
  held := hw.held ▸ h.held
  listenerNames := by rw [hw.listenerNames, hw.frame, h.listenerNames]
  stored m hm hstored := hw.present o m.name (h.stored m (hw.frame o ▸ hm) hstored)

/-- Building members of an object adds to it what they declare, and takes nothing away from the
objects that were there before. The new objects are furnished. -/
structure Furnishing (o : ObjectRef) (ms : List Member) (w w' : World) : Prop where
  size : w.host.objects.size ≤ w'.host.objects.size
  held : ∀ a ∈ w.host.held, a ∈ w'.host.held
  frame : ∀ a : ObjectRef, a.index < w.host.objects.size →
    (w'.object a).frame = (w.object a).frame
  others : ∀ a : ObjectRef, a ≠ o → a.index < w.host.objects.size →
    (w'.object a).listenerNames = (w.object a).listenerNames
  present : ∀ (a : ObjectRef) (p : String), a.index < w.host.objects.size →
    (w.get? a p).isSome → (w'.get? a p).isSome
  listenerNames : (w'.object o).listenerNames
    = (w.object o).listenerNames ++ ms.filterMap Member.listener?
  stored : ∀ m ∈ ms, m.isStored = true → (w'.get? o m.name).isSome
  furnished : ∀ a : ObjectRef, w.host.objects.size ≤ a.index → a.index < w'.host.objects.size →
    w'.Furnished a

namespace Furnishing

variable {ms ms' : List Member} {m : Member}

protected theorem trans (ho : o.index < w.host.objects.size) (h : Furnishing o ms w w')
    (h' : Furnishing o ms' w' w'') : Furnishing o (ms ++ ms') w w'' where
  size := h.size.trans h'.size
  held a ha := h'.held a (h.held a ha)
  frame a ha := (h'.frame a (ha.trans_le h.size)).trans (h.frame a ha)
  others a hne ha := (h'.others a hne (ha.trans_le h.size)).trans (h.others a hne ha)
  present a p ha hp := h'.present a p (ha.trans_le h.size) (h.present a p ha hp)
  listenerNames := by
    rw [h'.listenerNames, h.listenerNames, List.filterMap_append, List.append_assoc]
  stored m hm hstored := by
    rcases List.mem_append.1 hm with hm | hm
    · exact h'.present o m.name (ho.trans_le h.size) (h.stored m hm hstored)
    · exact h'.stored m hm hstored
  furnished a ha ha' := by
    by_cases hnew : a.index < w'.host.objects.size
    · -- An object that the first members have brought is not touched by the further ones.
      have hne : a ≠ o := by
        rintro rfl
        omega
      have hfurnished := h.furnished a ha hnew
      refine ⟨h'.held a hfurnished.held, ?_, fun m hm hstored ↦ ?_⟩
      · rw [h'.others a hne hnew, h'.frame a hnew, hfurnished.listenerNames]
      · exact h'.present a m.name hnew (hfurnished.stored m (h'.frame a hnew ▸ hm) hstored)
    · exact h'.furnished a (Nat.le_of_not_lt hnew) ha'

/-- A member that is no listener, and is stored if it becomes a property. -/
theorem of_retains (h : w.Retains w') (hlistener : m.listener? = none)
    (hstored : m.isStored = true → (w'.get? o m.name).isSome) : Furnishing o [m] w w' where
  size := h.size.ge
  held _ ha := h.held ▸ ha
  frame a _ := h.frame a
  others a _ _ := h.listenerNames a
  present a p _ hp := h.present a p hp
  listenerNames := by
    rw [h.listenerNames, List.filterMap_cons, hlistener]
    exact (List.append_nil _).symm
  stored m' hm' hs := by
    obtain rfl := List.mem_singleton.1 hm'
    exact hstored hs
  furnished a ha ha' := by
    rw [h.size] at ha'
    omega

theorem listenerNames_setListener {x : ReactiveObject} {name : String} (callable : Value)
    (h : name ∉ x.listenerNames) :
    (x.setListener name callable).listenerNames = x.listenerNames ++ [name] := by
  have hnone : (x.listeners.any fun l ↦ l.1 == name) = false := by
    rw [List.any_eq_false]
    rintro l hl heq
    exact h (List.mem_map.2 ⟨l, hl, beq_iff_eq.1 heq⟩)
  rw [ReactiveObject.setListener, hnone, ReactiveObject.listenerNames]
  exact List.map_append

/-- A listener comes after the listeners that were there before. -/
theorem listener (ho : o.index < w.host.objects.size) (h : w.Retains w') {name : String}
    (hname : name ∉ (w.object o).listenerNames) (hm : m.listener? = some name)
    (hstored : m.isStored = false) (callable : Value) :
    Furnishing o [m] w (w'.modify o (·.setListener name callable)) := by
  have hobject (a : ObjectRef) := object_modify w' o a (·.setListener name callable)
  have ho' : o.index < w'.host.objects.size := h.size.symm ▸ ho
  have hself := hobject o
  rw [if_pos ⟨rfl, ho'⟩] at hself
  refine ⟨?_, fun a ha ↦ h.held ▸ ha, fun a _ ↦ ?_, fun a hne _ ↦ ?_, fun a p _ hp ↦ ?_, ?_,
    fun m' hm' hs ↦ ?_, fun a ha ha' ↦ ?_⟩
  · rw [size_modify, h.size]
  · rw [hobject, ← h.frame a]
    split_ifs <;> rfl
  · rw [hobject, if_neg fun hand ↦ hne hand.1, h.listenerNames]
  · have hget : (w'.modify o (·.setListener name callable)).get? a p = w'.get? a p := by
      rw [get?, hobject, get?]
      split_ifs <;> rfl
    rw [hget]
    exact h.present a p hp
  · rw [hself, listenerNames_setListener callable (h.listenerNames o ▸ hname), h.listenerNames,
      List.filterMap_cons, hm]
    rfl
  · rw [List.mem_singleton.1 hm', hstored] at hs
    cases hs
  · rw [size_modify, h.size] at ha'
    omega

/-- A new object is furnished once its members have been built. -/
theorem furnished_of_new {f : Frame} {path : String} (ho : o.index < w.host.objects.size)
    (hheld : o ∈ w.host.held) (hnew : w.object o = .ofFrame f path)
    (h : Furnishing o f.members w w') : w'.Furnished o := by
  have hframe : (w'.object o).frame = f := by
    rw [h.frame o ho, hnew]
    rfl
  refine ⟨h.held o hheld, ?_, fun m hm hstored ↦ ?_⟩
  · rw [h.listenerNames, hframe, hnew]
    rfl
  · exact h.stored m (hframe ▸ hm) hstored

/-- A nested frame is a property that holds the object of the frame. -/
theorem of_frame {u v : World} {name : String} {line : Nat} {className path : String}
    {members : List Member} (ho : o.index < w.host.objects.size) (hu : w.Retains u)
    (h : Furnishing ⟨u.host.objects.size⟩ members
      (addObject (.ofFrame ⟨className, name, members⟩ path) u).2 v) :
    Furnishing o [.frame name line className members] w (v.addChild o ⟨u.host.objects.size⟩) := by
  have hnew : (addObject (.ofFrame ⟨className, name, members⟩ path) u).2.object
      ⟨u.host.objects.size⟩ = _ := object_addObject_self u _ _
  have hlt : u.host.objects.size
      < (addObject (.ofFrame ⟨className, name, members⟩ path) u).2.host.objects.size :=
    lt_size_addObject
  have hchild : v.Furnished ⟨u.host.objects.size⟩ :=
    h.furnished_of_new hlt List.mem_cons_self hnew
  -- Objects that were there before have not changed when the members have been built.
  have hbefore (a : ObjectRef) (ha : a.index < w.host.objects.size) :=
    addObject_of_lt ⟨className, name, members⟩ path (hu.size.symm ▸ ha)
  have hend := Retains.addChild v o ⟨u.host.objects.size⟩
  have hname : (v.object ⟨u.host.objects.size⟩).instanceName = name := by
    rw [ReactiveObject.instanceName, h.frame ⟨u.host.objects.size⟩ hlt, hnew]
    rfl
  have hov : o.index < v.host.objects.size := (hbefore o ho).2.1.trans_le h.size
  refine ⟨?_, fun a ha ↦ ?_, fun a ha ↦ ?_, fun a _ ha ↦ ?_, fun a p ha hp ↦ ?_, ?_,
    fun m hm _ ↦ ?_, fun a ha ha' ↦ ?_⟩
  · rw [hend.size, ← hu.size]
    exact hlt.le.trans h.size
  · rw [hend.held]
    exact h.held a (List.mem_cons_of_mem _ (hu.held ▸ ha))
  · obtain ⟨-, hsize, hobject⟩ := hbefore a ha
    rw [hend.frame, h.frame a hsize, hobject, hu.frame]
  · obtain ⟨hne, hsize, hobject⟩ := hbefore a ha
    rw [hend.listenerNames, h.others a hne hsize, hobject, hu.listenerNames]
  · obtain ⟨-, hsize, hobject⟩ := hbefore a ha
    refine hend.present a p (h.present a p hsize ?_)
    rw [get?, hobject]
    exact hu.present a p hp
  · obtain ⟨hne, hsize, hobject⟩ := hbefore o ho
    rw [hend.listenerNames, h.others o hne hsize, hobject, hu.listenerNames]
    exact (List.append_nil _).symm
  · rw [List.mem_singleton.1 hm, get?, object_addChild hov, if_pos rfl, hname]
    change (((v.object o).properties.insert name _).find? name).isSome
    rw [Table.find?_insert, if_pos rfl]
    rfl
  · rw [hend.size] at ha'
    rcases eq_or_size_addObject_le ⟨className, name, members⟩ path (hu.size.le.trans ha)
      with rfl | hle
    · exact hchild.retains hend
    · exact (h.furnished a hle ha').retains hend

end Furnishing

/-! ## Building -/

theorem get?_define_self (w : World) {o : ObjectRef} (ho : o.index < w.host.objects.size)
    (p : String) (v : Value) : ((w.define o p v).get? o p).isSome := by
  rw [get?_define, if_pos ⟨rfl, rfl, ho⟩]
  rfl

/-- What is compiled from a function is stored as a listener, as an init function or as a
property. -/
theorem Furnishing.storeFunction {u : World} {name : String} (line : Nat) {f : Function}
    (ho : o.index < w.host.objects.size) (h : w.Retains u)
    (hname : name ∉ (w.object o).listenerNames) (callable : Value) :
    Furnishing o [.function name line f] w
      (ReactiveFrames.storeFunction o name f callable u) := by
  have hou : o.index < u.host.objects.size := h.size.symm ▸ ho
  cases f with
  | init => exact .of_retains (h.trans (.modify u o rfl rfl rfl)) rfl fun hs ↦ nomatch hs
  | listener => exact .listener ho h hname rfl rfl callable
  | event =>
    exact .of_retains (h.trans (.define u o name callable)) rfl fun _ ↦ get?_define_self u hou ..
  | procedure =>
    exact .of_retains (h.trans (.define u o name callable)) rfl fun _ ↦ get?_define_self u hou ..

mutual

theorem furnishing_of_buildMember {o : ObjectRef} {path : String} {n n' : Nat} {w w' : World}
    (m : Member) (ho : o.index < w.host.objects.size)
    (hnames : ∀ name ∈ (w.object o).listenerNames, name ∈ (w.object o).memberNames)
    (h : buildMember o path n m w = .ok n' w') : Furnishing o [m] w w' := by
  match m with
  | .property name line type value =>
    obtain ⟨u, hrecord, rfl⟩ := exists_record_of_property h
    have hu := Retains.recordMember hrecord
    refine .of_retains (hu.trans (.storeLiteral u o name value)) rfl fun _ ↦ ?_
    exact get?_define_self { u with heap := (value.toValue u.heap).2 } (hu.size.symm ▸ ho) name _
  | .function name line f =>
    obtain ⟨u, callable, v, hrecord, hcompile, rfl⟩ := exists_record_of_function h
    have hnew : name ∉ (w.object o).listenerNames := fun hmem ↦
      (recordMember_eq_ok hrecord).1 (hnames name hmem)
    exact .storeFunction line ho
      ((Retains.recordMember hrecord).trans (.compileFunction hcompile)) hnew callable
  | .frame name line className members =>
    obtain ⟨u, v, hrecord, hmembers, rfl⟩ := exists_record_of_frame h
    have hnew := object_addObject_self u ⟨className, name, members⟩ (path ++ "." ++ name)
    have hchild := furnishing_of_buildMembers members lt_size_addObject (by rw [hnew]; rfl)
      (by rw [hnew]; exact fun _ hmem ↦ absurd hmem List.not_mem_nil) hmembers
    exact .of_frame ho (.recordMember hrecord) hchild

theorem furnishing_of_buildMembers {o : ObjectRef} {path : String} {n n' : Nat} {w w' : World}
    (ms : List Member) (ho : o.index < w.host.objects.size) (hpath : (w.object o).path = path)
    (hnames : ∀ name ∈ (w.object o).listenerNames, name ∈ (w.object o).memberNames)
    (h : buildMembers o path n ms w = .ok n' w') : Furnishing o ms w w' := by
  match ms with
  | [] =>
    cases h
    exact ⟨le_rfl, fun _ ha ↦ ha, fun _ _ ↦ rfl, fun _ _ _ ↦ rfl, fun _ _ _ hp ↦ hp,
      (List.append_nil _).symm, fun _ hm ↦ absurd hm List.not_mem_nil, fun a ha ha' ↦ by omega⟩
  | m :: ms =>
    obtain ⟨k, u, hm, hms⟩ := Run.bind_eq_ok.1 h
    have hplanting := planting_of_buildMember m ho hpath hm
    have hfurnishing := furnishing_of_buildMember m ho hnames hm
    refine hfurnishing.trans ho (furnishing_of_buildMembers ms (ho.trans_le hplanting.size)
      (hplanting.path.trans hpath) (fun name hname ↦ ?_) hms)
    rw [hfurnishing.listenerNames] at hname
    rw [hplanting.names]
    rcases List.mem_append.1 hname with hname | hname
    · exact List.mem_append_left _ (hnames name hname)
    · exact List.mem_append_right _ (Member.filterMap_listener?_subset hname)

end

/-- All objects of a frame that is built are furnished. The root is the first of the new objects. -/
theorem furnished_of_build {f : Frame} {root : ObjectRef} (h : build f w = .ok root w') :
    root.index = w.host.objects.size ∧
      ∀ o : ObjectRef, w.host.objects.size ≤ o.index → o.index < w'.host.objects.size →
        w'.Furnished o := by
  obtain ⟨rfl, k, hmembers⟩ := exists_members_of_build h
  have hnew := object_addObject_self w f f.instanceName
  have hfurnishing := furnishing_of_buildMembers f.members lt_size_addObject (by rw [hnew]; rfl)
    (by rw [hnew]; exact fun _ hmem ↦ absurd hmem List.not_mem_nil) hmembers
  refine ⟨rfl, fun o ho ho' ↦ ?_⟩
  rcases eq_or_size_addObject_le f f.instanceName ho with rfl | hle
  · exact hfurnishing.furnished_of_new lt_size_addObject List.mem_cons_self hnew
  · exact hfurnishing.furnished o hle ho'

end World

end ReactiveFrames
