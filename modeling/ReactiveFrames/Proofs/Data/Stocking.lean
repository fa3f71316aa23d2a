import ReactiveFrames.Proofs.Data.Records
import ReactiveFrames.Proofs.Reactive.ObjectTree

/-!
# Objects of data frames

A data frame is built into objects as any other frame is. As no script is evaluated meanwhile, the
properties of these objects are known: the name and the class of the object, and one property for
each member, which has the shape of the literal or is the object of the nested frame. They are there
as soon as the object is complete, and what is built later does not touch them.

## Main definitions

* `World.Stores`: an object has a property for a member.
* `World.Stocked`: the properties of an object are those that its frame declares.

## Main statements

* `World.stocked_of_build`: all objects of a data frame that is built are stocked.
-/

namespace ReactiveFrames

open Script (Value)

namespace World

variable {enums : EnumTable} {w w' w'' u v : World} {o a : ObjectRef} {m : Member}
  {ms ms' : List Member}

/-! ## Stocked objects -/

/-- The object has a property for the member: for a literal one of its shape, and for a nested frame
the object of the frame, which is also a child. -/
structure Stores (w : World) (o : ObjectRef) (m : Member) : Prop where
  literal : ∀ l, m.literal? = some l →
    ∃ v, w.get? o m.name = some v ∧ l.Shows (fun s v ↦ v = s.toValue) w.heap v
  nested : ∀ g, m.frame? = some g → ∃ c, w.Child o c ∧ c.index < w.host.objects.size ∧
    (w.object c).frame = g ∧ w.get? o m.name = some (w.toValue c)

/-- Members are held in a world with the same property that has grown. -/
theorem Stores.congr (h : w.Stores a m) (hsize : w.host.objects.size ≤ w'.host.objects.size)
    (hheap : w.heap.Keeps w'.heap)
    (hframe : ∀ c : ObjectRef, c.index < w.host.objects.size →
      (w'.object c).frame = (w.object c).frame)
    (hchild : ∀ c, w.Child a c → w'.Child a c) (hget : w'.get? a m.name = w.get? a m.name) :
    w'.Stores a m where
  literal l hl := by
    obtain ⟨v, hv, hshows⟩ := h.literal l hl
    exact ⟨v, hget.trans hv, hshows.mono hheap⟩
  nested g hg := by
    obtain ⟨c, hc, hlt, hg, hv⟩ := h.nested g hg
    refine ⟨c, hchild c hc, hlt.trans_le hsize, (hframe c hlt).trans hg, hget.trans (hv.trans ?_)⟩
    rw [toValue, toValue, ReactiveObject.className, ReactiveObject.className, hframe c hlt]

/-- The object has what its frame declares, and besides only its name and its class. -/
structure Stocked (w : World) (o : ObjectRef) : Prop where
  names : ∀ p, p ∈ (w.object o).propertyNames ↔
    p ∈ (initialProperties (w.object o).className (w.object o).instanceName).names ∨
      p ∈ (w.object o).frame.members.map Member.name
  initial : ∀ p ∉ (w.object o).frame.members.map Member.name, w.get? o p
    = (initialProperties (w.object o).className (w.object o).instanceName).find? p
  stores : ∀ m ∈ (w.object o).frame.members, w.Stores o m

/-- An object that stays the same stays stocked. -/
theorem Stocked.congr (h : w.Stocked a) (hsize : w.host.objects.size ≤ w'.host.objects.size)
    (hheap : w.heap.Keeps w'.heap)
    (hframe : ∀ c : ObjectRef, c.index < w.host.objects.size →
      (w'.object c).frame = (w.object c).frame)
    (hobject : w'.object a = w.object a) : w'.Stocked a where
  names := by
    rw [hobject]
    exact h.names
  initial p hp := by
    rw [hobject] at hp ⊢
    rw [get?, hobject]
    exact h.initial p hp
  stores m hm := by
    rw [hobject] at hm
    exact (h.stores m hm).congr hsize hheap hframe (fun c hc ↦ by rwa [Child, hobject])
      (by rw [get?, get?, hobject])

/-! ## Building -/

theorem object_modify_of_lt (ho : o.index < w.host.objects.size)
    (f : ReactiveObject → ReactiveObject) (a : ObjectRef) :
    (w.modify o f).object a = if a = o then f (w.object o) else w.object a := by
  rw [object_modify]
  by_cases hao : a = o
  · rw [if_pos ⟨hao, ho⟩, if_pos hao, hao]
  · rw [if_neg fun hand ↦ hao hand.1, if_neg hao]

/-- Building members of an object adds what they declare to it. The other objects that were there
before stay the same, and the new ones are stocked. -/
structure Stocking (o : ObjectRef) (ms : List Member) (w w' : World) : Prop where
  size : w.host.objects.size ≤ w'.host.objects.size
  heap : w.heap.Keeps w'.heap
  others : ∀ a : ObjectRef, a ≠ o → a.index < w.host.objects.size → w'.object a = w.object a
  frame : (w'.object o).frame = (w.object o).frame
  child : ∀ c, w.Child o c → w'.Child o c
  names : ∀ p, p ∈ (w'.object o).propertyNames ↔
    p ∈ (w.object o).propertyNames ∨ p ∈ ms.map Member.name
  kept : ∀ p ∉ ms.map Member.name, w'.get? o p = w.get? o p
  stores : ∀ m ∈ ms, w'.Stores o m
  stocked : ∀ a : ObjectRef, w.host.objects.size ≤ a.index → a.index < w'.host.objects.size →
    w'.Stocked a

namespace Stocking

theorem frames (h : Stocking o ms w w') (c : ObjectRef) (hc : c.index < w.host.objects.size) :
    (w'.object c).frame = (w.object c).frame := by
  by_cases hco : c = o
  · rw [hco, h.frame]
  · rw [h.others c hco hc]

protected theorem nil (o : ObjectRef) (w : World) : Stocking o [] w w where
  size := le_rfl
  heap := .refl w.heap
  others _ _ _ := rfl
  frame := rfl
  child _ hc := hc
  names p := by simp
  kept _ _ := rfl
  stores m hm := absurd hm List.not_mem_nil
  stocked a ha ha' := absurd (ha.trans_lt ha') (lt_irrefl _)

/-- Members of other names come after a member. -/
protected theorem cons (ho : o.index < w.host.objects.size) (hm : m.name ∉ ms.map Member.name)
    (h : Stocking o [m] w w') (h' : Stocking o ms w' w'') : Stocking o (m :: ms) w w'' where
  size := h.size.trans h'.size
  heap := h.heap.trans h'.heap
  others a hne ha := (h'.others a hne (ha.trans_le h.size)).trans (h.others a hne ha)
  frame := h'.frame.trans h.frame
  child c hc := h'.child c (h.child c hc)
  names p := by
    rw [h'.names, h.names, or_assoc, List.map_singleton, List.mem_singleton, List.map_cons,
      List.mem_cons]
  kept p hp := by
    rw [List.map_cons, List.mem_cons, not_or] at hp
    rw [h'.kept p hp.2, h.kept p (by simpa using hp.1)]
  stores := by
    refine List.forall_mem_cons.2 ⟨?_, h'.stores⟩
    exact (h.stores m List.mem_cons_self).congr h'.size h'.heap h'.frames h'.child (h'.kept _ hm)
  stocked a ha ha' := by
    by_cases hnew : a.index < w'.host.objects.size
    · -- An object that the first member has brought is not touched by the further ones.
      have hne : a ≠ o := by
        rintro rfl
        omega
      exact (h.stocked a ha hnew).congr h'.size h'.heap h'.frames (h'.others a hne hnew)
    · exact h'.stocked a (Nat.le_of_not_lt hnew) ha'

/-- The object gets a property for a member, in place of one of the same name. -/
theorem of_insert {v : Value} (hsize : w.host.objects.size ≤ w'.host.objects.size)
    (hheap : w.heap.Keeps w'.heap)
    (hothers : ∀ a : ObjectRef, a ≠ o → a.index < w.host.objects.size → w'.object a = w.object a)
    (hframe : (w'.object o).frame = (w.object o).frame) (hchild : ∀ c, w.Child o c → w'.Child o c)
    (hput : (w'.object o).properties = (w.object o).properties.insert m.name v)
    (hstores : w'.get? o m.name = some v → w'.Stores o m)
    (hstocked : ∀ a : ObjectRef, w.host.objects.size ≤ a.index → a.index < w'.host.objects.size →
      w'.Stocked a) : Stocking o [m] w w' := by
  have hget (p : String) : w'.get? o p = if p = m.name then some v else w.get? o p := by
    rw [get?, hput, Table.find?_insert]
    rfl
  refine ⟨hsize, hheap, hothers, hframe, hchild, fun p ↦ ?_, fun p hp ↦ ?_,
    List.forall_mem_singleton.2 (hstores ((hget _).trans (if_pos rfl))), hstocked⟩
  · rw [ReactiveObject.propertyNames, hput, Table.mem_names_insert, List.map_singleton,
      List.mem_singleton, or_comm]
    rfl
  · rw [List.map_singleton, List.mem_singleton] at hp
    rw [hget, if_neg hp]

/-- A literal becomes a property of its shape. -/
theorem of_property {path name : String} {line : ℕ} {type : PropertyType} {l : Literal}
    {leaf : Option ScalarType} (hl : l.WellFormed enums leaf) (ho : o.index < w.host.objects.size)
    (hrecord : recordMember o path name w = .ok () u) :
    Stocking o [.property name line type l] w (storeLiteral o name l u) := by
  obtain ⟨-, rfl⟩ := recordMember_eq_ok hrecord
  obtain ⟨hkeeps, hshows⟩ := hl.shows (R := fun s v ↦ v = s.toValue) (fun s _ ↦ rfl) w.heap
  set x : ReactiveObject :=
    { w.object o with memberNames := (w.object o).memberNames ++ [name] }
  set v : World := w.modify o fun _ ↦ x
  have hv : v.host.objects.size = w.host.objects.size := size_modify ..
  have hobject (a : ObjectRef) : (storeLiteral o name l v).object a
      = if a = o then x.define name (l.toValue w.heap).1 else w.object a := by
    refine (object_modify_of_lt (w := { v with heap := _ }) (hv.symm ▸ ho) _ a).trans ?_
    change (if a = o then (v.object o).define name _ else v.object a) = _
    rw [object_modify_of_lt ho, object_modify_of_lt ho, if_pos rfl]
    split_ifs <;> rfl
  have hsize : (storeLiteral o name l v).host.objects.size = w.host.objects.size :=
    (size_modify ..).trans hv
  have hself := hobject o
  rw [if_pos rfl] at hself
  refine .of_insert (v := (l.toValue w.heap).1) hsize.ge hkeeps
    (fun a hao _ ↦ (hobject a).trans (if_neg hao)) ?_ (fun c hc ↦ ?_) ?_ (fun hget ↦ ?_)
    fun a ha ha' ↦ ?_
  · rw [hself]
    rfl
  · rw [Child, hself]
    exact hc
  · rw [hself]
    rfl
  · refine ⟨fun l' hl' ↦ ?_, fun g hg ↦ ?_⟩
    · cases hl'
      exact ⟨_, hget, hshows⟩
    · cases hg
  · rw [hsize] at ha'
    exact absurd (ha.trans_lt ha') (lt_irrefl _)

/-- A new object is stocked once its members have been built. -/
theorem stocked_of_new {f : Frame} {path : String} (hnew : w.object o = .ofFrame f path)
    (h : Stocking o f.members w w') : w'.Stocked o := by
  have hframe : (w'.object o).frame = f := by
    rw [h.frame, hnew]
    rfl
  refine ⟨fun p ↦ ?_, fun p hp ↦ ?_, fun m hm ↦ ?_⟩
  · rw [h.names, hnew, ReactiveObject.className, ReactiveObject.instanceName, hframe]
    rfl
  · rw [hframe] at hp
    rw [h.kept p hp, get?, hnew, ReactiveObject.className, ReactiveObject.instanceName, hframe]
    rfl
  · exact h.stores m (hframe ▸ hm)

/-- The members of a new object have been built: what was there before is the same, and all that is
new is stocked. -/
theorem of_addObject {f : Frame} {path : String}
    (h : Stocking ⟨u.host.objects.size⟩ f.members (addObject (.ofFrame f path) u).2 v) :
    u.host.objects.size < v.host.objects.size ∧
      (∀ a : ObjectRef, a.index < u.host.objects.size → v.object a = u.object a) ∧
      (v.object ⟨u.host.objects.size⟩).frame = f ∧
      ∀ a : ObjectRef, u.host.objects.size ≤ a.index → a.index < v.host.objects.size →
        v.Stocked a := by
  have hnew : (addObject (.ofFrame f path) u).2.object ⟨u.host.objects.size⟩ = .ofFrame f path :=
    object_addObject_self u f path
  refine ⟨?_, fun a ha ↦ ?_, ?_, fun a ha ha' ↦ ?_⟩
  · exact lt_size_addObject.trans_le h.size
  · obtain ⟨hne, hlt, hobject⟩ := addObject_of_lt f path ha
    rw [h.others a hne hlt, hobject]
  · rw [h.frame, hnew]
    rfl
  · rcases eq_or_size_addObject_le f path ha with rfl | hle
    · exact h.stocked_of_new hnew
    · exact h.stocked a hle ha'

/-- A nested frame becomes a property that holds its object. -/
theorem of_frame {path path' name : String} {line : ℕ} {className : String}
    {members : List Member} (ho : o.index < w.host.objects.size)
    (hrecord : recordMember o path name w = .ok () u)
    (h : Stocking ⟨u.host.objects.size⟩ members
      (addObject (.ofFrame ⟨className, name, members⟩ path') u).2 v) :
    Stocking o [.frame name line className members] w (v.addChild o ⟨u.host.objects.size⟩) := by
  obtain ⟨hlt, hbefore, hframe, hstocked⟩ := of_addObject (f := ⟨className, name, members⟩) h
  have hheap : u.heap.Keeps v.heap := h.heap
  obtain ⟨-, rfl⟩ := recordMember_eq_ok hrecord
  have hsize := w.size_modify o fun _ ↦
    { w.object o with memberNames := (w.object o).memberNames ++ [name] }
  have hrecorded := object_modify_of_lt ho fun _ ↦
    { w.object o with memberNames := (w.object o).memberNames ++ [name] }
  rw [hsize] at hlt hbefore hframe hstocked ⊢
  set c : ObjectRef := ⟨w.host.objects.size⟩
  have hobject (a : ObjectRef) : (v.addChild o c).object a = _ := object_addChild (ho.trans hlt) a
  have hself := hobject o
  rw [if_pos rfl, hbefore o ho, hrecorded, if_pos rfl, ReactiveObject.instanceName, hframe] at hself
  have hframes (a : ObjectRef) : ((v.addChild o c).object a).frame = (v.object a).frame := by
    rw [hobject]
    split_ifs <;> rfl
  refine .of_insert (v := v.toValue c) ?_ hheap (fun a hao ha ↦ ?_) ?_ (fun b hb ↦ ?_) ?_
    (fun hget ↦ ?_) fun a ha ha' ↦ ?_
  · rw [size_addChild]
    exact hlt.le
  · rw [hobject, if_neg hao, hbefore a ha, hrecorded, if_neg hao]
  · rw [hself]
    rfl
  · rw [Child, hself]
    exact List.mem_append_left _ hb
  · rw [hself]
    rfl
  · refine ⟨fun l hl ↦ ?_, fun g hg ↦ ?_⟩
    · cases hl
    · cases hg
      refine ⟨c, ?_, ?_, (hframes c).trans hframe, hget.trans ?_⟩
      · rw [Child, hself]
        exact List.mem_append_right _ (List.mem_singleton_self c)
      · rw [size_addChild]
        exact hlt
      · rw [toValue, toValue, ReactiveObject.className, ReactiveObject.className, hframes]
  · rw [size_addChild] at ha'
    have hao : a ≠ o := by
      rintro rfl
      omega
    exact (hstocked a ha ha').congr size_addChild.ge (.refl _) (fun b _ ↦ hframes b)
      ((hobject a).trans (if_neg hao))

end Stocking

mutual

theorem stocking_of_buildMember {o : ObjectRef} {path : String} {n n' : ℕ} {w w' : World}
    {m : Member} (hm : m.IsData enums) (ho : o.index < w.host.objects.size)
    (h : buildMember o path n m w = .ok n' w') : Stocking o [m] w w' := by
  match m with
  | .property name line type l =>
    obtain ⟨u, hrecord, rfl⟩ := exists_record_of_property h
    cases hm with
    | property hl => exact .of_property hl ho hrecord
  | .function .. => cases hm
  | .frame name line className members =>
    obtain ⟨u, v, hrecord, hmembers, rfl⟩ := exists_record_of_frame h
    cases hm with
    | frame hnames hdata =>
      have hchild := stocking_of_buildMembers hdata hnames lt_size_addObject hmembers
      exact .of_frame ho hrecord hchild

theorem stocking_of_buildMembers {o : ObjectRef} {path : String} {n n' : ℕ} {w w' : World}
    {ms : List Member} (hms : ∀ m ∈ ms, m.IsData enums) (hnames : (ms.map Member.name).Nodup)
    (ho : o.index < w.host.objects.size) (h : buildMembers o path n ms w = .ok n' w') :
    Stocking o ms w w' := by
  match ms with
  | [] =>
    cases h
    exact .nil o w
  | m :: ms =>
    obtain ⟨k, u, hm, hrest⟩ := Run.bind_eq_ok.1 h
    rw [List.forall_mem_cons] at hms
    rw [List.map_cons, List.nodup_cons] at hnames
    have hfirst := stocking_of_buildMember hms.1 ho hm
    exact hfirst.cons ho hnames.1
      (stocking_of_buildMembers hms.2 hnames.2 (ho.trans_le hfirst.size) hrest)

end

/-- All objects of a data frame that is built are stocked. -/
theorem stocked_of_build {f : Frame} {root : ObjectRef} (hnames : f.NamesDiffer)
    (hmembers : ∀ m ∈ f.members, m.IsData enums) (h : build f w = .ok root w') (o : ObjectRef)
    (ho : w.host.objects.size ≤ o.index) (ho' : o.index < w'.host.objects.size) :
    w'.Stocked o := by
  obtain ⟨rfl, k, hbuild⟩ := exists_members_of_build h
  have hstocking := stocking_of_buildMembers hmembers hnames lt_size_addObject hbuild
  exact hstocking.of_addObject.2.2.2 o ho ho'

end World

end ReactiveFrames
