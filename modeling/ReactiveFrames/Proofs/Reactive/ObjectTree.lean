import ReactiveFrames.Proofs.Frame.Printing
import ReactiveFrames.Proofs.Frame.Typing
import ReactiveFrames.Proofs.Reactive.Building

/-!
# Trees of objects

The objects of a frame are nested like the frames: the children of an object are the objects of the
nested frames of its frame, in order, each at the path of the object with its own name after a point
(`World.Planted`). The names of members are distinct, so a list of names leads to one object at
most, and a path without points in its names is the path of one object at most.

Whatever runs while objects are built places no object elsewhere, so this holds in every world in
which a frame is built, whether other objects are there or not.

## Main definitions

* `World.walk?`: the object to which names of nested objects lead.
* `World.Planted`: an object whose children are the objects of the nested frames.

## Main statements

* `World.isTreeOf_of_build`: all objects of a frame that is built are planted.
* `World.eq_of_path_eq`: objects of a tree are told apart by their paths.
-/

namespace ReactiveFrames

open Script (Value)
open Relation (ReflTransGen)

/-! ## Paths of names -/

/-- A path that goes on with names, each after a point. -/
def dotted (path : String) (names : List String) : String :=
  names.foldl (fun path name ↦ path ++ "." ++ name) path

theorem dotted_append (path : String) (names more : List String) :
    dotted path (names ++ more) = dotted (dotted path names) more := List.foldl_append

theorem toList_dotted (path : String) (names : List String) :
    (dotted path names).toList = path.toList ++ names.flatMap fun n ↦ '.' :: n.toList := by
  induction names generalizing path with
  | nil => simp [dotted]
  | cons n names ih =>
    rw [← List.singleton_append, dotted_append, ih]
    simp [dotted]

theorem intercalate_cons_eq_dotted (first : String) (names : List String) :
    ".".intercalate (first :: names) = dotted first names := by
  rw [← String.toList_inj, toList_intercalate_cons, toList_dotted]
  rfl

private theorem eq_of_append_dot {a b s t : List Char} (ha : '.' ∉ a) (hb : '.' ∉ b)
    (h : a ++ '.' :: s = b ++ '.' :: t) : a = b ∧ s = t := by
  induction a generalizing b with
  | nil =>
    cases b with
    | nil => exact ⟨rfl, (List.cons.inj h).2⟩
    | cons c b => exact absurd ((List.cons.inj h).1 ▸ List.mem_cons_self) hb
  | cons c a ih =>
    cases b with
    | nil => exact absurd ((List.cons.inj h).1 ▸ List.mem_cons_self) ha
    | cons d b =>
      obtain ⟨rfl, hrest⟩ := List.cons.inj h
      obtain ⟨rfl, rfl⟩ := ih (fun hmem ↦ ha (List.mem_cons_of_mem _ hmem))
        (fun hmem ↦ hb (List.mem_cons_of_mem _ hmem)) hrest
      exact ⟨rfl, rfl⟩

/-- Names without points, each with a point after it, are read off the text again. -/
private theorem eq_of_flatMap_dot {names names' : List String} (h : ∀ n ∈ names, IsDotless n)
    (h' : ∀ n ∈ names', IsDotless n)
    (heq : (names.flatMap fun n ↦ n.toList ++ ['.']) = names'.flatMap fun n ↦ n.toList ++ ['.']) :
    names = names' := by
  induction names generalizing names' with
  | nil =>
    cases names' with
    | nil => rfl
    | cons n names' => simp at heq
  | cons n names ih =>
    cases names' with
    | nil => simp at heq
    | cons n' names' =>
      obtain ⟨hn, hnames⟩ := List.forall_mem_cons.1 h
      obtain ⟨hn', hnames'⟩ := List.forall_mem_cons.1 h'
      rw [List.flatMap_cons, List.flatMap_cons, List.append_assoc, List.append_assoc] at heq
      obtain ⟨hname, hrest⟩ := eq_of_append_dot hn hn' heq
      rw [String.toList_inj.1 hname, ih hnames hnames' hrest]

/-- A path of names without points is the path of no other names. -/
theorem dotted_inj {first first' : String} {names names' : List String}
    (h : ∀ n ∈ first :: names, IsDotless n) (h' : ∀ n ∈ first' :: names', IsDotless n)
    (heq : dotted first names = dotted first' names') : first = first' ∧ names = names' := by
  have hdots (first : String) (names : List String) : (dotted first names).toList ++ ['.']
      = (first :: names).flatMap fun n ↦ n.toList ++ ['.'] := by
    rw [toList_dotted, List.flatMap_cons, List.append_assoc, List.append_assoc]
    induction names with
    | nil => rfl
    | cons n names ih => simpa using ih
  refine List.cons.inj (eq_of_flatMap_dot h h' ?_)
  rw [← hdots, ← hdots, heq]

/-! ## Planted objects -/

/-- What places an object in a tree. -/
def ReactiveObject.place (x : ReactiveObject) : Frame × String × List String × List ObjectRef :=
  (x.frame, x.path, x.memberNames, x.children)

namespace World

variable {w w' w'' : World} {o : ObjectRef}

/-- There are the same objects, in the same places. -/
structure SamePlaces (w w' : World) : Prop where
  size : w'.host.objects.size = w.host.objects.size
  place : ∀ a, (w'.object a).place = (w.object a).place

theorem SameWiring.samePlaces (h : w.SameWiring w') : w.SamePlaces w' :=
  ⟨h.size, fun a ↦ (congrArg ReactiveObject.place (h.wiring a) :)⟩

theorem object_addObject_self (w : World) (f : Frame) (path : String) :
    (addObject (.ofFrame f path) w).2.object (addObject (.ofFrame f path) w).1
      = .ofFrame f path :=
  (object_addObject _).trans (if_pos rfl)

theorem samePlaces_modify (w : World) (o : ObjectRef) {f : ReactiveObject → ReactiveObject}
    (hf : ∀ x, (f x).place = x.place) : w.SamePlaces (w.modify o f) := by
  refine ⟨w.size_modify o f, fun a ↦ ?_⟩
  rw [object_modify]
  split_ifs
  · exact hf _
  · rfl

/-- The children of the object are the objects of the frames that are nested in its own. They are
newer than the object. -/
structure Planted (w : World) (o : ObjectRef) : Prop where
  names : ((w.object o).frame.members.map Member.name).Nodup
  frames : ((w.object o).children.map fun c ↦ (w.object c).frame) = (w.object o).frame.children
  path : ∀ c ∈ (w.object o).children,
    (w.object c).path = (w.object o).path ++ "." ++ (w.object c).instanceName
  newer : ∀ c ∈ (w.object o).children, o.index < c.index ∧ c.index < w.host.objects.size

/-- Objects stay planted while none from there on is placed elsewhere. -/
theorem Planted.congr (h : w.Planted o) (ho : o.index < w.host.objects.size)
    (hsize : w.host.objects.size ≤ w'.host.objects.size)
    (hplace : ∀ a : ObjectRef, o.index ≤ a.index → a.index < w.host.objects.size →
      (w'.object a).place = (w.object a).place) : w'.Planted o := by
  have hchildren : (w'.object o).children = (w.object o).children :=
    congrArg (fun p ↦ p.2.2.2) (hplace o le_rfl ho)
  have hframe (a : ObjectRef) (ha : o.index ≤ a.index) (ha' : a.index < w.host.objects.size) :
      (w'.object a).frame = (w.object a).frame := congrArg (fun p ↦ p.1) (hplace a ha ha')
  have hpath (a : ObjectRef) (ha : o.index ≤ a.index) (ha' : a.index < w.host.objects.size) :
      (w'.object a).path = (w.object a).path := congrArg (fun p ↦ p.2.1) (hplace a ha ha')
  refine ⟨?_, ?_, fun c hc ↦ ?_, fun c hc ↦ ?_⟩
  · rw [hframe o le_rfl ho]
    exact h.names
  · rw [hchildren, hframe o le_rfl ho, ← h.frames]
    exact List.map_congr_left fun c hc ↦ hframe c (h.newer c hc).1.le (h.newer c hc).2
  all_goals rw [hchildren] at hc; obtain ⟨hlt, hc'⟩ := h.newer c hc
  · rw [hpath c hlt.le hc', hpath o le_rfl ho, ReactiveObject.instanceName, hframe c hlt.le hc']
    exact h.path c hc
  · exact ⟨hlt, hc'.trans_le hsize⟩

/-- Building members of an object adds the objects of the nested frames among them as children, and
leaves the objects that were there before in their places. -/
structure Planting (o : ObjectRef) (ms : List Member) (w w' : World) : Prop where
  size : w.host.objects.size ≤ w'.host.objects.size
  old : ∀ a : ObjectRef, a ≠ o → a.index < w.host.objects.size →
    (w'.object a).place = (w.object a).place
  frame : (w'.object o).frame = (w.object o).frame
  path : (w'.object o).path = (w.object o).path
  names : (w'.object o).memberNames = (w.object o).memberNames ++ ms.map Member.name
  nodup : (w.object o).memberNames.Nodup → (w'.object o).memberNames.Nodup
  children : ∃ cs, (w'.object o).children = (w.object o).children ++ cs ∧
    (cs.map fun c ↦ (w'.object c).frame) = ms.filterMap Member.frame? ∧
      ∀ c ∈ cs, (w'.object c).path = (w'.object o).path ++ "." ++ (w'.object c).instanceName ∧
        w.host.objects.size ≤ c.index ∧ c.index < w'.host.objects.size
  planted : ∀ a : ObjectRef, w.host.objects.size ≤ a.index → a.index < w'.host.objects.size →
    w'.Planted a

namespace Planting

variable {ms ms' : List Member}

protected theorem trans (ho : o.index < w.host.objects.size) (h : Planting o ms w w')
    (h' : Planting o ms' w' w'') : Planting o (ms ++ ms') w w'' := by
  have hkept (a : ObjectRef) (ha : w.host.objects.size ≤ a.index)
      (ha' : a.index < w'.host.objects.size) : (w''.object a).place = (w'.object a).place := by
    refine h'.old a ?_ ha'
    rintro rfl
    omega
  refine ⟨h.size.trans h'.size, fun a ha ha' ↦ ?_, h'.frame.trans h.frame, h'.path.trans h.path, ?_,
    fun hnodup ↦ h'.nodup (h.nodup hnodup), ?_, fun a ha ha' ↦ ?_⟩
  · exact (h'.old a ha (ha'.trans_le h.size)).trans (h.old a ha ha')
  · rw [h'.names, h.names, List.map_append, List.append_assoc]
  · obtain ⟨cs, hcs, hframes, hpaths⟩ := h.children
    obtain ⟨cs', hcs', hframes', hpaths'⟩ := h'.children
    refine ⟨cs ++ cs', by rw [hcs', hcs, List.append_assoc], ?_, fun c hc ↦ ?_⟩
    · rw [List.map_append, List.filterMap_append, ← hframes, ← hframes']
      congr 1
      refine List.map_congr_left fun c hc ↦ ?_
      exact congrArg (fun p ↦ p.1) (hkept c (hpaths c hc).2.1 (hpaths c hc).2.2)
    · rcases List.mem_append.1 hc with hc | hc
      · obtain ⟨hpath, hlo, hhi⟩ := hpaths c hc
        have hplace := hkept c hlo hhi
        have hframe : (w''.object c).frame = (w'.object c).frame := congrArg (fun p ↦ p.1) hplace
        have hpath' : (w''.object c).path = (w'.object c).path := congrArg (fun p ↦ p.2.1) hplace
        rw [ReactiveObject.instanceName, hframe, hpath', h'.path]
        exact ⟨hpath, hlo, hhi.trans_le h'.size⟩
      · obtain ⟨hpath, hlo, hhi⟩ := hpaths' c hc
        exact ⟨hpath, h.size.trans hlo, hhi⟩
  · by_cases hnew : a.index < w'.host.objects.size
    · exact (h.planted a ha hnew).congr hnew h'.size fun b hb hb' ↦ hkept b (ha.trans hb) hb'
    · exact h'.planted a (Nat.le_of_not_lt hnew) ha'

/-- A new object is planted once its members have been built. -/
theorem planted_of_new {f : Frame} {path : String} (ho : o.index < w.host.objects.size)
    (hnew : w.object o = .ofFrame f path) (h : Planting o f.members w w') : w'.Planted o := by
  have hframe : (w'.object o).frame = f := by
    rw [h.frame, hnew]
    rfl
  obtain ⟨cs, hcs, hframes, hpaths⟩ := h.children
  have hchildren : (w'.object o).children = cs := by
    rw [hcs, hnew]
    rfl
  have hnames : (w'.object o).memberNames = f.members.map Member.name := by
    rw [h.names, hnew]
    rfl
  refine ⟨?_, ?_, fun c hc ↦ ?_, fun c hc ↦ ?_⟩
  · rw [hframe, ← hnames]
    refine h.nodup ?_
    rw [hnew]
    exact List.nodup_nil
  · rw [hchildren, hframe]
    exact hframes
  all_goals rw [hchildren] at hc
  · exact (hpaths c hc).1
  · exact ⟨ho.trans_le (hpaths c hc).2.1, (hpaths c hc).2.2⟩

/-- A member that is no frame adds its name only. -/
theorem of_recordMember {m : Member} {path : String} (hm : m.frame? = none)
    (ho : o.index < w.host.objects.size) (h : recordMember o path m.name w = .ok () w')
    (hplaces : w'.SamePlaces w'') : Planting o [m] w w'' := by
  obtain ⟨hname, rfl⟩ := recordMember_eq_ok h
  have hobject (a : ObjectRef) := object_modify w o a fun _ ↦
    { w.object o with memberNames := (w.object o).memberNames ++ [m.name] }
  have hself := hplaces.place o
  rw [hobject, if_pos ⟨rfl, ho⟩] at hself
  have hsize : w''.host.objects.size = w.host.objects.size := hplaces.size.trans (w.size_modify o _)
  have hnames : (w''.object o).memberNames = (w.object o).memberNames ++ [m.name] :=
    congrArg (fun p ↦ p.2.2.1) hself
  refine ⟨hsize.ge, fun a ha ha' ↦ ?_, congrArg (fun p ↦ p.1) hself,
    congrArg (fun p ↦ p.2.1) hself, hnames, fun hnodup ↦ ?_, ⟨[], ?_, ?_, nofun⟩,
    fun a ha ha' ↦ by omega⟩
  · rw [hplaces.place a, hobject, if_neg fun h ↦ ha h.1]
  · rw [hnames]
    refine List.nodup_append.2 ⟨hnodup, List.nodup_singleton _, fun a ha b hb ↦ ?_⟩
    rintro rfl
    exact hname (List.mem_singleton.1 hb ▸ ha)
  · rw [List.append_nil]
    exact congrArg (fun p ↦ p.2.2.2) hself
  · rw [List.filterMap_cons, hm]
    rfl

/-- A nested frame becomes a child, with all that has been built below it. -/
theorem of_frame {u v : World} {name : String} {line : Nat} {className : String}
    {members : List Member} (ho : o.index < w.host.objects.size)
    (hrecord : recordMember o (w.object o).path name w = .ok () u)
    (h : Planting ⟨u.host.objects.size⟩ members
      (addObject (.ofFrame ⟨className, name, members⟩ ((w.object o).path ++ "." ++ name)) u).2 v) :
    Planting o [.frame name line className members] w (v.addChild o ⟨u.host.objects.size⟩) := by
  -- The name of the frame is recorded as that of any other member is.
  have hu : Planting o [.function name line (.init none "")] w u :=
    of_recordMember rfl ho hrecord ⟨rfl, fun _ ↦ rfl⟩
  have husize : u.host.objects.size = w.host.objects.size := by
    obtain ⟨-, rfl⟩ := recordMember_eq_ok hrecord
    exact size_modify w o _
  have hvsize := h.size
  rw [size_addObject] at hvsize
  have hov : o.index < v.host.objects.size := by omega
  have hsize : (v.addChild o ⟨u.host.objects.size⟩).host.objects.size = v.host.objects.size :=
    size_addChild
  have hobject (a : ObjectRef) : (v.addChild o ⟨u.host.objects.size⟩).object a = _ :=
    object_addChild hov a
  have hnew : (addObject (.ofFrame ⟨className, name, members⟩ ((w.object o).path ++ "." ++ name))
      u).2.object ⟨u.host.objects.size⟩ = _ := object_addObject_self u _ _
  have hne (a : ObjectRef) (ha : w.host.objects.size ≤ a.index) : a ≠ o := by
    rintro rfl
    omega
  have hbefore (a : ObjectRef) (ha : a.index < w.host.objects.size) :
      (v.object a).place = (u.object a).place := by
    obtain ⟨hne, hlt, hobject⟩ := addObject_of_lt ⟨className, name, members⟩
      ((w.object o).path ++ "." ++ name) (husize.symm ▸ ha)
    rw [h.old a hne hlt, hobject]
  have hself : (v.object o).frame = (u.object o).frame ∧ (v.object o).path = (u.object o).path ∧
      (v.object o).memberNames = (u.object o).memberNames ∧
        (v.object o).children = (u.object o).children := by
    simpa only [ReactiveObject.place, Prod.mk.injEq] using hbefore o ho
  obtain ⟨hframe, hpath, hnames, hchildren⟩ := hself
  have hnone : (u.object o).children = (w.object o).children := by
    obtain ⟨cs, hcs, hframes, -⟩ := hu.children
    rw [List.map_eq_nil_iff.1 hframes, List.append_nil] at hcs
    exact hcs
  have hparent := hobject o
  rw [if_pos rfl] at hparent
  have hchild := hobject ⟨u.host.objects.size⟩
  rw [if_neg (hne ⟨u.host.objects.size⟩ husize.ge)] at hchild
  refine ⟨by omega, fun a ha ha' ↦ ?_, ?_, ?_, ?_, fun hnodup ↦ ?_,
    ⟨[⟨u.host.objects.size⟩], ?_, ?_, fun c hc ↦ ?_⟩, fun a ha ha' ↦ ?_⟩
  · rw [hobject, if_neg ha, hbefore a ha', hu.old a ha ha']
  · rw [hparent]
    exact hframe.trans hu.frame
  · rw [hparent]
    exact hpath.trans hu.path
  · rw [hparent]
    exact hnames.trans hu.names
  · rw [hparent]
    exact hnames ▸ hu.nodup hnodup
  · rw [hparent, ← hnone, ← hchildren]
  · rw [List.map_singleton, hchild, h.frame, hnew]
    rfl
  · rw [List.mem_singleton.1 hc, hchild, hparent]
    refine ⟨?_, husize.ge, by rw [hsize]; exact hvsize⟩
    rw [ReactiveObject.instanceName, h.frame, h.path, hnew]
    exact congrArg (· ++ "." ++ name) (hpath.trans hu.path).symm
  · rw [hsize] at ha'
    have hplanted : v.Planted a := by
      rcases eq_or_size_addObject_le ⟨className, name, members⟩ ((w.object o).path ++ "." ++ name)
        (husize.le.trans ha) with rfl | hle
      · exact planted_of_new lt_size_addObject hnew h
      · exact h.planted a hle ha'
    refine hplanted.congr ha' hsize.ge fun b hb _ ↦ ?_
    rw [hobject, if_neg (hne b (ha.trans hb))]

end Planting

/-! ## Building -/

/-- Writes wire no object differently. -/
theorem writeClosed_sameWiring (w : World) : WriteClosed w.SameWiring where
  drifts _ _ hd hw := hw.trans (.of_objects hd.objects)
  set o p v u hu hr :=
    ⟨hu.trans (keeps_setWithin _ _ _ o p v u hr).toSameWiring, .of_forall fun _ ↦ rfl⟩

theorem samePlaces_of_compileFunction {path name : String} {f : Function} {n : Nat}
    {callable : Value} (h : compileFunction path name f n w = .ok callable w') :
    w.SamePlaces w' := by
  have hclosed := writeClosed_sameWiring w
  have hwiring := (preserves_compileFunction hclosed.drifts.growthClosed.failures hclosed.evaluate
    path name f n).of_ok (.refl w) h
  exact hwiring.samePlaces

theorem samePlaces_storeFunction (w : World) (o : ObjectRef) (name : String) (f : Function)
    (callable : Value) : w.SamePlaces (storeFunction o name f callable w) := by
  cases f with
  | init => exact w.samePlaces_modify o fun _ ↦ rfl
  | listener => exact w.samePlaces_modify o fun _ ↦ rfl
  | event => exact w.samePlaces_modify o fun _ ↦ rfl
  | procedure => exact w.samePlaces_modify o fun _ ↦ rfl

theorem samePlaces_storeLiteral (w : World) (o : ObjectRef) (name : String) (value : Literal) :
    w.SamePlaces (storeLiteral o name value w) := by
  have hmodify := samePlaces_modify { w with heap := (value.toValue w.heap).2 } o
    (f := (·.define name (value.toValue w.heap).1)) fun _ ↦ rfl
  exact ⟨hmodify.size, hmodify.place⟩

protected theorem SamePlaces.trans (h : w.SamePlaces w') (h' : w'.SamePlaces w'') :
    w.SamePlaces w'' :=
  ⟨h'.size.trans h.size, fun a ↦ (h'.place a).trans (h.place a)⟩

mutual

theorem planting_of_buildMember {o : ObjectRef} {path : String} {n n' : Nat} {w w' : World}
    (m : Member) (ho : o.index < w.host.objects.size) (hpath : (w.object o).path = path)
    (h : buildMember o path n m w = .ok n' w') : Planting o [m] w w' := by
  match m with
  | .property name line type value =>
    obtain ⟨u, hrecord, rfl⟩ := exists_record_of_property h
    exact .of_recordMember (m := .property name line type value) rfl ho hrecord
      (samePlaces_storeLiteral ..)
  | .function name line f =>
    obtain ⟨u, callable, v, hrecord, hcompile, rfl⟩ := exists_record_of_function h
    exact .of_recordMember (m := .function name line f) rfl ho hrecord
      ((samePlaces_of_compileFunction hcompile).trans (samePlaces_storeFunction ..))
  | .frame name line className members =>
    subst hpath
    obtain ⟨u, v, hrecord, hmembers, rfl⟩ := exists_record_of_frame h
    refine .of_frame ho hrecord (planting_of_buildMembers members lt_size_addObject ?_ hmembers)
    rw [object_addObject, if_pos rfl]
    rfl

theorem planting_of_buildMembers {o : ObjectRef} {path : String} {n n' : Nat} {w w' : World}
    (ms : List Member) (ho : o.index < w.host.objects.size) (hpath : (w.object o).path = path)
    (h : buildMembers o path n ms w = .ok n' w') : Planting o ms w w' := by
  match ms with
  | [] =>
    cases h
    exact ⟨le_rfl, fun _ _ _ ↦ rfl, rfl, rfl, (List.append_nil _).symm, id,
      ⟨[], (List.append_nil _).symm, rfl, nofun⟩, fun a ha ha' ↦ by omega⟩
  | m :: ms =>
    obtain ⟨k, u, hm, hms⟩ := Run.bind_eq_ok.1 h
    have hplanting := planting_of_buildMember m ho hpath hm
    exact hplanting.trans ho (planting_of_buildMembers ms (ho.trans_le hplanting.size)
      (hplanting.path.trans hpath) hms)

end

/-- A tree of planted objects that are the objects of a frame and of the frames in it. -/
structure IsTreeOf (w : World) (root : ObjectRef) (f : Frame) : Prop where
  frame : (w.object root).frame = f
  path : (w.object root).path = f.instanceName
  size : root.index < w.host.objects.size
  planted : ∀ o, w.Below root o → w.Planted o

/-- All objects of a frame that is built are planted. -/
theorem isTreeOf_of_build {f : Frame} {root : ObjectRef} (h : build f w = .ok root w') :
    w'.IsTreeOf root f := by
  obtain ⟨rfl, k, hmembers⟩ := exists_members_of_build h
  have hnew := object_addObject_self w f f.instanceName
  have hsize : (addObject (.ofFrame f f.instanceName) w).1.index
      < (addObject (.ofFrame f f.instanceName) w).2.host.objects.size := lt_size_addObject
  have hplanting := planting_of_buildMembers f.members hsize (by rw [hnew]; rfl) hmembers
  have hroot := hplanting.planted_of_new hsize hnew
  -- All objects from the root on are new, and the children of new objects are.
  have hbelow (o : ObjectRef) (ho : w'.Below (addObject (.ofFrame f f.instanceName) w).1 o) :
      w.host.objects.size ≤ o.index ∧ w'.Planted o := by
    induction ho with
    | refl => exact ⟨le_rfl, hroot⟩
    | tail _ hc ih =>
      obtain ⟨hlt, hsize'⟩ := ih.2.newer _ hc
      refine ⟨ih.1.trans hlt.le, hplanting.planted _ ?_ hsize'⟩
      rw [size_addObject]
      exact Nat.succ_le_of_lt (ih.1.trans_lt hlt)
  refine ⟨?_, ?_, hsize.trans_le hplanting.size, fun o ho ↦ (hbelow o ho).2⟩
  · rw [hplanting.frame, hnew]
    rfl
  · rw [hplanting.path, hnew]
    rfl

/-! ## Walks -/

/-- Object to which names of nested objects lead, one after the other. -/
def walk? (w : World) : ObjectRef → List String → Option ObjectRef
  | o, [] => some o
  | o, name :: names => (w.child? o name).bind fun c ↦ w.walk? c names

theorem walk?_append (o : ObjectRef) (names more : List String) :
    w.walk? o (names ++ more) = (w.walk? o names).bind (w.walk? · more) := by
  induction names generalizing o with
  | nil => rfl
  | cons n names ih =>
    rw [List.cons_append, walk?, walk?, Option.bind_assoc]
    exact congrArg _ (funext fun c ↦ ih c)

private theorem sublist_map_name (ms : List Member) :
    ((ms.filterMap Member.frame?).map Frame.instanceName).Sublist (ms.map Member.name) := by
  induction ms with
  | nil => exact .slnil
  | cons m ms ih =>
    cases m with
    | frame => exact ih.cons_cons _
    | property => exact ih.cons _
    | function => exact ih.cons _

/-- A name is the name of one child at most. -/
theorem Planted.child?_eq_some (h : w.Planted o) {c : ObjectRef} {name : String} :
    w.child? o name = some c ↔ w.Child o c ∧ (w.object c).instanceName = name := by
  have hnodup : ((w.object o).children.map fun c ↦ (w.object c).instanceName).Nodup := by
    have hnames := (sublist_map_name (w.object o).frame.members).nodup h.names
    change ((w.object o).frame.children.map Frame.instanceName).Nodup at hnames
    rwa [← h.frames, List.map_map] at hnames
  constructor
  · intro hc
    exact ⟨List.mem_of_find?_eq_some hc, of_decide_eq_true (List.find?_some hc :)⟩
  · rintro ⟨hc, rfl⟩
    obtain ⟨d, hd⟩ : ∃ d, w.child? o (w.object c).instanceName = some d := by
      rw [← Option.isSome_iff_exists]
      exact List.find?_isSome.2 ⟨c, hc, by simp⟩
    have hname : (w.object d).instanceName = (w.object c).instanceName :=
      of_decide_eq_true (List.find?_some hd :)
    rw [hd, List.inj_on_of_nodup_map hnodup (List.mem_of_find?_eq_some hd) hc hname]

/-- A child is the object of a member of the frame. -/
theorem Planted.exists_member (h : w.Planted o) {c : ObjectRef} (hc : w.Child o c) :
    ∃ m ∈ (w.object o).frame.members, m.frame? = some (w.object c).frame := by
  have hmem : (w.object c).frame ∈ (w.object o).frame.children := by
    rw [← h.frames]
    exact List.mem_map_of_mem hc
  exact List.mem_filterMap.1 hmem

section Tree

variable {enums : EnumTable} {f : Frame} {root a b : ObjectRef} {names : List String}

/-- What holds of the members of the root, and passes from a nested frame to its members, holds of
the members of all frames of a tree. -/
theorem IsTreeOf.forall_members {Q : Member → Prop} (h : w.IsTreeOf root f)
    (hf : ∀ m ∈ f.members, Q m)
    (hnested : ∀ m, Q m → ∀ g, m.frame? = some g → ∀ m' ∈ g.members, Q m') (ho : w.Below root o) :
    ∀ m ∈ (w.object o).frame.members, Q m := by
  induction ho with
  | refl =>
    rw [h.frame]
    exact hf
  | @tail o c ho hc ih =>
    obtain ⟨m, hm, hframe⟩ := (h.planted o ho).exists_member hc
    exact hnested m (ih m hm) _ hframe

/-- The members of all frames of a tree are well-formed if those of its root are. -/
theorem IsTreeOf.wellFormed (h : w.IsTreeOf root f) (hf : f.WellFormed enums)
    (ho : w.Below root o) : ∀ m ∈ (w.object o).frame.members, m.WellFormed enums := by
  refine h.forall_members hf.members (fun m hm g hg ↦ ?_) ho
  cases hm with
  | property => cases hg
  | function => cases hg
  | frame hname hclass hmembers =>
    cases hg
    exact hmembers

theorem IsTreeOf.isDotless (h : w.IsTreeOf root f) (hf : f.WellFormed enums)
    (ho : w.Below root o) : IsDotless (w.object o).instanceName := by
  rcases ReflTransGen.cases_tail ho with rfl | ⟨p, hp, hc⟩
  · rw [ReactiveObject.instanceName, h.frame]
    exact isDotless_of_isWord hf.isWord
  · obtain ⟨m, hm, hframe⟩ := (h.planted p hp).exists_member hc
    have hm := (h.wellFormed hf hp m hm).wellTyped
    rw [ReactiveObject.instanceName, (hm.frame _ hframe).1]
    exact hm.name

theorem IsTreeOf.path_root (h : w.IsTreeOf root f) :
    (w.object root).path = (w.object root).instanceName := by
  rw [h.path, ReactiveObject.instanceName, h.frame]

/-- Where a walk in a tree leads to. -/
structure Leads (w : World) (o : ObjectRef) (names : List String) (a : ObjectRef) : Prop where
  below : w.Below o a
  path : (w.object a).path = dotted (w.object o).path names
  isDotless : ∀ n ∈ names, IsDotless n

theorem IsTreeOf.leads (h : w.IsTreeOf root f) (hf : f.WellFormed enums) (ho : w.Below root o)
    (hwalk : w.walk? o names = some a) : w.Leads o names a := by
  induction names generalizing o with
  | nil =>
    cases hwalk
    exact ⟨.refl, rfl, nofun⟩
  | cons n names ih =>
    obtain ⟨c, hc, hrest⟩ := Option.bind_eq_some_iff.1 hwalk
    obtain ⟨hchild, rfl⟩ := (h.planted o ho).child?_eq_some.1 hc
    have hleads := ih (ho.tail hchild) hrest
    refine ⟨.head hchild hleads.below, ?_, ?_⟩
    · rw [hleads.path, (h.planted o ho).path c hchild]
      rfl
    · exact List.forall_mem_cons.2 ⟨h.isDotless hf (ho.tail hchild), hleads.isDotless⟩

/-- Names lead from an object to every object below it. -/
theorem IsTreeOf.exists_walk (h : w.IsTreeOf root f) (ho : w.Below root o) (ha : w.Below o a) :
    ∃ names, w.walk? o names = some a := by
  induction ha with
  | refl => exact ⟨[], rfl⟩
  | @tail b c hb hc ih =>
    obtain ⟨names, hwalk⟩ := ih
    refine ⟨names ++ [(w.object c).instanceName], ?_⟩
    rw [walk?_append, hwalk, Option.bind_some, walk?,
      (h.planted b (ho.trans hb)).child?_eq_some.2 ⟨hc, rfl⟩]
    rfl

/-- The object at a path is the one to which the names of the path lead from the root. -/
theorem IsTreeOf.path_eq_iff (h : w.IsTreeOf root f) (hf : f.WellFormed enums) {first : String}
    (hfirst : IsDotless first) (hnames : ∀ n ∈ names, IsDotless n) :
    w.Below root a ∧ (w.object a).path = dotted first names ↔
      first = (w.object root).instanceName ∧ w.walk? root names = some a := by
  constructor
  · rintro ⟨ha, hpath⟩
    obtain ⟨names', hwalk⟩ := h.exists_walk .refl ha
    have hleads := h.leads hf .refl hwalk
    rw [hleads.path, h.path_root] at hpath
    have hdotless := h.isDotless hf (o := root) .refl
    obtain ⟨rfl, rfl⟩ := dotted_inj (List.forall_mem_cons.2 ⟨hdotless, hleads.isDotless⟩)
      (List.forall_mem_cons.2 ⟨hfirst, hnames⟩) hpath
    exact ⟨rfl, hwalk⟩
  · rintro ⟨rfl, hwalk⟩
    have hleads := h.leads hf .refl hwalk
    exact ⟨hleads.below, h.path_root ▸ hleads.path⟩

/-- Objects of a tree are told apart by their paths. -/
theorem IsTreeOf.eq_of_path_eq (h : w.IsTreeOf root f) (hf : f.WellFormed enums)
    (ha : w.Below root a) (hb : w.Below root b) (heq : (w.object a).path = (w.object b).path) :
    a = b := by
  obtain ⟨names, hwalk⟩ := h.exists_walk .refl hb
  have hleads := h.leads hf .refl hwalk
  rw [hleads.path, h.path_root] at heq
  have hwalk' := ((h.path_eq_iff hf (h.isDotless hf .refl) hleads.isDotless).1 ⟨ha, heq⟩).2
  exact Option.some.inj (hwalk'.symm.trans hwalk)

end Tree

end World

end ReactiveFrames
