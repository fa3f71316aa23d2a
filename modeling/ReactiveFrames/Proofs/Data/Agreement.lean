import ReactiveFrames.Proofs.Data.Stocking
import ReactiveFrames.Proofs.Reactive.Edges
import ReactiveFrames.Proofs.Reactive.Enrolling

/-!
# Data frames read and compiled

A data frame can be read as a record, and it can be compiled to an object. The two go through the
frame on their own, and come to the same: the keys of the record are the properties of the object,
the contents of the literals are equal, and where the object holds a child, the record has the
record of the frame of that child. A member that is called like the name or the class of the object
takes its place in both.

Compiling does no more for a data frame than building it, since there are no listeners to resolve,
to link or to seed.

## Main definitions

* `Script.Heap.SameContents`: equal contents of values in two heaps.
* `World.Mirrors`: the record of an object and of all objects below it.

## Main statements

* `World.build_of_compileObject`: compiling a data frame is building it.
* `Frame.mirrors_object`: reading a data frame agrees with compiling it, and a frame with a function
  cannot be read.
-/

namespace ReactiveFrames

open Script (ArrayRef Heap RecordRef Value)

/-! ## Tables -/

namespace Table

variable {α β : Type}

/-- Tables of the same names list them alike. -/
theorem names_eq_of_mem_iff {t : Table α} {t' : Table β} (h : ∀ p, p ∈ t.names ↔ p ∈ t'.names) :
    t.names = t'.names := by
  have hascending {γ : Type} (t : Table γ) : t.names.Pairwise (· < ·) :=
    List.pairwise_map.2 t.ascending
  have hnodup {γ : Type} (t : Table γ) : t.names.Nodup := (hascending t).imp String.ne_of_lt
  have hperm : t.names.Perm t'.names := (List.perm_ext_iff_of_nodup (hnodup t) (hnodup t')).2 h
  exact hperm.eq_of_pairwise (fun _ _ _ _ hab hba ↦ absurd hba (String.lt_asymm hab))
    (hascending t) (hascending t')

end Table

/-! ## Contents -/

namespace Script.Heap

/-- Two values have the same contents, each in its own heap: they are the same scalar, or arrays of
the same contents, or records of the same keys and the same contents. -/
inductive SameContents (h h' : Heap) : Value → Value → Prop
  | scalar (s : Scalar) : SameContents h h' s.toValue s.toValue
  | array {ref ref' : ArrayRef} {values values' : Array Value}
    (hcell : h.arrays[ref.index]? = some values) (hcell' : h'.arrays[ref'.index]? = some values')
    (hsize : values.size = values'.size)
    (hitems : ∀ (k : ℕ) v v', values[k]? = some v → values'[k]? = some v' →
      SameContents h h' v v') : SameContents h h' (.array ref) (.array ref')
  | record {ref ref' : RecordRef} {table table' : Table Value}
    (hcell : h.records[ref.index]? = some table) (hcell' : h'.records[ref'.index]? = some table')
    (hkeys : table.names = table'.names)
    (hentries : ∀ (k : ℕ) v v', table.values[k]? = some v → table'.values[k]? = some v' →
      SameContents h h' v v') : SameContents h h' (.record ref) (.record ref')

end Script.Heap

/-- Values of the shape of one literal have the same contents. -/
theorem Literal.Shows.sameContents {h h' : Heap} {l : Literal} {v v' : Value}
    (hl : l.Shows (fun s v ↦ v = s.toValue) h v) (hl' : l.Shows (fun s v ↦ v = s.toValue) h' v') :
    h.SameContents h' v v' := by
  induction hl generalizing v' with
  | @scalar s v hv =>
    cases hl' with
    | scalar hv' =>
      rw [hv, hv']
      exact .scalar s
  | @array items ref values hcell hlength _ ih =>
    cases hl' with
    | array hcell' hlength' hitems' =>
      refine .array hcell hcell' (hlength.trans hlength'.symm) fun k v v' hv hv' ↦ ?_
      have hk : k < items.length := hlength ▸ (Array.getElem?_eq_some_iff.1 hv).1
      have hitem := List.getElem?_eq_getElem hk
      exact ih k _ v hitem hv (hitems' k _ v' hitem hv')
  | @dictionary entries ref table hcell hkeys _ ih =>
    cases hl' with
    | dictionary hcell' hkeys' hentries' =>
      refine .record hcell hcell' (hkeys.trans hkeys'.symm) fun k v v' hv hv' ↦ ?_
      have hlength := congrArg List.length hkeys
      rw [Table.names, List.length_map, List.length_map] at hlength
      have hk : k < (entries.map (·.2)).length := by
        have hlt := (List.getElem?_eq_some_iff.1 hv).1
        rw [Table.values, List.length_map] at hlt
        rwa [List.length_map, ← hlength]
      have hentry := List.getElem?_eq_getElem hk
      exact ih k _ v hentry hv (hentries' k _ v' hentry hv')

theorem mem_names_initialProperties {className instanceName p : String} :
    p ∈ (initialProperties className instanceName).names ↔
      p = instanceNameProperty ∨ p = classNameProperty := by
  have hempty : p ∉ (Table.empty : Table Value).names := List.not_mem_nil
  rw [initialProperties, Table.mem_names_insert, Table.mem_names_insert, or_iff_left hempty,
    or_comm]

theorem Member.instanceName_of_frame? {m : Member} {g : Frame} (h : m.frame? = some g) :
    g.instanceName = m.name := by
  cases m <;> cases h
  rfl

namespace World

variable {enums : EnumTable} {f : Frame} {w w' : World} {root o : ObjectRef}

/-! ## Compiling without listeners -/

/-- The members of all frames of a tree are data if those of its root are. -/
theorem IsTreeOf.isData (h : w.IsTreeOf root f) (hf : ∀ m ∈ f.members, m.IsData enums)
    (ho : w.Below root o) : ∀ m ∈ (w.object o).frame.members, m.IsData enums := by
  refine h.forall_members hf (fun m hm g hg ↦ ?_) ho
  cases hm with
  | property => cases hg
  | frame _ hmembers =>
    cases hg
    exact hmembers

section Idle

variable {ε : Type}

/-- Visiting a tree changes nothing if nothing is changed at any of its objects. -/
theorem preserves_visit_of_idle {act : ObjectRef → Effect ε Unit}
    (hact : ∀ a, w.Below o a → Run.Preserves (· = w) (act a)) (depth : ℕ) :
    Run.Preserves (· = w) (visit act depth o) := by
  induction depth generalizing o with
  | zero => exact .exhaust
  | succ depth ih =>
    have hrun : Run.Preserves (· = w)
        ((w.object o).children.forM (visit act depth) >>= fun _ ↦ act o) :=
      (Run.Tracks.forM fun c hc ↦ ih fun a ha ↦ hact a (.head hc ha)).bind fun _ ↦ hact o .refl
    rintro _ rfl
    exact hrun _ rfl

/-- Without listeners nothing is done for each listener. -/
theorem preserves_listeners_of_nil (hnone : (w.object o).listenerNames = [])
    (act : String → Effect ε Unit) : Run.Preserves (· = w)
      (Run.state >>= fun u ↦ (World.object u o).listenerNames.forM act : Effect ε Unit) := by
  have hrun : Run.Preserves (· = w) ((w.object o).listenerNames.forM act) := by
    rw [hnone]
    exact .pure ()
  rintro _ rfl
  exact hrun _ rfl

end Idle

theorem resolveListeners_of_isData (objects : Table ObjectRef) (o : ObjectRef) {ms : List Member}
    (hms : ∀ m ∈ ms, m.IsData enums) : resolveListeners objects o ms = pure () := by
  have hnone : ms.filterMap (siteOf o) = [] := by
    refine List.filterMap_eq_nil_iff.2 fun m hm ↦ ?_
    cases hms m hm <;> rfl
  rw [resolveListeners_eq, hnone]
  rfl

theorem preserves_resolve_of_isData (objects : Table ObjectRef)
    (hdata : ∀ a, w.Below o a → ∀ m ∈ (w.object a).frame.members, m.IsData enums) (depth : ℕ) :
    Run.Preserves (· = w) (resolve objects depth o) := by
  induction depth generalizing o with
  | zero => exact .exhaust
  | succ depth ih =>
    have hrun : Run.Preserves (· = w)
        (resolveListeners objects o (w.object o).frame.members >>= fun _ ↦
          (w.object o).children.forM (resolve objects depth)) := by
      rw [resolveListeners_of_isData objects o (hdata o .refl)]
      exact (Run.Tracks.pure ()).bind fun _ ↦ .forM fun c hc ↦ ih fun a ha ↦ hdata a (.head hc ha)
    rintro _ rfl
    exact hrun _ rfl

/-- Compiling a data frame is building it. -/
theorem build_of_compileObject (hf : ∀ m ∈ f.members, m.IsData enums)
    (h : compileObject f w = .ok root w') : build f w = .ok root w' := by
  obtain ⟨x, hassemble, hseed⟩ := exists_assemble_of_compileObject h
  obtain ⟨u, v, hbuild, hresolve, hlink⟩ := exists_build_of_assemble hassemble
  have htree := isTreeOf_of_build hbuild
  have hdata (a : ObjectRef) (ha : u.Below root a) := htree.isData hf ha
  have hnone (a : ObjectRef) (ha : u.Below root a) : (u.object a).listenerNames = [] := by
    obtain ⟨hnew, hfurnished⟩ := furnished_of_build hbuild
    rw [(hfurnished a (hnew ▸ htree.index_le ha) (htree.index_lt ha)).listenerNames]
    refine List.filterMap_eq_nil_iff.2 fun m hm ↦ ?_
    cases hdata a ha m hm <;> rfl
  obtain rfl : v = u := (preserves_resolve_of_isData _ hdata _).of_ok rfl hresolve
  have hidle (act : ObjectRef → String → Effect CompileError Unit) (depth : ℕ) :=
    preserves_visit_of_idle (fun a ha ↦ preserves_listeners_of_nil (hnone a ha) (act a)) depth
  obtain rfl : x = v := (hidle _ _).of_ok rfl hlink
  obtain rfl : w' = x := (hidle _ _).of_ok rfl hseed
  exact hbuild

/-! ## Objects and records -/

/-- The entries of a record are the properties of the object. For a literal the contents are equal,
and for a nested frame the object holds the child that is made of it. -/
structure Agrees (w : World) (h : Heap) (o : ObjectRef) (table : Table Value) : Prop where
  names : table.names = (w.object o).propertyNames
  keys : ∀ p, p ∈ table.names ↔ p = instanceNameProperty ∨ p = classNameProperty ∨
    p ∈ (w.object o).frame.members.map Member.name
  initial : ∀ p ∉ (w.object o).frame.members.map Member.name, table.find? p = w.get? o p
  literal : ∀ m ∈ (w.object o).frame.members, ∀ l, m.literal? = some l →
    ∃ v v', w.get? o m.name = some v ∧ table.find? m.name = some v' ∧ w.heap.SameContents h v v'
  nested : ∀ m ∈ (w.object o).frame.members, ∀ g, m.frame? = some g →
    ∃ c v, w.child? o m.name = some c ∧ (w.object c).frame = g ∧
      w.get? o m.name = some (w.toValue c) ∧ table.find? m.name = some v

/-- The value is a record that agrees with the object, and its entries for the children of the
object are records that mirror them. -/
inductive Mirrors (w : World) (h : Heap) : ObjectRef → Value → Prop
  | record {o : ObjectRef} {ref : RecordRef} {table : Table Value}
    (hcell : h.records[ref.index]? = some table) (hagrees : w.Agrees h o table)
    (hchildren : ∀ name c v, w.child? o name = some c → table.find? name = some v →
      Mirrors w h c v) : Mirrors w h o (.record ref)

/-- A record that shows the frame of a stocked object agrees with the object. -/
theorem Stocked.agrees (h : w.Stocked o) (hplanted : w.Planted o) {heap : Heap} {m : Member}
    (hframe : m.frame? = some (w.object o).frame) {ref : RecordRef} {table : Table Value}
    (hm : m.Shows heap (.record ref)) (hcell : heap.records[ref.index]? = some table) :
    w.Agrees heap o table := by
  obtain ⟨hproperties, hothers, hstores⟩ := h
  rw [ReactiveObject.className, ReactiveObject.instanceName] at hproperties hothers
  cases hm with
  | property => cases hframe
  | @frame name line className members ref _ hcell' hnames hinitial hmembers =>
    cases hcell.symm.trans hcell'
    rw [← Option.some.inj hframe] at hproperties hothers hstores
    have hfind {m : Member} (hm : m ∈ members) : ∃ v, table.find? m.name = some v :=
      Table.mem_names_iff.1 ((hnames _).2 (.inr (List.mem_map_of_mem hm)))
    refine ⟨Table.names_eq_of_mem_iff fun p ↦ (hnames p).trans (hproperties p).symm, fun p ↦ ?_,
      fun p hp ↦ ?_, fun m hm l hl ↦ ?_, fun m hm g hg ↦ ?_⟩
    · rw [← Option.some.inj hframe, hnames, mem_names_initialProperties, or_assoc]
    · rw [← Option.some.inj hframe] at hp
      rw [hinitial p hp, hothers p hp]
    · rw [← Option.some.inj hframe] at hm
      obtain ⟨u, hu, hshows⟩ := (hstores m hm).literal l hl
      obtain ⟨v, hv⟩ := hfind hm
      refine ⟨u, v, hu, hv, hshows.sameContents ?_⟩
      cases hmembers m hm v hv with
      | property hl' =>
        cases hl
        exact hl'
      | frame => cases hl
    · rw [← Option.some.inj hframe] at hm
      obtain ⟨c, hc, -, hcg, hget⟩ := (hstores m hm).nested g hg
      obtain ⟨v, hv⟩ := hfind hm
      refine ⟨c, v, hplanted.child?_eq_some.2 ⟨hc, ?_⟩, hcg, hget, hv⟩
      rw [ReactiveObject.instanceName, hcg, Member.instanceName_of_frame? hg]

/-- The value of a data frame mirrors the object that is built of the frame. -/
theorem mirrors_of_shows {heap : Heap} (htree : w.IsTreeOf root f)
    (hstocked : ∀ o, w.Below root o → w.Stocked o) {m : Member} {v : Value} (hm : m.Shows heap v)
    (ho : w.Below root o) (hframe : m.frame? = some (w.object o).frame) : w.Mirrors heap o v := by
  induction hm generalizing o with
  | property => cases hframe
  | frame hcell hnames hinitial hmembers ih =>
    have hplanted := htree.planted o ho
    have hagrees := (hstocked o ho).agrees hplanted hframe
      (.frame hcell hnames hinitial hmembers) hcell
    refine .record hcell hagrees fun name c v hc hv ↦ ?_
    obtain ⟨hchild, rfl⟩ := hplanted.child?_eq_some.1 hc
    obtain ⟨m, hm, hg⟩ := hplanted.exists_member hchild
    rw [← Option.some.inj hframe] at hm
    rw [ReactiveObject.instanceName, Member.instanceName_of_frame? hg] at hv
    exact ih m hm v hv (ho.tail hchild) hg

end World

/-! ## Data frames -/

theorem Frame.namesDiffer_of_build {f : Frame} {root : ObjectRef} {w w' : World}
    (h : build f w = .ok root w') : ∀ g ∈ f.frames, g.NamesDiffer := by
  rw [build_eq_buildTo, map_eq_pure_bind] at h
  obtain ⟨p, u, hrun, -⟩ := Run.bind_eq_ok.1 h
  exact ((f.exists_buildTo_iff w).1 ⟨p, u, hrun⟩).1

/-- Reading a data frame agrees with compiling it. If no member of a parsed frame is a function, at
any depth, and the frame compiles, then it can be read, and the record that is read mirrors the
object at every level: its keys are the properties of the object, which are the name, the class and
the members, its literals have the same contents, and where the object holds a child it has the
record of the frame of that child. If a member is a function, then the first one in the order of
declaration is the reason why the frame cannot be read. -/
theorem Frame.mirrors_object (f : Frame) (h : Heap) :
    (∀ enums source root w w', Frame.parse enums source = .ok f → f.firstFunction? = none →
      compileObject f w = .ok root w' →
        ∃ v h', f.toValue h = .ok (v, h') ∧ (w'.object root).frame = f ∧ w'.Mirrors h' root v) ∧
    ∀ name kind, f.firstFunction? = some (name, kind) →
      f.toValue h = .error (.unsupported name kind) := by
  refine ⟨fun enums source root w w' hparse hfirst hcompile ↦ ?_,
    fun name kind hf ↦ toValue_of_firstFunction? hf h⟩
  obtain ⟨u, hbuild, -⟩ := World.exists_build_of_compileObject hcompile
  have hnames := namesDiffer_of_build hbuild
  rw [frames, List.forall_mem_cons] at hnames
  have hdata : ∀ m ∈ f.members, m.IsData enums :=
    Member.isData_of_preorderList (wellFormed_of_parse hparse).members hfirst
      fun p hp g hg ↦ hnames.2 g (List.mem_filterMap.2 ⟨p, hp, hg⟩)
  have hbuild := World.build_of_compileObject hdata hcompile
  have htree := World.isTreeOf_of_build hbuild
  have hnew := (World.furnished_of_build hbuild).1
  have hroot : (Member.frame f.instanceName 0 f.className f.members).IsData enums :=
    .frame hnames.1 hdata
  obtain ⟨v, h', hread, -, hshows⟩ := hroot.exists_toValue h
  refine ⟨v, h', (f.toValue_eq 0 h).trans hread, htree.frame,
    World.mirrors_of_shows htree (fun o ho ↦ ?_) hshows .refl ?_⟩
  · exact World.stocked_of_build hnames.1 hdata hbuild o (hnew ▸ htree.index_le ho)
      (htree.index_lt ho)
  · rw [htree.frame]
    rfl

/-- A frame in which a member is called like the class of the object. -/
def overriding : String :=
  "top: T \x7b className: Int 7, sizes: Int [1, 2], part: P \x7b depth: Float 0.5 \x7d \x7d"

/-- A frame with two functions, of which the nested one comes first. -/
def functional : String :=
  "top: T \x7b part: P \x7b depth: Int 1, run: Func() %\x7b return 1 %\x7d \x7d, " ++
    "stop: Event() %\x7b return 2 %\x7d \x7d"

/-- A record mirrors an object whose class is hidden by a member, and a nested function is
reported. -/
theorem Frame.mirrors_object_overriding :
    (∃ f root w' v h', Frame.parse Table.empty overriding = .ok f ∧ f.firstFunction? = none ∧
      compileObject f (World.create 256 16) = .ok root w' ∧
      (w'.object root).propertyNames = ["className", "instanceName", "part", "sizes"] ∧
      f.toValue {} = .ok (v, h') ∧ w'.Mirrors h' root v) ∧
    ∃ f, Frame.parse Table.empty functional = .ok f ∧
      f.firstFunction? = some ("run", .procedure) ∧
      f.toValue {} = .error (.unsupported "run" .procedure) := by
  have hdata : Except.okWith (fun f ↦ f.firstFunction? == none &&
      (compileObject f (World.create 256 16)).okWith fun root w' ↦
        (w'.object root).propertyNames == ["className", "instanceName", "part", "sizes"])
      (Frame.parse Table.empty overriding) = true := by
    rw [Frame.parse_eq]
    delta overriding
    rewrite [String.toList_ofList]
    decide +kernel
  have hfunction : Except.okWith (fun f ↦ f.firstFunction? == some ("run", .procedure))
      (Frame.parse Table.empty functional) = true := by
    rw [Frame.parse_eq]
    delta functional
    repeat rewrite [String.toList_append]
    repeat rewrite [String.toList_ofList]
    decide +kernel
  constructor
  · obtain ⟨f, hparse, hrun⟩ := Except.exists_of_okWith hdata
    obtain ⟨hfirst, hrun⟩ := Bool.and_eq_true_iff.1 hrun
    obtain ⟨root, w', hcompile, hnames⟩ := Outcome.exists_of_okWith hrun
    obtain ⟨v, h', hread, -, hmirrors⟩ :=
      (Frame.mirrors_object f {}).1 _ _ root _ w' hparse (beq_iff_eq.1 hfirst) hcompile
    exact ⟨f, root, w', v, h', hparse, beq_iff_eq.1 hfirst, hcompile, beq_iff_eq.1 hnames, hread,
      hmirrors⟩
  · obtain ⟨f, hparse, hfirst⟩ := Except.exists_of_okWith hfunction
    exact ⟨f, hparse, beq_iff_eq.1 hfirst,
      (Frame.mirrors_object f {}).2 "run" .procedure (beq_iff_eq.1 hfirst)⟩

end ReactiveFrames
