import ReactiveFrames.Proofs.Reactive.ObjectTree

/-!
# Resolving the paths of listeners

A path of a listener argument is resolved by its text: the paths of all objects of a tree are
collected in a table, and the path up to its last segment is looked up there. What it means is a
walk in the tree, from the object itself or from the root and then along the names of nested
objects. The two agree, since the names of a frame that was read have no points, and the names of
its members differ.

## Main definitions

* `World.target?`: the object and the property that a path means, by a walk.
* `World.sites`: the listeners of a tree in the order in which they are resolved.

## Main statements

* `World.IsTreeOf.find?_paths`: the table of paths has one entry for each object of the tree.
* `World.resolve_walks`: listeners are bound to what the walks of their arguments lead to, and the
  first walk that leads nowhere is reported.
-/

namespace ReactiveFrames

open Relation (ReflTransGen)

/-! ## What a path means -/

namespace World

/-- Object at which a path starts inside the object `o` of a tree: `o` itself after `self`, and the
root after its name. -/
def start? (w : World) (root o : ObjectRef) (first : String) : Option ObjectRef :=
  if first = "self" then some o
  else if first = (w.object root).instanceName then some root
  else none

/-- Object and property that a path means inside the object `o` of a tree. All segments between the
first one and the property are names of nested objects. -/
def target? (w : World) (root o : ObjectRef) (segments : List String) :
    Option (ObjectRef × String) :=
  match segments.dropLast, segments.getLast? with
  | first :: inner, some property =>
    ((w.start? root o first).bind (w.walk? · inner)).map (·, property)
  | _, _ => none

/-- Text of a path inside an object, up to the property. -/
def objectPath (w : World) (o : ObjectRef) (segments : List String) : String :=
  match segments.dropLast with
  | first :: inner =>
    ".".intercalate ((if first = "self" then (w.object o).path else first) :: inner)
  | [] => ""

/-- A listener of an object. -/
structure Site where
  owner : ObjectRef
  listener : String
  arguments : List PathArgument

/-- The listener that a member of an object declares. -/
def siteOf (o : ObjectRef) : Member → Option Site
  | .function name _ (.listener arguments ..) => some ⟨o, name, arguments⟩
  | _ => none

/-- An object and all below it, of which there are less than `depth` levels, in the order in which
they are resolved. -/
def tree (w : World) : Nat → ObjectRef → List ObjectRef
  | 0, _ => []
  | depth + 1, o => o :: (w.object o).children.flatMap (w.tree depth)

/-- Listeners of a tree in the order in which they are resolved. -/
def sites (w : World) (depth : Nat) (o : ObjectRef) : List Site :=
  (w.tree depth o).flatMap fun o ↦ (w.object o).frame.members.filterMap (siteOf o)

/-- Arguments of listeners, in order. -/
def siteArguments (sites : List Site) : List (Site × PathArgument) :=
  sites.flatMap fun s ↦ s.arguments.map (s, ·)

section Tree

variable {w : World} {enums : EnumTable} {f : Frame} {root o a : ObjectRef}

/-! ## The table of paths -/

theorem find?_collectPaths_cases {depth : Nat} {objects : Table ObjectRef} {path : String}
    (h : (collectPaths w depth o objects).find? path = some a) :
    w.Below o a ∧ (w.object a).path = path ∨ objects.find? path = some a := by
  induction depth generalizing o objects with
  | zero => exact .inr h
  | succ depth ih =>
    have hfold (cs : List ObjectRef) (hcs : ∀ c ∈ cs, w.Child o c) (objects : Table ObjectRef)
        (h : (cs.foldl (fun objects c ↦ collectPaths w depth c objects) objects).find? path
          = some a) : w.Below o a ∧ (w.object a).path = path ∨ objects.find? path = some a := by
      induction cs generalizing objects with
      | nil => exact .inr h
      | cons c cs ihcs =>
        rcases ihcs (fun d hd ↦ hcs d (List.mem_cons_of_mem _ hd)) _ h with hbelow | h
        · exact .inl hbelow
        · refine (ih h).imp_left fun hbelow ↦ ⟨.head (hcs c List.mem_cons_self) hbelow.1, hbelow.2⟩
    rcases hfold _ (fun c hc ↦ hc) _ h with hbelow | h
    · exact .inl hbelow
    · rw [Table.find?_insert] at h
      split_ifs at h with hpath
      · cases h
        exact .inl ⟨.refl, hpath.symm⟩
      · exact .inr h

theorem isSome_find?_collectPaths {depth : Nat} {objects : Table ObjectRef} {path : String}
    (h : (objects.find? path).isSome) : ((collectPaths w depth o objects).find? path).isSome := by
  induction depth generalizing o objects with
  | zero => exact h
  | succ depth ih =>
    have hfold (cs : List ObjectRef) (objects : Table ObjectRef)
        (h : (objects.find? path).isSome) :
        ((cs.foldl (fun objects c ↦ collectPaths w depth c objects) objects).find?
          path).isSome := by
      induction cs generalizing objects with
      | nil => exact h
      | cons c cs ihcs => exact ihcs _ (ih h)
    refine hfold _ _ ?_
    rw [Table.find?_insert]
    split_ifs
    · rfl
    · exact h

/-- The path of every object is in the table, if the table goes deep enough. Children are newer than
their parents, so no tree is deeper than there are objects. -/
theorem isSome_find?_of_below (hplanted : ∀ a, w.Below o a → w.Planted a) {depth : Nat}
    (hdepth : w.host.objects.size ≤ o.index + depth) (ho : o.index < w.host.objects.size)
    (ha : w.Below o a) (objects : Table ObjectRef) :
    ((collectPaths w depth o objects).find? (w.object a).path).isSome := by
  induction depth generalizing o objects with
  | zero => omega
  | succ depth ih =>
    have hfold (cs : List ObjectRef) (hcs : ∀ c ∈ cs, w.Child o c) (objects : Table ObjectRef)
        (h : (∃ c ∈ cs, w.Below c a) ∨ (objects.find? (w.object a).path).isSome) :
        ((cs.foldl (fun objects c ↦ collectPaths w depth c objects) objects).find?
          (w.object a).path).isSome := by
      induction cs generalizing objects with
      | nil => exact h.resolve_left (by simp)
      | cons c cs ihcs =>
        refine ihcs (fun d hd ↦ hcs d (List.mem_cons_of_mem _ hd)) _ ?_
        rcases h with ⟨d, hd, hda⟩ | h
        · rcases List.mem_cons.1 hd with rfl | hd
          · have hchild := hcs d List.mem_cons_self
            obtain ⟨hlt, hsize⟩ := (hplanted o .refl).newer d hchild
            exact .inr (ih (fun b hb ↦ hplanted b (.head hchild hb)) (by omega) hsize hda objects)
          · exact .inl ⟨d, hd, hda⟩
        · exact .inr (isSome_find?_collectPaths h)
    refine hfold _ (fun c hc ↦ hc) _ ?_
    rcases ReflTransGen.cases_head ha with rfl | ⟨c, hc, ha⟩
    · right
      rw [Table.find?_insert, if_pos rfl]
      rfl
    · exact .inl ⟨c, hc, ha⟩

/-- The table of paths has one entry for each object of the tree. -/
theorem IsTreeOf.find?_paths (h : w.IsTreeOf root f) (hf : f.WellFormed enums) {path : String} :
    (collectPaths w w.treeDepth root Table.empty).find? path = some a ↔
      w.Below root a ∧ (w.object a).path = path := by
  constructor
  · intro ha
    rcases find?_collectPaths_cases ha with ha | ha
    · exact ha
    · cases ha
  · rintro ⟨ha, rfl⟩
    have hdepth := w.size_le_add_treeDepth root.index
    obtain ⟨b, hb⟩ := Option.isSome_iff_exists.1
      (isSome_find?_of_below h.planted hdepth h.size ha Table.empty)
    rcases find?_collectPaths_cases hb with hbelow | hempty
    · rw [hb, h.eq_of_path_eq hf hbelow.1 ha hbelow.2]
    · cases hempty

/-! ## A path -/

/-- The object at the path of `o` with more names after it is the one to which they lead from
`o`. -/
theorem IsTreeOf.path_eq_iff_walk (h : w.IsTreeOf root f) (hf : f.WellFormed enums)
    (ho : w.Below root o) {names : List String} (hnames : ∀ n ∈ names, IsDotless n) :
    w.Below root a ∧ (w.object a).path = dotted (w.object o).path names ↔
      w.walk? o names = some a := by
  obtain ⟨before, hwalk⟩ := h.exists_walk .refl ho
  have hleads := h.leads hf .refl hwalk
  rw [hleads.path, ← dotted_append, h.path_root, h.path_eq_iff hf (h.isDotless hf .refl)
    (List.forall_mem_append.2 ⟨hleads.isDotless, hnames⟩), walk?_append, hwalk]
  exact and_iff_right rfl

/-- Looking up the text of a path finds what the path means. -/
theorem IsTreeOf.pathTarget_eq (h : w.IsTreeOf root f) (hf : f.WellFormed enums)
    (ho : w.Below root o) {segments : List String} (hlength : 2 ≤ segments.length)
    (hdotless : ∀ s ∈ segments, IsDotless s) :
    ∃ property, pathTarget (w.object o).path segments = .ok (w.objectPath o segments, property) ∧
      w.target? root o segments =
        ((collectPaths w w.treeDepth root Table.empty).find? (w.objectPath o segments)).map
          (·, property) := by
  obtain ⟨first, inner, property, rfl⟩ :
      ∃ first inner property, segments = first :: inner ++ [property] := by
    obtain ⟨initial, property, rfl⟩ := List.eq_nil_or_concat segments |>.resolve_left
      (by rintro rfl; cases hlength)
    cases initial with
    | nil => simp at hlength
    | cons first inner => exact ⟨first, inner, property, by simp⟩
  obtain ⟨hfirst, hinner⟩ := List.forall_mem_cons.1 (List.forall_mem_append.1 hdotless).1
  have hdrop : (first :: inner ++ [property]).dropLast = first :: inner := List.dropLast_concat
  have hlast : (first :: inner ++ [property]).getLast? = some property := List.getLast?_concat
  refine ⟨property, by simp only [pathTarget, objectPath, hdrop, hlast], ?_⟩
  simp only [target?, objectPath, hdrop, hlast, intercalate_cons_eq_dotted]
  congr 1
  refine Option.ext fun a ↦ ?_
  rw [h.find?_paths hf, start?]
  split_ifs with hself hroot
  · rw [h.path_eq_iff_walk hf ho hinner, Option.bind_some]
  · rw [h.path_eq_iff hf hfirst hinner, Option.bind_some]
    exact (and_iff_right hroot).symm
  · rw [h.path_eq_iff hf hfirst hinner]
    simp [hroot]

/-! ## The listeners of an object -/

/-- Pointers that bind arguments of a listener of `o` to what their paths mean. -/
def Binds (w : World) (root o : ObjectRef) : List PathArgument → List Pointer → Prop :=
  List.Forall₂ fun a q ↦
    q.argument = a.name ∧ w.target? root o a.path = some (q.object, q.property)

/-- The path of the argument leads nowhere. -/
def dangles (w : World) (root o : ObjectRef) (a : PathArgument) : Bool :=
  (w.target? root o a.path).isNone

theorem pointersOf_cons {objects : Table ObjectRef} {selfPath listener path property : String}
    {a : PathArgument} {rest : List PathArgument}
    (h : pathTarget selfPath a.path = .ok (path, property)) :
    pointersOf objects selfPath listener (a :: rest) =
      match objects.find? path with
      | none => .error (.unresolvedPath (selfPath ++ "." ++ listener) path)
      | some target =>
        (pointersOf objects selfPath listener rest).map (⟨a.name, target, property⟩ :: ·) := by
  rw [pointersOf, h]
  change (match objects.find? path with | none => _ | some target => _) = _
  cases objects.find? path with
  | none => rfl
  | some target => cases pointersOf objects selfPath listener rest <;> rfl

/-- The arguments of a listener are bound in order, up to the first one whose path leads nowhere. -/
theorem IsTreeOf.pointersOf_eq (h : w.IsTreeOf root f) (hf : f.WellFormed enums)
    (ho : w.Below root o) {arguments : List PathArgument}
    (hlength : ∀ a ∈ arguments, 2 ≤ a.path.length)
    (hdotless : ∀ a ∈ arguments, ∀ s ∈ a.path, IsDotless s) (listener : String) :
    match arguments.find? (w.dangles root o) with
    | none => ∃ ps, pointersOf (collectPaths w w.treeDepth root Table.empty) (w.object o).path
        listener arguments = .ok ps ∧ w.Binds root o arguments ps
    | some a => pointersOf (collectPaths w w.treeDepth root Table.empty) (w.object o).path
        listener arguments
          = .error (.unresolvedPath ((w.object o).path ++ "." ++ listener)
              (w.objectPath o a.path)) := by
  induction arguments with
  | nil => exact ⟨[], rfl, .nil⟩
  | cons a arguments ih =>
    obtain ⟨hlength, hlengths⟩ := List.forall_mem_cons.1 hlength
    obtain ⟨hpath, hpaths⟩ := List.forall_mem_cons.1 hdotless
    obtain ⟨property, hsplit, htarget⟩ := h.pathTarget_eq hf ho hlength hpath
    have ih := ih hlengths hpaths
    rw [List.find?_cons, dangles, pointersOf_cons hsplit]
    cases hfind : (collectPaths w w.treeDepth root Table.empty).find? (w.objectPath o a.path) with
    | none =>
      rw [hfind] at htarget
      rw [htarget]
      rfl
    | some target =>
      rw [hfind] at htarget
      rw [htarget]
      cases hfirst : arguments.find? (w.dangles root o) with
      | none =>
        rw [hfirst] at ih
        obtain ⟨ps, hps, hbinds⟩ := ih
        rw [hps]
        exact ⟨_, rfl, .cons ⟨rfl, htarget⟩ hbinds⟩
      | some b =>
        rw [hfirst] at ih
        dsimp only at ih
        rw [ih]
        rfl

/-! ## All listeners -/

/-- The listener is bound in a later world to what its arguments mean in the first one. -/
def Bound (w : World) (root : ObjectRef) (s : Site) (v : World) : Prop :=
  ∃ ps, (v.object s.owner).pointers.find? s.listener = some ps ∧ w.Binds root s.owner s.arguments ps

/-- The listener is one of an object of the tree. -/
def IsSite (w : World) (root : ObjectRef) (s : Site) : Prop :=
  w.Below root s.owner ∧ s ∈ (w.object s.owner).frame.members.filterMap (siteOf s.owner)

/-- Error for an argument of a listener whose path leads nowhere. -/
def unresolved (w : World) (x : Site × PathArgument) : CompileError :=
  .unresolvedPath ((w.object x.1.owner).path ++ "." ++ x.1.listener)
    (w.objectPath x.1.owner x.2.path)

/-- The computation binds listeners of the tree in their order, and ends with the error for the
first path that leads nowhere. -/
def Binding (w : World) (root : ObjectRef) (sites : List Site) (x : Effect CompileError Unit) :
    Prop :=
  ∀ v, w.SamePlaces v →
    match (siteArguments sites).find? fun y ↦ w.dangles root y.1.owner y.2 with
    | none => ∃ v', x v = .ok () v' ∧ w.SamePlaces v' ∧ (∀ s ∈ sites, w.Bound root s v') ∧
        ∀ s, w.IsSite root s → w.Bound root s v → w.Bound root s v'
    | some y => ∃ v', x v = .error (w.unresolved y) v'

namespace Binding

variable {sites more : List Site} {x y : Effect CompileError Unit}

theorem nil : w.Binding root [] (pure ()) := fun v hv ↦
  ⟨v, rfl, hv, nofun, fun _ _ h ↦ h⟩

theorem append (hsites : ∀ s ∈ sites, w.IsSite root s) (hx : w.Binding root sites x)
    (hy : w.Binding root more y) : w.Binding root (sites ++ more) (x >>= fun _ ↦ y) := by
  intro v hv
  have hx := hx v hv
  rw [siteArguments, List.flatMap_append, List.find?_append]
  change match (((siteArguments sites).find? fun y ↦ w.dangles root y.1.owner y.2).or
    ((siteArguments more).find? fun y ↦ w.dangles root y.1.owner y.2)) with
    | none => ∃ v', _ ∧ _ ∧ _ ∧ _
    | some y => ∃ v', _ = Outcome.error (w.unresolved y) v'
  cases hfirst : (siteArguments sites).find? fun y ↦ w.dangles root y.1.owner y.2 with
  | some z =>
    rw [hfirst] at hx
    obtain ⟨v', hrun⟩ := hx
    refine ⟨v', ?_⟩
    change Run.bind x _ v = _
    rw [Run.bind, hrun]
  | none =>
    rw [hfirst] at hx
    obtain ⟨v', hrun, hv', hbound, hkept⟩ := hx
    have hbind : (x >>= fun _ ↦ y) v = y v' := by
      change Run.bind x _ v = _
      rw [Run.bind, hrun]
    have hy := hy v' hv'
    rw [Option.none_or]
    cases hnext : (siteArguments more).find? fun y ↦ w.dangles root y.1.owner y.2 with
    | some z =>
      rw [hnext] at hy
      rw [hbind]
      exact hy
    | none =>
      rw [hnext] at hy
      obtain ⟨v'', hrun', hv'', hbound', hkept'⟩ := hy
      refine ⟨v'', hbind.trans hrun', hv'', fun s hs ↦ ?_, fun s hs h ↦ hkept' s hs (hkept s hs h)⟩
      rcases List.mem_append.1 hs with hs | hs
      · exact hkept' s (hsites s hs) (hbound s hs)
      · exact hbound' s hs

theorem forM {α : Type} {as : List α} {sitesOf : α → List Site} {act : α → Effect CompileError Unit}
    (hsites : ∀ a ∈ as, ∀ s ∈ sitesOf a, w.IsSite root s)
    (h : ∀ a ∈ as, w.Binding root (sitesOf a) (act a)) :
    w.Binding root (as.flatMap sitesOf) (as.forM act) := by
  induction as with
  | nil => exact nil
  | cons a as ih =>
    obtain ⟨ha, has⟩ := List.forall_mem_cons.1 h
    obtain ⟨hsite, hrest⟩ := List.forall_mem_cons.1 hsites
    exact append hsite ha (ih hrest has)

end Binding

theorem siteOf_eq_some {m : Member} {s : Site} : siteOf o m = some s ↔ s.owner = o ∧
    ∃ line returns script,
      m = .function s.listener line (.listener s.arguments returns script) := by
  obtain ⟨owner, listener, arguments⟩ := s
  constructor
  · intro h
    unfold siteOf at h
    split at h
    · cases h
      exact ⟨rfl, _, _, _, rfl⟩
    · cases h
  · rintro ⟨rfl, line, returns, script, rfl⟩
    rfl

/-- Listeners of an object have different names. -/
theorem IsTreeOf.eq_arguments (h : w.IsTreeOf root f) {s t : Site} (hs : w.IsSite root s)
    (ht : w.IsSite root t) (howner : t.owner = s.owner) (hlistener : t.listener = s.listener) :
    t.arguments = s.arguments := by
  obtain ⟨m, hm, hms⟩ := List.mem_filterMap.1 hs.2
  obtain ⟨m', hm', hmt⟩ := List.mem_filterMap.1 ht.2
  obtain ⟨-, line, returns, script, rfl⟩ := siteOf_eq_some.1 hms
  obtain ⟨-, line', returns', script', rfl⟩ := siteOf_eq_some.1 hmt
  rw [howner] at hm'
  have heq := List.inj_on_of_nodup_map (h.planted _ hs.1).names hm' hm hlistener
  exact (Function.listener.inj (Member.function.inj heq).2.2).1

theorem IsTreeOf.index_lt (h : w.IsTreeOf root f) (ho : w.Below root o) :
    o.index < w.host.objects.size := by
  rcases ReflTransGen.cases_tail ho with rfl | ⟨p, hp, hc⟩
  · exact h.size
  · exact ((h.planted p hp).newer o hc).2

/-- Two recursions that agree at an object if they agree at its children agree at all objects of a
tree, however much deeper they go than there are objects. -/
theorem IsTreeOf.eq_of_depth {α : Type} {x y : Nat → ObjectRef → α} (h : w.IsTreeOf root f)
    (hstep : ∀ n n' o, w.Below root o → (∀ c, w.Child o c → x n c = y n' c) →
      x (n + 1) o = y (n' + 1) o) {depth depth' : Nat} (ho : w.Below root o)
    (hdepth : w.host.objects.size ≤ o.index + depth)
    (hdepth' : w.host.objects.size ≤ o.index + depth') : x depth o = y depth' o := by
  have hsize := h.index_lt ho
  induction depth generalizing o depth' with
  | zero => omega
  | succ depth ih =>
    obtain ⟨depth', rfl⟩ : ∃ n, depth' = n + 1 := ⟨depth' - 1, by omega⟩
    -- Children are newer than their parents, so there are fewer objects left for them.
    refine hstep _ _ o ho fun c hc ↦ ?_
    obtain ⟨hlt, hlt'⟩ := (h.planted o ho).newer c hc
    exact ih (ho.tail hc) (by omega) (by omega) hlt'

/-- Binds the arguments of a listener. -/
def resolveSite (objects : Table ObjectRef) (s : Site) : Effect CompileError Unit := do
  let path := (World.object (← Run.state) s.owner).path
  let pointers ← Run.ofExcept (pointersOf objects path s.listener s.arguments)
  Run.update fun w ↦ World.modify w s.owner (·.setPointers s.listener pointers)

theorem resolveListeners_eq (objects : Table ObjectRef) (o : ObjectRef) (ms : List Member) :
    resolveListeners objects o ms = (ms.filterMap (siteOf o)).forM (resolveSite objects) := by
  induction ms with
  | nil => rfl
  | cons m ms ih =>
    unfold resolveListeners
    split
    · next heq => cases heq
    · next heq =>
      cases heq
      simp only [ih, siteOf, List.filterMap_cons, List.forM_eq_forM, List.forM_cons, resolveSite,
        bind_assoc]
    · next hother heq =>
      cases heq
      have hnone : siteOf o m = none := by
        unfold siteOf
        split
        · exact (hother _ _ _ _ _ rfl).elim
        · rfl
      rw [ih, List.filterMap_cons, hnone]

/-- Pointers that are set are those of one listener, and all others stay. -/
theorem find?_setPointers (ho : o.index < w.host.objects.size) (name : String) (ps : List Pointer)
    (a : ObjectRef) (listener : String) :
    ((w.modify o (·.setPointers name ps)).object a).pointers.find? listener
      = if a = o ∧ listener = name then some ps else (w.object a).pointers.find? listener := by
  rw [object_modify]
  by_cases howner : a = o
  · rw [if_pos ⟨howner, ho⟩, ReactiveObject.setPointers, Table.find?_insert]
    simp only [howner, true_and]
  · rw [if_neg fun h ↦ howner h.1, if_neg fun h ↦ howner h.1]

/-- A listener is bound without harm to the other ones. -/
theorem IsTreeOf.binding_resolveSite (h : w.IsTreeOf root f) (hf : f.WellFormed enums) {s : Site}
    (hs : w.IsSite root s) :
    w.Binding root [s] (resolveSite (collectPaths w w.treeDepth root Table.empty) s) := by
  intro v hv
  obtain ⟨m, hm, hms⟩ := List.mem_filterMap.1 hs.2
  obtain ⟨-, line, returns, script, rfl⟩ := siteOf_eq_some.1 hms
  have htyped := (h.wellFormed hf hs.1 _ hm).wellTyped.function _ rfl
  have hpointers := h.pointersOf_eq hf hs.1
    (fun a ha ↦ htyped.length a.path (List.mem_map_of_mem ha))
    (fun a ha ↦ htyped.segments a.path (List.mem_map_of_mem ha)) s.listener
  have hpath : (v.object s.owner).path = (w.object s.owner).path :=
    congrArg (fun p ↦ p.2.1) (hv.place s.owner)
  have hrun : resolveSite (collectPaths w w.treeDepth root Table.empty) s v
      = Run.bind (Run.ofExcept (pointersOf (collectPaths w w.treeDepth root Table.empty)
          (w.object s.owner).path s.listener s.arguments))
        (fun ps ↦ Run.update fun v ↦ World.modify v s.owner (·.setPointers s.listener ps)) v := by
    rw [← hpath]
    rfl
  have harguments : (siteArguments [s]).find? (fun y ↦ w.dangles root y.1.owner y.2)
      = (s.arguments.find? (w.dangles root s.owner)).map (s, ·) := by
    rw [siteArguments, List.flatMap_singleton, List.find?_map]
    rfl
  rw [harguments]
  cases hfirst : s.arguments.find? (w.dangles root s.owner) with
  | some a =>
    rw [hfirst] at hpointers
    dsimp only at hpointers
    rw [hpointers] at hrun
    exact ⟨v, hrun⟩
  | none =>
    rw [hfirst] at hpointers
    obtain ⟨ps, hps, hbinds⟩ := hpointers
    rw [hps] at hrun
    have hplaces : v.SamePlaces (v.modify s.owner (·.setPointers s.listener ps)) :=
      v.samePlaces_modify s.owner fun _ ↦ rfl
    have hsize : s.owner.index < v.host.objects.size := by
      rw [hv.size]
      exact h.index_lt hs.1
    have hfind (t : Site) := find?_setPointers hsize s.listener ps t.owner t.listener
    refine ⟨_, hrun, hv.trans hplaces, ?_, fun t ht hbound ↦ ?_⟩
    · intro t ht
      obtain rfl := List.mem_singleton.1 ht
      exact ⟨ps, (hfind t).trans (if_pos ⟨rfl, rfl⟩), hbinds⟩
    · by_cases hsame : t.owner = s.owner ∧ t.listener = s.listener
      · refine ⟨ps, (hfind t).trans (if_pos hsame), ?_⟩
        rw [hsame.1, h.eq_arguments hs ht hsame.1 hsame.2]
        exact hbinds
      · obtain ⟨qs, hqs, hbinds'⟩ := hbound
        exact ⟨qs, (hfind t).trans ((if_neg hsame).trans hqs), hbinds'⟩

theorem isSite_of_mem {ms : List Member} (ho : w.Below root o)
    (hms : ms = (w.object o).frame.members) {s : Site} (hs : s ∈ ms.filterMap (siteOf o)) :
    w.IsSite root s := by
  obtain ⟨m, hm, hms'⟩ := List.mem_filterMap.1 hs
  obtain ⟨rfl, -⟩ := siteOf_eq_some.1 hms'
  exact ⟨ho, hms ▸ hs⟩

theorem IsTreeOf.mem_tree (h : w.IsTreeOf root f) {depth : Nat} (ho : w.Below root o)
    (hdepth : w.host.objects.size ≤ o.index + depth) : a ∈ w.tree depth o ↔ w.Below o a := by
  have hsize := h.index_lt ho
  induction depth generalizing o with
  | zero => omega
  | succ depth ih =>
    have hchild (c : ObjectRef) (hc : w.Child o c) : a ∈ w.tree depth c ↔ w.Below c a := by
      obtain ⟨hlt, hsize'⟩ := (h.planted o ho).newer c hc
      exact ih (ho.tail hc) (by omega) hsize'
    rw [tree, List.mem_cons, List.mem_flatMap]
    constructor
    · rintro (rfl | ⟨c, hc, ha⟩)
      · exact .refl
      · exact .head hc ((hchild c hc).1 ha)
    · intro ha
      rcases ReflTransGen.cases_head ha with rfl | ⟨c, hc, ha⟩
      · exact .inl rfl
      · exact .inr ⟨c, hc, (hchild c hc).2 ha⟩

/-- Listeners of a tree are those of its objects. -/
theorem IsTreeOf.mem_sites (h : w.IsTreeOf root f) {depth : Nat} (ho : w.Below root o)
    (hdepth : w.host.objects.size ≤ o.index + depth) {s : Site} :
    s ∈ w.sites depth o ↔ w.Below o s.owner ∧
      s ∈ (w.object s.owner).frame.members.filterMap (siteOf s.owner) := by
  rw [sites, List.mem_flatMap]
  constructor
  · rintro ⟨b, hb, hs⟩
    obtain ⟨m, -, hms⟩ := List.mem_filterMap.1 hs
    obtain ⟨rfl, -⟩ := siteOf_eq_some.1 hms
    exact ⟨(h.mem_tree ho hdepth).1 hb, hs⟩
  · rintro ⟨hbelow, hs⟩
    exact ⟨s.owner, (h.mem_tree ho hdepth).2 hbelow, hs⟩

/-- The listeners of an object and of all below it are bound in their order. -/
theorem IsTreeOf.binding_resolve (h : w.IsTreeOf root f) (hf : f.WellFormed enums) {depth : Nat}
    (ho : w.Below root o) (hdepth : w.host.objects.size ≤ o.index + depth) :
    w.Binding root (w.sites depth o)
      (resolve (collectPaths w w.treeDepth root Table.empty) depth o) := by
  have hsize := h.index_lt ho
  induction depth generalizing o with
  | zero => omega
  | succ depth ih =>
    have hchild (c : ObjectRef) (hc : w.Child o c) : w.Below root c ∧
        w.host.objects.size ≤ c.index + depth ∧ c.index < w.host.objects.size := by
      obtain ⟨hlt, hsize'⟩ := (h.planted o ho).newer c hc
      exact ⟨ho.tail hc, by omega, hsize'⟩
    have hown : ∀ s ∈ (w.object o).frame.members.filterMap (siteOf o), w.IsSite root s :=
      fun s hs ↦ isSite_of_mem ho rfl hs
    have hbelow : ∀ c ∈ (w.object o).children, ∀ s ∈ w.sites depth c, w.IsSite root s := by
      intro c hc s hs
      obtain ⟨hc, hdepth', -⟩ := hchild c hc
      obtain ⟨hs, hmem⟩ := (h.mem_sites hc hdepth').1 hs
      exact ⟨hc.trans hs, hmem⟩
    have hsites : w.sites (depth + 1) o
        = ((w.object o).frame.members.filterMap (siteOf o)).flatMap (fun s ↦ [s]) ++
          (w.object o).children.flatMap (w.sites depth) := by
      rw [sites, tree, List.flatMap_cons, List.flatMap_assoc, List.flatMap_singleton']
      rfl
    have hlisteners := Binding.forM (fun s hs t ht ↦ List.mem_singleton.1 ht ▸ hown s hs)
      fun s hs ↦ h.binding_resolveSite hf (hown s hs)
    have hchildren := Binding.forM hbelow fun c hc ↦
      ih (hchild c hc).1 (hchild c hc).2.1 (hchild c hc).2.2
    have hall := Binding.append
      (fun s hs ↦ hown s (by rwa [List.flatMap_singleton'] at hs)) hlisteners hchildren
    rw [hsites]
    intro v hv
    have hframe : (v.object o).frame = (w.object o).frame := congrArg (fun p ↦ p.1) (hv.place o)
    have hcs : (v.object o).children = (w.object o).children :=
      congrArg (fun p ↦ p.2.2.2) (hv.place o)
    have hrun : resolve (collectPaths w w.treeDepth root Table.empty) (depth + 1) o v
        = (resolveListeners (collectPaths w w.treeDepth root Table.empty) o
            (v.object o).frame.members >>= fun _ ↦ (v.object o).children.forM
              (resolve (collectPaths w w.treeDepth root Table.empty) depth)) v := rfl
    rw [hrun, hframe, hcs, resolveListeners_eq]
    exact hall v hv

/-- Resolving the listeners of a tree agrees with walking in the tree. -/
structure ResolvesByWalks (w : World) (root : ObjectRef) : Prop where
  /-- The table of paths has one entry for each object. -/
  paths : ∀ path a, (collectPaths w w.treeDepth root Table.empty).find? path = some a ↔
    w.Below root a ∧ (w.object a).path = path
  /-- No two objects share a path. -/
  distinct : ∀ a b, w.Below root a → w.Below root b → (w.object a).path = (w.object b).path → a = b
  /-- Every listener is bound to what the walks of its arguments lead to, unless one of them leads
  nowhere, and then the first of these is reported. -/
  resolve :
    match (siteArguments (w.sites w.treeDepth root)).find? fun x ↦ w.dangles root x.1.owner x.2 with
    | none => ∃ w', resolve (collectPaths w w.treeDepth root Table.empty) w.treeDepth root w
        = .ok () w' ∧ ∀ s, w.IsSite root s → w.Bound root s w'
    | some x => ∃ w', resolve (collectPaths w w.treeDepth root Table.empty) w.treeDepth root w
        = .error (w.unresolved x) w'

theorem IsTreeOf.resolvesByWalks (h : w.IsTreeOf root f) (hf : f.WellFormed enums) :
    w.ResolvesByWalks root := by
  have hdepth := w.size_le_add_treeDepth root.index
  refine ⟨fun path a ↦ h.find?_paths hf, fun a b ↦ h.eq_of_path_eq hf, ?_⟩
  have hresolve := h.binding_resolve hf .refl hdepth w ⟨rfl, fun _ ↦ rfl⟩
  cases hfirst : (siteArguments (w.sites w.treeDepth root)).find?
      fun x ↦ w.dangles root x.1.owner x.2 with
  | none =>
    rw [hfirst] at hresolve
    obtain ⟨w', hrun, -, hbound, -⟩ := hresolve
    exact ⟨w', hrun, fun s hs ↦ hbound s ((h.mem_sites .refl hdepth).2 hs)⟩
  | some x =>
    rw [hfirst] at hresolve
    exact hresolve

end Tree

/-- Two nested frames. A listener of the second one looks at itself and, by way of the root, at the
first one. -/
def siblings : String :=
  "top: T \x7b p: P \x7b x: Int 1 \x7d, q: Q \x7b x: Int 2, " ++
    "y: Listner(a: self.x, b: top.p.x) -> Int %\x7b return b %\x7d \x7d \x7d"

/-- The objects of a frame that was read are nested like the frame, and the paths of its listeners
mean what walks along the names of nested frames lead to. -/
theorem resolve_walks {enums : EnumTable} {source : String} {f : Frame} {root : ObjectRef}
    {w w' : World} (hparse : Frame.parse enums source = .ok f) (hbuild : build f w = .ok root w') :
    w'.IsTreeOf root f ∧ w'.ResolvesByWalks root := by
  have htree := isTreeOf_of_build hbuild
  exact ⟨htree, htree.resolvesByWalks (Frame.wellFormed_of_parse hparse)⟩

theorem resolve_walks_siblings : ∃ f w', Frame.parse Table.empty siblings = .ok f ∧
    build f (World.create 256 16) = .ok ⟨0⟩ w' ∧
      w'.target? ⟨0⟩ ⟨2⟩ ["top", "p", "x"] = some (⟨1⟩, "x") ∧
        w'.IsTreeOf ⟨0⟩ f ∧ w'.ResolvesByWalks ⟨0⟩ := by
  have hrun : Except.okWith (fun f ↦ (build f (World.create 256 16)).okWith fun root w' ↦
      root == ⟨0⟩ && w'.target? ⟨0⟩ ⟨2⟩ ["top", "p", "x"] == some (⟨1⟩, "x"))
      (Frame.parse Table.empty siblings) = true := by
    rw [Frame.parse_eq]
    delta siblings
    repeat rewrite [String.toList_append]
    repeat rewrite [String.toList_ofList]
    decide +kernel
  obtain ⟨f, hparse, hrun⟩ := Except.exists_of_okWith hrun
  obtain ⟨root, w', hbuild, hrun⟩ := Outcome.exists_of_okWith hrun
  rw [Bool.and_eq_true, beq_iff_eq, beq_iff_eq] at hrun
  obtain ⟨rfl, htarget⟩ := hrun
  exact ⟨f, w', hparse, hbuild, htarget, resolve_walks hparse hbuild⟩

end World

end ReactiveFrames
