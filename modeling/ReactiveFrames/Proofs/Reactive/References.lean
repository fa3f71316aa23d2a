import Mathlib.Data.List.Find
import ReactiveFrames.Proofs.Reactive.Resolution

/-!
# Paths of listeners in a frame

Whether the paths of all listener arguments lead somewhere can be seen from the frame, before there
are any objects: a path means the same in the tree of nested frames as in the tree of objects that
is built from it. So can the first path that leads nowhere, since listeners are resolved in an order
of the frame: those of a frame in the order of its members, and then those of the frames in it.

## Main definitions

* `Reference`: an argument of a listener in its place.
* `Frame.references`: all references of a frame, in the order in which they are resolved.
* `Frame.target?`: the nested frame that a reference means.

## Main statements

* `World.IsTreeOf.resolve_references`: resolving a tree ends with the first reference that means no
  nested frame.
-/

namespace ReactiveFrames

open Relation (ReflTransGen)

/-! ## References -/

/-- An argument of a listener in its place. -/
structure Reference where
  /-- Frame that the listener belongs to. -/
  frame : Frame
  /-- Path of the object of this frame. -/
  path : String
  listener : String
  argument : PathArgument

/-- References of a listener member. -/
def Member.arguments (frame : Frame) (path : String) : Member → List Reference
  | .function name _ (.listener arguments ..) => arguments.map (⟨frame, path, name, ·⟩)
  | _ => []

/-- References of the listeners of a frame itself. -/
def Frame.ownReferences (f : Frame) (path : String) : List Reference :=
  f.members.flatMap (Member.arguments f path)

mutual

/-- References in a nested frame. -/
def Member.references (path : String) : Member → List Reference
  | .frame name _ className members =>
    Frame.ownReferences ⟨className, name, members⟩ (path ++ "." ++ name) ++
      Member.referencesList (path ++ "." ++ name) members
  | _ => []

/-- References in the nested frames among members. -/
def Member.referencesList (path : String) : List Member → List Reference
  | [] => []
  | m :: ms => Member.references path m ++ Member.referencesList path ms

end

/-- References of a frame at a path, each frame before the frames in it. -/
def Frame.referencesAt (f : Frame) (path : String) : List Reference :=
  f.ownReferences path ++ Member.referencesList path f.members

/-- References of a frame in the order in which they are resolved. -/
def Frame.references (f : Frame) : List Reference := f.referencesAt f.instanceName

/-- Nested frame to which names lead, one after the other. -/
def Frame.walk? : Frame → List String → Option Frame
  | f, [] => some f
  | f, name :: names =>
    (f.children.find? fun g ↦ g.instanceName = name).bind fun g ↦ g.walk? names

/-- Nested frame that a reference in a frame means. -/
def Frame.target? (f : Frame) (r : Reference) : Option Frame :=
  match r.argument.path.dropLast with
  | first :: inner =>
    (if first = "self" then some r.frame
      else if first = f.instanceName then some f
      else none).bind (·.walk? inner)
  | [] => none

/-- Text of the path of a reference, up to the property. -/
def Reference.objectPath (r : Reference) : String :=
  match r.argument.path.dropLast with
  | first :: inner => ".".intercalate ((if first = "self" then r.path else first) :: inner)
  | [] => ""

/-- Error for a reference that leads nowhere. -/
def Reference.unresolved (r : Reference) : CompileError :=
  .unresolvedPath (r.path ++ "." ++ r.listener) r.objectPath

theorem Member.referencesList_eq (path : String) (ms : List Member) :
    Member.referencesList path ms = (ms.filterMap Member.frame?).flatMap fun g ↦
      g.referencesAt (path ++ "." ++ g.instanceName) := by
  induction ms with
  | nil => rfl
  | cons m ms ih =>
    rw [Member.referencesList, ih]
    cases m with
    | property => rfl
    | function => rfl
    | frame name line className members => rfl

/-! ## References of a tree -/

namespace World

section Tree

variable {w : World} {enums : EnumTable} {f : Frame} {root o a : ObjectRef}

/-- What an argument of a listener of an object is in the frame. -/
def referenceOf (w : World) (x : Site × PathArgument) : Reference :=
  ⟨(w.object x.1.owner).frame, (w.object x.1.owner).path, x.1.listener, x.2⟩

theorem map_referenceOf_filterMap (w : World) (o : ObjectRef) (ms : List Member) :
    (siteArguments (ms.filterMap (siteOf o))).map w.referenceOf
      = ms.flatMap (Member.arguments (w.object o).frame (w.object o).path) := by
  induction ms with
  | nil => rfl
  | cons m ms ih =>
    rw [List.flatMap_cons, ← ih]
    cases m with
    | property => rfl
    | frame => rfl
    | function name line f =>
      cases f with
      | listener arguments returns script =>
        simp only [List.filterMap_cons, siteOf, siteArguments, List.flatMap_cons, List.map_append,
          List.map_map]
        rfl
      | _ => rfl

theorem sites_succ (w : World) (depth : Nat) (o : ObjectRef) : w.sites (depth + 1) o
    = (w.object o).frame.members.filterMap (siteOf o) ++
      (w.object o).children.flatMap (w.sites depth) := by
  rw [sites, tree, List.flatMap_cons, List.flatMap_assoc]
  rfl

/-- The listeners of a tree are those of the frame, in order. -/
theorem IsTreeOf.map_referenceOf (h : w.IsTreeOf root f) {depth : Nat} (ho : w.Below root o)
    (hdepth : w.host.objects.size ≤ o.index + depth) :
    (siteArguments (w.sites depth o)).map w.referenceOf
      = (w.object o).frame.referencesAt (w.object o).path := by
  have hsize := h.index_lt ho
  induction depth generalizing o with
  | zero => omega
  | succ depth ih =>
    have hplanted := h.planted o ho
    have hchild : ∀ c ∈ (w.object o).children, (siteArguments (w.sites depth c)).map w.referenceOf
        = (w.object c).frame.referencesAt
          ((w.object o).path ++ "." ++ (w.object c).frame.instanceName) := by
      intro c hc
      obtain ⟨hlt, hsize'⟩ := hplanted.newer c hc
      rw [ih (ho.tail hc) (by omega) hsize', hplanted.path c hc]
      rfl
    calc (siteArguments (w.sites (depth + 1) o)).map w.referenceOf
        = (siteArguments ((w.object o).frame.members.filterMap (siteOf o))).map w.referenceOf ++
          (w.object o).children.flatMap fun c ↦
            (siteArguments (w.sites depth c)).map w.referenceOf := by
          simp only [sites_succ, siteArguments, List.flatMap_append, List.map_append,
            List.flatMap_assoc, List.map_flatMap]
      _ = (w.object o).frame.ownReferences (w.object o).path ++
          ((w.object o).children.map fun c ↦ (w.object c).frame).flatMap fun g ↦
            g.referencesAt ((w.object o).path ++ "." ++ g.instanceName) := by
          rw [map_referenceOf_filterMap, List.flatMap_congr hchild, List.flatMap_map]
          rfl
      _ = (w.object o).frame.referencesAt (w.object o).path := by
          rw [hplanted.frames, Frame.referencesAt, Member.referencesList_eq]
          rfl

/-- A walk along the objects of a tree is a walk along their frames. -/
theorem IsTreeOf.map_walk? (h : w.IsTreeOf root f) (ho : w.Below root o) (names : List String) :
    (w.walk? o names).map (fun a ↦ (w.object a).frame) = (w.object o).frame.walk? names := by
  induction names generalizing o with
  | nil => rfl
  | cons name names ih =>
    have hfind : (w.object o).frame.children.find? (fun g ↦ g.instanceName = name)
        = (w.child? o name).map fun c ↦ (w.object c).frame := by
      rw [← (h.planted o ho).frames, List.find?_map]
      rfl
    rw [walk?, Frame.walk?, hfind]
    cases hchild : w.child? o name with
    | none => rfl
    | some c => exact ih (ho.tail ((h.planted o ho).child?_eq_some.1 hchild).1)

/-- A path of an argument leads to an object of the tree if and only if it leads to a nested
frame. -/
theorem IsTreeOf.dangles_iff (h : w.IsTreeOf root f) {x : Site × PathArgument}
    (ho : w.Below root x.1.owner) (hlength : 2 ≤ x.2.path.length) :
    w.dangles root x.1.owner x.2 = true ↔ f.target? (w.referenceOf x) = none := by
  have hwalk {o : ObjectRef} (ho : w.Below root o) (names : List String) :
      w.walk? o names = none ↔ (w.object o).frame.walk? names = none := by
    rw [← h.map_walk? ho, Option.map_eq_none_iff]
  cases hlast : x.2.path.getLast? with
  | none =>
    rw [List.getLast?_eq_none_iff.1 hlast] at hlength
    cases hlength
  | some property =>
    cases hdrop : x.2.path.dropLast with
    | nil =>
      have hzero := congrArg List.length hdrop
      rw [List.length_dropLast] at hzero
      simp only [List.length_nil] at hzero
      omega
    | cons first inner =>
      rw [dangles, Option.isNone_iff_eq_none, target?, Frame.target?]
      simp only [hlast, hdrop, referenceOf, Option.map_eq_none_iff, start?,
        ReactiveObject.instanceName, h.frame]
      split_ifs
      · exact hwalk ho inner
      · rw [Option.bind_some, Option.bind_some, hwalk .refl, h.frame]
      · exact iff_of_true rfl rfl

/-- Paths of arguments have an object and a property at least. -/
theorem IsTreeOf.two_le_length (h : w.IsTreeOf root f) (hf : f.WellFormed enums) {s : Site}
    (hs : w.IsSite root s) {a : PathArgument} (ha : a ∈ s.arguments) : 2 ≤ a.path.length := by
  obtain ⟨m, hm, hms⟩ := List.mem_filterMap.1 hs.2
  obtain ⟨-, line, returns, script, rfl⟩ := siteOf_eq_some.1 hms
  have htyped := (h.wellFormed hf hs.1 _ hm).wellTyped.function _ rfl
  exact htyped.length a.path (List.mem_map_of_mem ha)

/-- Resolving the listeners of a tree ends with the first reference that means no nested frame. -/
theorem IsTreeOf.resolve_references (h : w.IsTreeOf root f) (hf : f.WellFormed enums) :
    match f.references.find? fun r ↦ (f.target? r).isNone with
    | none => ∃ w', resolve (collectPaths w w.treeDepth root Table.empty) w.treeDepth root w
        = .ok () w'
    | some r => ∃ w', resolve (collectPaths w w.treeDepth root Table.empty) w.treeDepth root w
        = .error r.unresolved w' := by
  have hdepth := w.size_le_add_treeDepth root.index
  have hreferences : f.references
      = (siteArguments (w.sites w.treeDepth root)).map w.referenceOf := by
    rw [h.map_referenceOf .refl hdepth, h.frame, h.path, Frame.references]
  -- The walks in the world agree with those in the frame, argument by argument and in this order.
  have hdangles : ∀ x ∈ siteArguments (w.sites w.treeDepth root),
      (f.target? (w.referenceOf x)).isNone = w.dangles root x.1.owner x.2 := by
    intro x hx
    obtain ⟨s, hs, hx⟩ := List.mem_flatMap.1 hx
    obtain ⟨a, ha, rfl⟩ := List.mem_map.1 hx
    have hsite := (h.mem_sites .refl hdepth).1 hs
    rw [Bool.eq_iff_iff, Option.isNone_iff_eq_none]
    exact (h.dangles_iff hsite.1 (h.two_le_length hf hsite ha)).symm
  have hresolve := (h.resolvesByWalks hf).resolve
  have hfind : f.references.find? (fun r ↦ (f.target? r).isNone)
      = ((siteArguments (w.sites w.treeDepth root)).find?
        fun x ↦ w.dangles root x.1.owner x.2).map w.referenceOf := by
    rw [hreferences, List.find?_map]
    exact congrArg _ (List.find?_congr hdangles)
  rw [hfind]
  cases hfirst : (siteArguments (w.sites w.treeDepth root)).find?
      fun x ↦ w.dangles root x.1.owner x.2 with
  | none =>
    rw [hfirst] at hresolve
    obtain ⟨w', hrun, -⟩ := hresolve
    exact ⟨w', hrun⟩
  | some x =>
    rw [hfirst] at hresolve
    exact hresolve

end Tree

end World

end ReactiveFrames
