import Mathlib.Algebra.Order.BigOperators.Group.List
import Mathlib.Algebra.Order.Group.Nat
import Mathlib.Data.List.Nodup
import Mathlib.Data.List.Perm.Subperm
import ReactiveFrames.Proofs.Reactive.Guard

/-!
# The writes that are running observers

The writes that are running observers at one time form a stack. They are the guarded properties, so
they are writes of different properties, and there are no more of them than properties with
observers (`setOnStack_eq`). To say this of every moment of a write, the stack is carried along:
`setOnStack` does what `setWithin` does, and gives up as soon as it would run the observers of a
property on a stack that is not as it should be.

The observed properties that are not guarded are the room that is left for nested writes
(`World.unguarded`). A write that starts to run observers takes some of it away, and what is kept
until then is kept with it.
-/

open Filter

namespace ReactiveFrames

open Script (Value)

/-- An object and the name of a property of it. -/
abbrev Place := ObjectRef × String

/-- Listener that an observer runs. -/
def Observer.place? : Observer → Option Place
  | .listener owner name => some (owner, name)
  | .watcher .. => none

theorem Observer.eq_map_listener {observers : List Observer} {ys : List Place}
    (h : observers.map place? = ys.map some) :
    observers = ys.map fun y ↦ .listener y.1 y.2 := by
  induction observers generalizing ys with
  | nil => rw [List.map_eq_nil_iff.1 h.symm]; rfl
  | cons observer rest ih =>
    obtain ⟨y, zs, rfl, hy, hzs⟩ := List.map_eq_cons_iff.1 h.symm
    rw [ih hzs.symm, List.map_cons]
    cases observer with
    | listener owner name =>
      cases hy
      rfl
    | watcher => cases hy

namespace World

/-! ## Observed properties -/

/-- Properties that have observers. -/
def observedPlaces (w : World) : List Place :=
  (List.range w.host.objects.size).flatMap fun i ↦
    ((w.object ⟨i⟩).observers.names.filter fun p ↦ (w.object ⟨i⟩).observersOf p ≠ []).map
      fun p ↦ (⟨i⟩, p)

/-- An object that is not there has no observers. -/
theorem lt_size_of_observersOf {w : World} {o : ObjectRef} {p : String}
    (h : (w.object o).observersOf p ≠ []) : o.index < w.host.objects.size := by
  by_contra hge
  refine h ?_
  rw [object, ObjectGraph.object, Array.getElem?_eq_none (Nat.le_of_not_lt hge)]
  rfl

theorem mem_observedPlaces {w : World} {x : Place} :
    x ∈ w.observedPlaces ↔ (w.object x.1).observersOf x.2 ≠ [] := by
  obtain ⟨⟨i⟩, p⟩ := x
  constructor
  · intro h
    obtain ⟨j, -, h⟩ := List.mem_flatMap.1 h
    obtain ⟨q, hq, heq⟩ := List.mem_map.1 h
    cases heq
    exact of_decide_eq_true (List.mem_filter.1 hq).2
  · intro h
    have hnames : p ∈ (w.object ⟨i⟩).observers.names := by
      cases hfind : (w.object ⟨i⟩).observers.find? p with
      | some observers => exact Table.mem_names_iff.2 ⟨observers, hfind⟩
      | none => exact absurd (by rw [ReactiveObject.observersOf, hfind]; rfl) h
    exact List.mem_flatMap.2 ⟨i, List.mem_range.2 (lt_size_of_observersOf h),
      List.mem_map.2 ⟨p, List.mem_filter.2 ⟨hnames, decide_eq_true h⟩, rfl⟩⟩

theorem SameWiring.observedPlaces {w w' : World} (h : w.SameWiring w') :
    w'.observedPlaces = w.observedPlaces := by
  have hobserversOf (o : ObjectRef) : (w'.object o).observersOf = (w.object o).observersOf :=
    funext (h.observersOf o)
  rw [World.observedPlaces, World.observedPlaces, h.size]
  simp only [h.observers, hobserversOf]

/-! ## Room for nested writes -/

/-- Observed properties whose observers are not running. -/
def unguarded (w : World) : List Place :=
  w.observedPlaces.filter fun x ↦ x.2 ∉ (w.object x.1).notifying

theorem Keeps.unguarded {w w' : World} (h : w.Keeps w') : w'.unguarded = w.unguarded := by
  rw [World.unguarded, World.unguarded, h.toSameWiring.observedPlaces]
  simp only [h.notifying]

/-- A write that starts to run observers takes room away. -/
theorem length_unguarded_begun {w : World} {o : ObjectRef} {p : String}
    (hp : p ∉ (w.object o).notifying) (hobs : (w.object o).observersOf p ≠ []) (v : Value) :
    (w.begun o p v).unguarded.length < w.unguarded.length := by
  have ho := lt_size_of_observersOf hobs
  have hplace : (o, p) ∈ w.unguarded :=
    List.mem_filter.2 ⟨mem_observedPlaces.2 hobs, decide_eq_true hp⟩
  have hgone : (o, p) ∉ (w.begun o p v).unguarded := fun h ↦ by
    have hmem := of_decide_eq_true (List.mem_filter.1 h).2
    rw [notifying_begun, if_pos ⟨rfl, ho⟩] at hmem
    exact hmem List.mem_cons_self
  have hsub : (w.begun o p v).unguarded.Sublist w.unguarded := by
    rw [unguarded, unguarded, (w.sameWiring_begun o p v).observedPlaces]
    refine List.monotone_filter_right _ fun x hx ↦ decide_eq_true fun hmem ↦ ?_
    refine of_decide_eq_true hx ?_
    rw [notifying_begun]
    split_ifs
    · exact List.mem_cons_of_mem p hmem
    · exact hmem
  refine lt_of_le_of_ne hsub.length_le fun heq ↦ hgone ?_
  rw [hsub.eq_of_length heq]
  exact hplace

/-- There are enough levels of writes for the observed properties. -/
theorem length_observedPlaces_lt_levels (w : World) : w.observedPlaces.length + 2 ≤ w.levels := by
  have hlist : w.host.objects.toList = (List.range w.host.objects.size).map
      fun i ↦ w.object ⟨i⟩ := by
    refine List.ext_getElem (by simp) fun i hi hi' ↦ ?_
    rw [Array.length_toList] at hi
    simp [object, ObjectGraph.object, hi]
  have hsum (xs : List ReactiveObject) (n : Nat) :
      xs.foldl (fun n o ↦ n + o.observers.entries.length) n
        = n + (xs.map fun o ↦ o.observers.entries.length).sum := by
    induction xs generalizing n with
    | nil => rfl
    | cons x xs ih => rw [List.foldl_cons, ih, List.map_cons, List.sum_cons, Nat.add_assoc]
  rw [levels, ← Array.foldl_toList, hsum, Nat.zero_add, hlist, List.map_map, observedPlaces,
    List.length_flatMap]
  refine Nat.add_le_add_right (List.sum_le_sum fun i _ ↦ ?_) 2
  rw [List.length_map]
  exact (List.length_filter_le _ _).trans (List.length_map _).le

theorem length_unguarded_lt_levels (w : World) : w.unguarded.length + 1 < w.levels :=
  lt_of_le_of_lt (Nat.add_le_add_right (List.length_filter_le _ _) 1)
    w.length_observedPlaces_lt_levels

end World

/-! ## Carrying the stack -/

/-- Sets a property as `setWithin` does, on a stack of writes that are running observers. It gives
up rather than run observers while the stack, with this write on it, is not as it should be. -/
def setOnStack (bound : Nat) (fine : List Place → Bool) : Nat → List Place → Writer
  | 0, _ => fun _ _ _ ↦ Run.exhaust
  | levels + 1, stack => fun o property value w ↦
    if property ∉ (World.object w o).notifying ∧ (World.object w o).observersOf property ≠ [] ∧
        !fine ((o, property) :: stack) then
      .exhausted w
    else
      setWith bound ⟨World.get?, setOnStack bound fine levels ((o, property) :: stack)⟩ o property
        value w

theorem setOnStack_succ (bound : Nat) (fine : List Place → Bool) (levels : Nat)
    (stack : List Place) (o : ObjectRef) (p : String) (v : Value) (w : World) :
    setOnStack bound fine (levels + 1) stack o p v w =
      if p ∉ (w.object o).notifying ∧ (w.object o).observersOf p ≠ [] ∧
          !fine ((o, p) :: stack) then
        .exhausted w
      else setWith bound ⟨World.get?, setOnStack bound fine levels ((o, p) :: stack)⟩ o p v w :=
  rfl

/-- No property is on the stack twice, and the stack is not higher than there are properties. -/
def distinctAmong (places stack : List Place) : Bool :=
  decide stack.Nodup && decide (stack.length ≤ places.length)

/-- The stack is made up of the guarded properties, all of which are observed. -/
structure World.Stacked (places stack : List Place) (w : World) : Prop where
  observed : w.observedPlaces = places
  guarded : ∀ x, x ∈ stack ↔ x.2 ∈ (w.object x.1).notifying
  nodup : stack.Nodup
  subset : stack ⊆ places

namespace World.Stacked

variable {places stack : List Place} {w w' : World}

theorem keeps (h : w.Stacked places stack) (hk : w.Keeps w') : w'.Stacked places stack where
  observed := hk.toSameWiring.observedPlaces.trans h.observed
  guarded x := by rw [hk.notifying]; exact h.guarded x
  nodup := h.nodup
  subset := h.subset

/-- A write that starts to run observers goes on the stack. -/
theorem begun (h : w.Stacked places stack) {o : ObjectRef} {p : String}
    (hp : p ∉ (w.object o).notifying) (hobs : (w.object o).observersOf p ≠ []) (v : Value) :
    (w.begun o p v).Stacked places ((o, p) :: stack) where
  observed := (w.sameWiring_begun o p v).observedPlaces.trans h.observed
  guarded x := by
    have ho := lt_size_of_observersOf hobs
    rw [List.mem_cons, h.guarded, notifying_begun]
    by_cases hx : x.1 = o
    · rw [if_pos ⟨hx, ho⟩, List.mem_cons]
      exact or_congr_left ⟨fun heq ↦ congrArg Prod.snd heq, fun heq ↦ Prod.ext hx heq⟩
    · rw [if_neg fun hand ↦ hx hand.1]
      exact or_iff_right fun heq ↦ hx (congrArg Prod.fst heq)
  nodup := List.nodup_cons.2 ⟨fun hmem ↦ hp ((h.guarded (o, p)).1 hmem), h.nodup⟩
  subset := List.cons_subset.2 ⟨h.observed ▸ mem_observedPlaces.2 hobs, h.subset⟩

theorem distinctAmong (h : w.Stacked places stack) : distinctAmong places stack = true := by
  rw [ReactiveFrames.distinctAmong, Bool.and_eq_true, decide_eq_true_iff, decide_eq_true_iff]
  exact ⟨h.nodup, (h.nodup.subperm h.subset).length_le⟩

end World.Stacked

/-- At every moment of a write that returns, the writes that are running observers are writes of
different properties, and there are no more of them than properties with observers. -/
theorem setOnStack_eq {bound levels : Nat} {places stack : List Place} {o : ObjectRef} {p : String}
    {v : Value} {w : World} (hw : w.Stacked places stack)
    (hr : (setWithin bound World.get? levels o p v w).Returns) :
    setOnStack bound (distinctAmong places) levels stack o p v w
      = setWithin bound World.get? levels o p v w := by
  induction levels generalizing stack o p v w with
  | zero => exact hr.elim
  | succ levels ih =>
    rw [setOnStack_succ, setWithin]
    rw [setWithin] at hr
    rcases setWith_cases rfl hr with ⟨hp, -⟩ | ⟨hp, hobs, -⟩ | ⟨hp, hobs, u, hrun, -⟩
    · rw [if_neg fun h ↦ h.1 hp, setWith_of_mem hp, setWith_of_mem hp]
    · rw [if_neg fun h ↦ h.2.1 hobs, setWith_of_unobserved hp hobs, setWith_of_unobserved hp hobs]
    · have hbegun := hw.begun hp hobs v
      have haccess : (⟨World.get?, setWithin bound World.get? levels⟩ : Access).Tracks
          (World.Stacked places ((o, p) :: stack))
          fun _ ↦ ⟨World.get?, setOnStack bound (distinctAmong places) levels
            ((o, p) :: stack)⟩ := {
        read := fun _ _ _ _ ↦ .of_forall fun _ ↦ rfl
        write := fun o' p' v' u hu hr' ↦
          ⟨hu.keeps (keeps_setWithin _ _ _ _ _ _ u hr'), .of_forall fun _ ↦ ih hu hr'⟩ }
      obtain ⟨-, hsame⟩ := (tracks_runObservers (n := bound) (b := fun _ ↦ bound)
        (ε := ObserverError) (fun _ _ hd hs ↦ hs.keeps (.of_drifts hd)) haccess
        (.of_forall fun _ ↦ le_rfl) v ((w.object o).observersOf p)).of_ok hbegun hrun
      obtain ⟨k, hk⟩ := hsame.exists
      rw [if_neg, setWith_of_observed hp hobs hrun, setWith_of_observed hp hobs hk]
      simp [hbegun.distinctAmong]

end ReactiveFrames
