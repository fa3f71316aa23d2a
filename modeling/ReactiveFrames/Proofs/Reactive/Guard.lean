import ReactiveFrames.Proofs.Reactive.Access

/-!
# The guard of a write

While the observers of a property run, further writes of the property are refused. So whatever runs
in between, scripts and listeners that write what they like included, the property keeps its value
and the guard stays in place until the observers have run, and then it is taken away again.

The invariant is `World.Keeps`: from a world to a later one no object is wired differently, the
guards in place are the same, and every guarded property has kept its value. Drift keeps, and a
write that returns keeps (`keeps_setWithin`), by induction on the levels of writes.

## The levels and the reader of a write

How many steps scripts may take, how many levels of writes there may be and how properties are read
does not matter to a write that returns, as long as there are no fewer steps and levels and reads
give the same in the worlds in which they happen (`tracks_setWithin`).
-/

open Filter

namespace ReactiveFrames

open Script (Value)
open Script.Machine (pinningValues)

/-! ## Objects after a change -/

namespace World

theorem object_modify (w : World) (o o' : ObjectRef) (f : ReactiveObject → ReactiveObject) :
    (w.modify o f).object o'
      = if o' = o ∧ o.index < w.host.objects.size then f (w.object o') else w.object o' := by
  have hget : (w.modify o f).object o'
      = ((w.host.objects.modify o.index f)[o'.index]?).getD default :=
    rfl
  rw [hget, Array.getElem?_modify]
  by_cases ho : o' = o
  · subst ho
    by_cases hlt : o'.index < w.host.objects.size
    · simp [hlt, World.object, ObjectGraph.object]
    · simp [hlt, World.object, ObjectGraph.object]
  · have hne : o.index ≠ o'.index := fun h ↦ ho (by cases o; cases o'; simp_all)
    rw [if_neg hne, if_neg fun h ↦ ho h.1]
    rfl

@[simp] theorem size_modify (w : World) (o : ObjectRef) (f : ReactiveObject → ReactiveObject) :
    (w.modify o f).host.objects.size = w.host.objects.size :=
  Array.size_modify

theorem get?_define (w : World) (o o' : ObjectRef) (p p' : String) (v : Value) :
    (w.define o p v).get? o' p'
      = if o' = o ∧ p' = p ∧ o.index < w.host.objects.size then some v else w.get? o' p' := by
  rw [define, get?, get?, object_modify]
  split_ifs with h h' h'
  · simp [ReactiveObject.define, h'.2.1]
  · have hp : p' ≠ p := fun hp ↦ h' ⟨h.1, hp, h.2⟩
    simp [ReactiveObject.define, hp]
  · exact absurd ⟨h'.1, h'.2.2⟩ h
  · rfl

theorem get?_startNotifying (w : World) (o o' : ObjectRef) (p p' : String) :
    (w.startNotifying o p).get? o' p' = w.get? o' p' := by
  rw [startNotifying, get?, get?, object_modify]
  split_ifs <;> rfl

theorem get?_stopNotifying (w : World) (o o' : ObjectRef) (p p' : String) :
    (w.stopNotifying o p).get? o' p' = w.get? o' p' := by
  rw [stopNotifying, get?, get?, object_modify]
  split_ifs <;> rfl

theorem notifying_define (w : World) (o o' : ObjectRef) (p : String) (v : Value) :
    ((w.define o p v).object o').notifying = (w.object o').notifying := by
  rw [define, object_modify]
  split_ifs <;> rfl

theorem notifying_startNotifying (w : World) (o o' : ObjectRef) (p : String) :
    ((w.startNotifying o p).object o').notifying
      = if o' = o ∧ o.index < w.host.objects.size then p :: (w.object o').notifying
        else (w.object o').notifying := by
  rw [startNotifying, object_modify]
  split_ifs <;> rfl

theorem notifying_stopNotifying (w : World) (o o' : ObjectRef) (p : String) :
    ((w.stopNotifying o p).object o').notifying
      = if o' = o ∧ o.index < w.host.objects.size then (w.object o').notifying.filter (· != p)
        else (w.object o').notifying := by
  rw [stopNotifying, object_modify]
  split_ifs <;> rfl

end World

/-! ## Wiring -/

/-- What no write changes about an object. -/
def ReactiveObject.wiring (o : ReactiveObject) : ReactiveObject :=
  { o with properties := Table.empty, notifying := [] }

/-- There are the same objects, and they are wired alike. -/
structure World.SameWiring (w w' : World) : Prop where
  size : w'.host.objects.size = w.host.objects.size
  wiring : ∀ o, (w'.object o).wiring = (w.object o).wiring

namespace World.SameWiring

variable {w w' w'' : World}

protected theorem refl (w : World) : w.SameWiring w := ⟨rfl, fun _ ↦ rfl⟩

protected theorem trans (h₁ : w.SameWiring w') (h₂ : w'.SameWiring w'') : w.SameWiring w'' :=
  ⟨h₂.size.trans h₁.size, fun o ↦ (h₂.wiring o).trans (h₁.wiring o)⟩

theorem path (h : w.SameWiring w') (o : ObjectRef) : (w'.object o).path = (w.object o).path :=
  (congrArg ReactiveObject.path (h.wiring o) :)

theorem observers (h : w.SameWiring w') (o : ObjectRef) :
    (w'.object o).observers = (w.object o).observers :=
  (congrArg ReactiveObject.observers (h.wiring o) :)

theorem observersOf (h : w.SameWiring w') (o : ObjectRef) (p : String) :
    (w'.object o).observersOf p = (w.object o).observersOf p := by
  rw [ReactiveObject.observersOf, ReactiveObject.observersOf, h.observers]

theorem of_objects (h : w'.host.objects = w.host.objects) : w.SameWiring w' := by
  refine ⟨by rw [h], fun o ↦ ?_⟩
  rw [World.object, World.object, ObjectGraph.object, ObjectGraph.object, h]

theorem modify (w : World) (o : ObjectRef) {f : ReactiveObject → ReactiveObject}
    (hf : ∀ x : ReactiveObject, (f x).wiring = x.wiring) : w.SameWiring (w.modify o f) := by
  refine ⟨w.size_modify o f, fun o' ↦ ?_⟩
  rw [World.object_modify]
  split_ifs
  · exact hf _
  · rfl

/-- Worlds that are wired alike have the same levels of writes. -/
theorem levels (h : w.SameWiring w') : w'.levels = w.levels := by
  have hmap : w'.host.objects.map ReactiveObject.wiring
      = w.host.objects.map ReactiveObject.wiring := by
    refine Array.ext (by simp [h.size]) fun i hi hi' ↦ ?_
    have hobject (u : World) (hu : i < u.host.objects.size) :
        u.object ⟨i⟩ = u.host.objects[i] := by
      simp [World.object, ObjectGraph.object, hu]
    rw [Array.size_map] at hi hi'
    rw [Array.getElem_map, Array.getElem_map, ← hobject w' hi, ← hobject w hi', h.wiring]
  have hfold (u : World) : u.levels = ((u.host.objects.map ReactiveObject.wiring).foldl
      (fun n o ↦ n + o.observers.entries.length) 0) + 2 := by
    rw [Array.foldl_map]
    rfl
  rw [hfold, hfold, hmap]

end World.SameWiring

/-! ## The course of a write -/

namespace World

/-- World in which the observers of a write start to run. -/
def begun (w : World) (o : ObjectRef) (p : String) (v : Value) : World :=
  let w' := (w.define o p v).startNotifying o p
  { w' with pins := [.value (w.toValue o), .value v] ++ w'.pins }

/-- World that a write leaves after its observers, with the values pinned that were before it. -/
def ended (w : World) (o : ObjectRef) (p : String) (pins : List Script.Pin) : World :=
  stopNotifying o p { w with pins := pins }

theorem get?_begun (w : World) (o o' : ObjectRef) (p p' : String) (v : Value) :
    (w.begun o p v).get? o' p'
      = if o' = o ∧ p' = p ∧ o.index < w.host.objects.size then some v else w.get? o' p' := by
  rw [← get?_define]
  exact get?_startNotifying (w.define o p v) o o' p p'

theorem notifying_begun (w : World) (o o' : ObjectRef) (p : String) (v : Value) :
    ((w.begun o p v).object o').notifying
      = if o' = o ∧ o.index < w.host.objects.size then p :: (w.object o').notifying
        else (w.object o').notifying := by
  have h := notifying_startNotifying (w.define o p v) o o' p
  rwa [notifying_define, define, size_modify] at h

theorem sameWiring_define (w : World) (o : ObjectRef) (p : String) (v : Value) :
    w.SameWiring (w.define o p v) :=
  .modify w o fun _ ↦ rfl

theorem sameWiring_startNotifying (w : World) (o : ObjectRef) (p : String) :
    w.SameWiring (w.startNotifying o p) :=
  .modify w o fun _ ↦ rfl

theorem sameWiring_stopNotifying (w : World) (o : ObjectRef) (p : String) :
    w.SameWiring (w.stopNotifying o p) :=
  .modify w o fun _ ↦ rfl

theorem sameWiring_begun (w : World) (o : ObjectRef) (p : String) (v : Value) :
    w.SameWiring (w.begun o p v) :=
  ((w.sameWiring_define o p v).trans (sameWiring_startNotifying _ o p)).trans (.of_objects rfl)

theorem sameWiring_ended (w : World) (o : ObjectRef) (p : String) (pins : List Script.Pin) :
    w.SameWiring (w.ended o p pins) := by
  have hpins : w.SameWiring { w with pins := pins } := .of_objects rfl
  exact hpins.trans (sameWiring_stopNotifying _ o p)

end World

section Write

variable {bound : Nat} {a : Access} {o : ObjectRef} {p : String} {v : Value} {w : World}

/-- A write is refused, or stores its value and runs the observers, if there are any. -/
theorem setWith_eq : setWith bound a o p v w =
    if p ∈ (w.object o).notifying then .error (.cycle (w.object o).path p) w
    else if (w.object o).observersOf p = [] then .ok () (w.define o p v)
    else
      match runObservers bound a v ((w.object o).observersOf p) (w.begun o p v) with
      | .ok () w' => .ok () (w'.ended o p w.pins)
      | .error e w' => .error e { w' with pins := w.pins }
      | .exhausted w' => .exhausted { w' with pins := w.pins } := by
  change (if p ∈ (w.object o).notifying then _ else _ : Effect ObserverError Unit) w = _
  cases hobs : (w.object o).observersOf p with
  | nil =>
    rw [if_pos rfl]
    split_ifs <;> rfl
  | cons observer rest =>
    rw [if_neg (List.cons_ne_nil _ _)]
    split_ifs
    · rfl
    · -- The pins are those of the world before the write, whichever way the observers end.
      change Run.bind (fun _ ↦ (runObservers bound a v (observer :: rest) (w.begun o p v)).mapState
        fun w' ↦ { w' with pins := w.pins }) (fun _ ↦ Run.update (World.stopNotifying o p)) w = _
      unfold Run.bind
      dsimp only
      cases runObservers (ε := ObserverError) bound a v (observer :: rest) (w.begun o p v) <;> rfl

end Write

/-! ## What a write keeps -/

/-- From a world to a later one the wiring and the guards are the same, and the guarded properties
have kept their values. -/
structure World.Keeps (w w' : World) : Prop extends w.SameWiring w' where
  notifying : ∀ o, (w'.object o).notifying = (w.object o).notifying
  guarded : ∀ o p, p ∈ (w.object o).notifying → w'.get? o p = w.get? o p
  held : w'.host.held = w.host.held
  foreigns : w'.host.foreigns = w.host.foreigns
  maxDepth : w'.maxDepth = w.maxDepth
  heap : w.heap.Extends w'.heap

namespace World.Keeps

variable {w w' w'' : World}

protected theorem refl (w : World) : w.Keeps w :=
  ⟨.refl w, fun _ ↦ rfl, fun _ _ _ ↦ rfl, rfl, rfl, rfl, .refl _⟩

protected theorem trans (h₁ : w.Keeps w') (h₂ : w'.Keeps w'') : w.Keeps w'' where
  toSameWiring := h₁.toSameWiring.trans h₂.toSameWiring
  notifying o := (h₂.notifying o).trans (h₁.notifying o)
  guarded o p hp := (h₂.guarded o p (by rwa [h₁.notifying])).trans (h₁.guarded o p hp)
  held := h₂.held.trans h₁.held
  foreigns := h₂.foreigns.trans h₁.foreigns
  maxDepth := h₂.maxDepth.trans h₁.maxDepth
  heap := h₁.heap.trans h₂.heap

theorem of_drifts (h : w.Drifts w') : w.Keeps w' where
  toSameWiring := .of_objects h.objects
  notifying o := by rw [h.object]
  guarded o p _ := h.get? o p
  held := h.held
  foreigns := h.foreigns
  maxDepth := h.maxDepth
  heap := h.heap

/-- A value stored in a property that is not guarded. -/
theorem define (w : World) {o : ObjectRef} {p : String} (hp : p ∉ (w.object o).notifying)
    (v : Value) : w.Keeps (w.define o p v) where
  toSameWiring := w.sameWiring_define o p v
  notifying o' := w.notifying_define o o' p v
  guarded o' p' hp' := by
    rw [get?_define, if_neg]
    rintro ⟨rfl, rfl, -⟩
    exact hp hp'
  held := rfl
  foreigns := rfl
  maxDepth := rfl
  heap := .refl _

/-- A write keeps if what runs between its two ends does. -/
theorem ended {o : ObjectRef} {p : String} (hp : p ∉ (w.object o).notifying) {v : Value}
    (h : (w.begun o p v).Keeps w') : w.Keeps (w'.ended o p w.pins) where
  toSameWiring :=
    ((w.sameWiring_begun o p v).trans h.toSameWiring).trans (w'.sameWiring_ended o p w.pins)
  notifying o' := by
    have hended := notifying_stopNotifying { w' with pins := w.pins } o o' p
    have hsize : w'.host.objects.size = w.host.objects.size :=
      h.size.trans (w.sameWiring_begun o p v).size
    refine hended.trans ?_
    change (if o' = o ∧ o.index < w'.host.objects.size
      then (w'.object o').notifying.filter (· != p) else (w'.object o').notifying) = _
    rw [h.notifying, notifying_begun, hsize]
    split_ifs with ho
    · rw [List.filter_cons_of_neg (by simp), List.filter_eq_self]
      rintro q hq
      rw [ho.1] at hq
      exact bne_iff_ne.2 fun hqp ↦ hp (hqp ▸ hq)
    · rfl
  guarded o' p' hp' := by
    have hne : ¬(o' = o ∧ p' = p ∧ o.index < w.host.objects.size) := by
      rintro ⟨rfl, rfl, -⟩
      exact hp hp'
    have hp'' : p' ∈ ((w.begun o p v).object o').notifying := by
      rw [notifying_begun]
      split_ifs
      · exact List.mem_cons_of_mem p hp'
      · exact hp'
    calc (w'.ended o p w.pins).get? o' p'
        = w'.get? o' p' := get?_stopNotifying { w' with pins := w.pins } o o' p p'
      _ = (w.begun o p v).get? o' p' := h.guarded o' p' hp''
      _ = w.get? o' p' := by rw [get?_begun, if_neg hne]
  held := h.held
  foreigns := h.foreigns
  maxDepth := h.maxDepth
  heap := h.heap

end World.Keeps

/-! ## Observers do not fail -/

theorem reporting_ne_error {ε : Type} (x : Effect ObserverError Unit) (w : World) (e : ε)
    (w' : World) : (reporting x : Effect ε Unit) w ≠ .error e w' := by
  unfold reporting
  cases x w <;> exact nofun

/-- What follows a write that is reported starts from the world after the write, or after the
report of its refusal. -/
theorem reporting_eq_ok {ε : Type} {x : Effect ObserverError Unit} {w w' : World} :
    (reporting x : Effect ε Unit) w = .ok () w' ↔
      x w = .ok () w' ∨ ∃ e u, x w = .error e u ∧ u.report e = w' := by
  unfold reporting
  cases x w with
  | ok _ u =>
    refine ⟨fun h ↦ ?_, ?_⟩
    · cases h
      exact .inl rfl
    · rintro (h | ⟨e, u', h, -⟩) <;> cases h
      rfl
  | error e u =>
    refine ⟨fun h ↦ ?_, ?_⟩
    · cases h
      exact .inr ⟨e, u, rfl, rfl⟩
    · rintro (h | ⟨e', u', h, rfl⟩) <;> cases h
      rfl
  | exhausted u =>
    refine ⟨fun h ↦ (nomatch h), ?_⟩
    rintro (h | ⟨e, u', h, -⟩) <;> cases h

/-- A run of two steps that do not fail does not fail. -/
theorem bind_ne_error {ε α β : Type} {x : Effect ε α} {f : α → Effect ε β}
    (hx : ∀ w e w', x w ≠ .error e w') (hf : ∀ a w e w', f a w ≠ .error e w') (w : World) (e : ε)
    (w' : World) : (x >>= f) w ≠ .error e w' := by
  cases h : x w with
  | ok a u =>
    rw [Run.bind_of_ok h]
    exact hf a u e w'
  | error e' u => exact absurd h (hx w e' u)
  | exhausted u =>
    rw [Run.bind_of_exhausted h]
    exact nofun

theorem update_ne_error {ε : Type} (f : World → World) (w : World) (e : ε) (w' : World) :
    (Run.update f : Effect ε Unit) w ≠ .error e w' :=
  nofun

theorem follow_ne_error {ε : Type} (write : Writer) (tag : String) (f : FollowUp) (w : World)
    (e : ε) (w' : World) : (follow write tag f : Effect ε Unit) w ≠ .error e w' := by
  refine bind_ne_error (fun w e w' ↦ ?_) (fun _ ↦ update_ne_error _) w e w'
  split
  · refine bind_ne_error (fun w e w' ↦ ?_) (fun r w e w' ↦ ?_) w e w'
    · unfold Run.attempt
      cases write f.object f.property f.value w <;> exact nofun
    · cases r <;> exact nofun
  · exact nofun

theorem runObserver_ne_error {ε : Type} (bound : Nat) (a : Access) (v : Value)
    (observer : Observer) (w : World) (e : ε) (w' : World) :
    (runObserver bound a v observer : Effect ε Unit) w ≠ .error e w' := by
  cases observer with
  | listener owner name => exact reporting_ne_error _ w e w'
  | watcher tag f =>
    refine bind_ne_error (bind_ne_error (fun w e w' ↦ ?_) fun _ ↦ update_ne_error _)
      (fun _ w e w' ↦ ?_) w e w'
    · cases w.heap.description? v <;> exact nofun
    · cases f with
      | none => exact nofun
      | some f => exact follow_ne_error a.write tag f w e w'

theorem runObservers_ne_error {ε : Type} (bound : Nat) (a : Access) (v : Value)
    (observers : List Observer) (w : World) (e : ε) (w' : World) :
    (runObservers bound a v observers : Effect ε Unit) w ≠ .error e w' := by
  induction observers generalizing w e w' with
  | nil => exact nofun
  | cons observer rest ih =>
    exact bind_ne_error (runObserver_ne_error bound a v observer) (fun _ ↦ ih) w e w'

theorem runObservers_append {ε : Type} (bound : Nat) (a : Access) (v : Value)
    (xs ys : List Observer) :
    (runObservers bound a v (xs ++ ys) : Effect ε Unit)
      = (do runObservers bound a v xs; runObservers bound a v ys) := by
  induction xs with
  | nil => rfl
  | cons x xs ih => rw [List.cons_append, runObservers, runObservers, ih, bind_assoc]

/-! ## Writes at a level -/

section Write

variable {bound : Nat} {a : Access} {o : ObjectRef} {p : String} {v : Value} {w : World}
  {r : Outcome World ObserverError Unit}

/-- The three ways in which a write returns. -/
theorem setWith_cases (h : setWith bound a o p v w = r) (hr : r.Returns) :
    (p ∈ (w.object o).notifying ∧ r = .error (.cycle (w.object o).path p) w) ∨
      (p ∉ (w.object o).notifying ∧ (w.object o).observersOf p = [] ∧
        r = .ok () (w.define o p v)) ∨
      (p ∉ (w.object o).notifying ∧ (w.object o).observersOf p ≠ [] ∧
        ∃ w', (runObservers bound a v ((w.object o).observersOf p) : Effect ObserverError Unit)
          (w.begun o p v) = .ok () w' ∧ r = .ok () (w'.ended o p w.pins)) := by
  rw [setWith_eq] at h
  split_ifs at h with hp hobs
  · exact .inl ⟨hp, h.symm⟩
  · exact .inr (.inl ⟨hp, hobs, h.symm⟩)
  · refine .inr (.inr ⟨hp, hobs, ?_⟩)
    cases hrun : (runObservers bound a v ((w.object o).observersOf p) :
        Effect ObserverError Unit) (w.begun o p v) with
    | ok _ w' =>
      rw [hrun] at h
      exact ⟨w', rfl, h.symm⟩
    | error e w' => exact (runObservers_ne_error _ _ _ _ _ _ _ hrun).elim
    | exhausted w' =>
      rw [hrun] at h
      subst h
      exact hr.elim

theorem setWith_of_mem (hp : p ∈ (w.object o).notifying) :
    setWith bound a o p v w = .error (.cycle (w.object o).path p) w := by
  rw [setWith_eq, if_pos hp]

theorem setWith_of_unobserved (hp : p ∉ (w.object o).notifying)
    (hobs : (w.object o).observersOf p = []) :
    setWith bound a o p v w = .ok () (w.define o p v) := by
  rw [setWith_eq, if_neg hp, if_pos hobs]

theorem setWith_of_observed (hp : p ∉ (w.object o).notifying)
    (hobs : (w.object o).observersOf p ≠ []) {w' : World}
    (h : (runObservers bound a v ((w.object o).observersOf p) : Effect ObserverError Unit)
      (w.begun o p v) = .ok () w') :
    setWith bound a o p v w = .ok () (w'.ended o p w.pins) := by
  rw [setWith_eq, if_neg hp, if_neg hobs, h]

end Write

/-- A write that returns keeps the wiring, the guards and the guarded values. -/
theorem keeps_setWithin (bound : Nat) (read : Lookup) (levels : Nat) (o : ObjectRef) (p : String)
    (v : Value) (w : World) (hr : (setWithin bound read levels o p v w).Returns) :
    w.Keeps (setWithin bound read levels o p v w).state := by
  induction levels generalizing o p v w with
  | zero => exact hr.elim
  | succ levels ih =>
    rw [setWithin] at hr ⊢
    rcases setWith_cases rfl hr with ⟨-, h⟩ | ⟨hp, -, h⟩ | ⟨hp, -, w', hrun, h⟩
    · rw [h]
      exact .refl w
    · rw [h]
      exact .define w hp v
    · have hkeeps : World.DriftClosed (w.begun o p v).Keeps := fun _ _ hd hk ↦
        hk.trans (.of_drifts hd)
      have haccess : (⟨read, setWithin bound read levels⟩ : Access).Tracks (w.begun o p v).Keeps
          fun _ ↦ ⟨read, setWithin bound read levels⟩ := {
        read := fun _ _ _ _ ↦ .of_forall fun _ ↦ rfl
        write := fun o' p' v' u hu hr' ↦
          ⟨hu.trans (ih o' p' v' u hr'), .of_forall fun _ ↦ rfl⟩ }
      have hobservers := (tracks_runObservers (n := bound) (b := fun _ ↦ bound) (ε := ObserverError)
        hkeeps haccess (.of_forall fun _ ↦ le_rfl) v ((w.object o).observersOf p)).of_ok
          (.refl _) hrun
      rw [h]
      exact .ended hp hobservers.1

/-- A property of worlds that lasts during a write: it depends on the wiring, the guards and the
guarded values alone, and guarding another property does no harm to it. -/
structure World.GuardClosed (I : World → Prop) : Prop where
  keeps : ∀ w w', w.Keeps w' → I w → I w'
  begun : ∀ w o p v, p ∉ (w.object o).notifying → I w → I (w.begun o p v)

theorem World.GuardClosed.driftClosed {I : World → Prop} (hI : World.GuardClosed I) :
    World.DriftClosed I := fun w w' h ↦ hI.keeps w w' (.of_drifts h)

section Tracking

variable {I : World → Prop} (hI : World.GuardClosed I) {read : Lookup} {R : ℕ → Lookup}
  (hread : ∀ w, I w → ∀ o p, ∀ᶠ k in atTop, R k w o p = read w o p)
  {n : ℕ} {b : ℕ → ℕ} (hb : ∀ᶠ k in atTop, n ≤ b k)

include hI hread hb in
/-- A write that returns is the same with more steps for scripts, with more levels, and with a
reader that agrees in the worlds that can occur. -/
theorem tracks_setWithin {levels : ℕ} {l : ℕ → ℕ} (hl : ∀ᶠ k in atTop, levels ≤ l k)
    (o : ObjectRef) (p : String) (v : Value) :
    Run.Tracks I (setWithin n read levels o p v) fun k ↦ setWithin (b k) (R k) (l k) o p v := by
  induction levels generalizing l o p v with
  | zero => exact .exhaust
  | succ levels ih =>
    intro w hw hr
    refine ⟨hI.keeps _ _ (keeps_setWithin _ _ _ _ _ _ w hr) hw, ?_⟩
    have hpred : ∀ᶠ k in atTop, levels ≤ l k - 1 := hl.mono fun k hk ↦ by omega
    have hsucc : ∀ᶠ k in atTop, setWithin (b k) (R k) (l k) o p v w
        = setWith (b k) ⟨R k, setWithin (b k) (R k) (l k - 1)⟩ o p v w := by
      refine hl.mono fun k hk ↦ ?_
      obtain ⟨m, hm⟩ : ∃ m, l k = m + 1 := ⟨l k - 1, by omega⟩
      rw [hm]
      rfl
    have hsame : ∀ᶠ k in atTop, setWith (b k) ⟨R k, setWithin (b k) (R k) (l k - 1)⟩ o p v w
        = setWithin n read (levels + 1) o p v w := by
      rcases setWith_cases rfl hr with ⟨hp, h⟩ | ⟨hp, hobs, h⟩ | ⟨hp, hobs, w', hrun, h⟩
      · exact .of_forall fun k ↦ (setWith_of_mem hp).trans h.symm
      · exact .of_forall fun k ↦ (setWith_of_unobserved hp hobs).trans h.symm
      · have haccess : (⟨read, setWithin n read levels⟩ : Access).Tracks I
            fun k ↦ ⟨R k, setWithin (b k) (R k) (l k - 1)⟩ :=
          ⟨hread, fun o p v ↦ ih hpred o p v⟩
        have hobservers := (tracks_runObservers (ε := ObserverError) hI.driftClosed haccess hb v
          ((w.object o).observersOf p)).of_ok (hI.begun w o p v hp hw) hrun
        refine hobservers.2.mono fun k hk ↦ ?_
        exact (setWith_of_observed hp hobs hk).trans h.symm
    filter_upwards [hsucc, hsame] with k hk hk'
    rw [hk, hk']

end Tracking

end ReactiveFrames
