import ReactiveFrames.Proofs.Reactive.Reachable

/-!
# A write sticks

A write either stores its value, and then the value is there when the write returns and at every
read in between, or it is refused, and then nothing has happened. Either way the guards are in the
end what they were in the beginning. This holds in all worlds, those in the middle of other writes
included, and whatever the listeners and scripts do that run during the write.

## What it means that every read gives the value

All reads of properties during a write go through the reader of `setWithin`. That every read finds a
property with its new value is said by exchanging the reader: one that does as it likes in all
worlds in which the property has another value makes no difference.
-/

open Filter

namespace ReactiveFrames

open Script (Value)

namespace World

variable {o : ObjectRef} {p : String} {v : Value}

/-- The observers of the property are running, and it has the value. -/
def Holds (o : ObjectRef) (p : String) (v : Value) (w : World) : Prop :=
  p ∈ (w.object o).notifying ∧ w.get? o p = some v

theorem Holds.guardClosed : GuardClosed (Holds o p v) where
  keeps w w' hk h := ⟨by rw [hk.notifying]; exact h.1, by rw [hk.guarded o p h.1]; exact h.2⟩
  begun w o' p' v' hp h := by
    refine ⟨?_, ?_⟩
    · rw [notifying_begun]
      split_ifs
      · exact List.mem_cons_of_mem p' h.1
      · exact h.1
    · rw [get?_begun, if_neg]
      · exact h.2
      · rintro ⟨rfl, rfl, -⟩
        exact hp h.1

/-- When the observers of a write start to run, the property has the new value. -/
theorem holds_begun {w : World} (ho : o.index < w.host.objects.size) :
    Holds o p v (w.begun o p v) :=
  ⟨by rw [notifying_begun, if_pos ⟨rfl, ho⟩]; exact List.mem_cons_self,
    by rw [get?_begun, if_pos ⟨rfl, rfl, ho⟩]⟩

/-- A write of a property has at least two levels. -/
theorem exists_levels (w : World) : ∃ n, w.levels = n + 2 := ⟨_, rfl⟩

/-- While the observers of a write run, the property keeps the new value, and no reader makes a
difference that deviates only where it does not have it. -/
theorem holds_of_runObservers {w u : World} (ho : o.index < w.host.objects.size) {levels : Nat}
    {observers : List Observer}
    (hrun : (runObservers stepBound ⟨get?, setWithin stepBound get? levels⟩ v observers :
      Effect ObserverError Unit) (w.begun o p v) = .ok () u)
    {read : Lookup}
    (hread : ∀ u : World, u.get? o p = some v → ∀ o' p', read u o' p' = u.get? o' p') :
    u.get? o p = some v ∧
      (runObservers stepBound ⟨read, setWithin stepBound read levels⟩ v observers :
        Effect ObserverError Unit) (w.begun o p v) = .ok () u := by
  have hagree (u : World) (hu : Holds o p v u) (o' : ObjectRef) (p' : String) :
      ∀ᶠ _ in atTop (α := ℕ), read u o' p' = u.get? o' p' :=
    .of_forall fun _ ↦ hread u hu.2 o' p'
  have haccess : (⟨get?, setWithin stepBound get? levels⟩ : Access).Tracks (Holds o p v)
      fun _ ↦ ⟨read, setWithin stepBound read levels⟩ :=
    ⟨hagree, fun o' p' v' ↦ tracks_setWithin Holds.guardClosed hagree
      (.of_forall fun _ ↦ le_rfl) (.of_forall fun _ ↦ le_rfl) o' p' v'⟩
  have hobservers := (tracks_runObservers (n := stepBound) (b := fun _ ↦ stepBound)
    (ε := ObserverError) Holds.guardClosed.driftClosed haccess (.of_forall fun _ ↦ le_rfl) v
    observers).of_ok (holds_begun ho) hrun
  obtain ⟨k, hk⟩ := hobservers.2.exists
  exact ⟨hobservers.1.2, hk⟩

/-- A write that is not refused has stored its value in the end, and no reader makes a difference
to it that deviates only in worlds in which the property does not have that value. -/
theorem get?_of_set_eq_ok {w w' : World} (ho : o.index < w.host.objects.size)
    (h : set o p v w = .ok () w') {read : Lookup}
    (hread : ∀ u : World, u.get? o p = some v → ∀ o' p', read u o' p' = u.get? o' p') :
    w'.get? o p = some v ∧ setWithin stepBound read w.levels o p v w = .ok () w' := by
  obtain ⟨n, hn⟩ := w.exists_levels
  have hset (read : Lookup) : setWithin stepBound read w.levels o p v w
      = setWith stepBound ⟨read, setWithin stepBound read (n + 1)⟩ o p v w := by
    rw [hn, setWithin]
  have h' := (hset get?).symm.trans h
  rw [hset]
  rcases setWith_cases h' trivial with ⟨-, hr⟩ | ⟨hp, hobs, hr⟩ | ⟨hp, hobs, u, hrun, hr⟩
  · cases hr
  · cases hr
    exact ⟨by rw [get?_define, if_pos ⟨rfl, rfl, ho⟩], setWith_of_unobserved hp hobs⟩
  · obtain ⟨hu, hread⟩ := holds_of_runObservers ho hrun hread
    cases hr
    exact ⟨(get?_stopNotifying _ o o p p).trans hu, setWith_of_observed hp hobs hread⟩

/-- A write that returns an error has been refused and has changed nothing. -/
theorem eq_of_set_eq_error {w w' : World} {e : ObserverError} (h : set o p v w = .error e w') :
    p ∈ (w.object o).notifying ∧ e = .cycle (w.object o).path p ∧ w' = w := by
  rcases setWith_cases h trivial with ⟨hp, h'⟩ | ⟨-, -, h'⟩ | ⟨-, -, u, -, h'⟩
  · cases h'
    exact ⟨hp, rfl, rfl⟩
  · cases h'
  · cases h'

/-- A write that succeeds sticks: its value is there at the end, and no read during the write finds
the property without it. A write that fails is a refusal and leaves the world as it was. In the end
the guards of all objects are those of the beginning, and between the actions of a host there are
none. -/
theorem set_sticks_and_releases (w : World) (o : ObjectRef) (p : String) (v : Value)
    (ho : o.index < w.host.objects.size) :
    (∀ w', set o p v w = .ok () w' →
      w'.get? o p = some v ∧
        (∀ o', (w'.object o').notifying = (w.object o').notifying) ∧
        ∀ read : Lookup,
          (∀ u : World, u.get? o p = some v → ∀ o' p', read u o' p' = u.get? o' p') →
          setWithin stepBound read w.levels o p v w = .ok () w') ∧
      (∀ e w', set o p v w = .error e w' →
        p ∈ (w.object o).notifying ∧ e = .cycle (w.object o).path p ∧ w' = w) ∧
      (w.Reachable → ∀ o', (w.object o').notifying = []) := by
  refine ⟨fun w' h ↦ ⟨?_, fun o' ↦ ?_, fun read hread ↦ (get?_of_set_eq_ok ho h hread).2⟩,
    fun e w' h ↦ eq_of_set_eq_error h, fun hw ↦ hw.notifying_eq_nil⟩
  · have hread (u : World) (_ : u.get? o p = some v) (o' : ObjectRef) (p' : String) :
        u.get? o' p' = u.get? o' p' := rfl
    exact (get?_of_set_eq_ok ho h hread).1
  · have hkeeps := keeps_setWithin stepBound get? w.levels o p v w
    change (set o p v w).Returns → w.Keeps (set o p v w).state at hkeeps
    rw [h] at hkeeps
    exact (hkeeps trivial).notifying o'

/-- A watcher that writes the property that it watches is refused; the write sticks. -/
theorem set_sticks_watched :
    let w := (World.addObject ((ReactiveObject.ofFrame ⟨"Frame", "app", []⟩ "app").addObserver "x"
      (.watcher "log" (some ⟨⟨0⟩, "x", .null⟩))) (World.create 256 16)).2
    0 < w.host.objects.size ∧ ∃ w', set ⟨0⟩ "x" (.bool true) w = .ok () w' ∧
      w'.get? ⟨0⟩ "x" = some (.bool true) ∧ (w'.object ⟨0⟩).notifying = [] := by
  intro w
  have h : ∃ w', set ⟨0⟩ "x" (.bool true) w = .ok () w' := ⟨_, rfl⟩
  obtain ⟨w', hw'⟩ := h
  have hsticks := (set_sticks_and_releases w ⟨0⟩ "x" (.bool true) (by decide)).1 w' hw'
  exact ⟨by decide, w', hw', hsticks.1, (hsticks.2.1 ⟨0⟩).trans rfl⟩

end World

end ReactiveFrames
