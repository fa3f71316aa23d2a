import Mathlib.Data.List.DropRight
import ReactiveFrames.Diagnostics

/-!
# Shared collections of failures

A collection of failures has many holders: the host, the compiled program, every object and every
listener. Each of them has a handle of the collection. A copy of a handle is a handle of the same
collection, and a failure can be reported, the collection cleared and looked at through any of them.

What a handle shows is a matter of what was done through all handles of its collection since it was
cleared last, in the order in which it was done: exactly the newest of the failures that were
reported, as many as the collection may keep, and how many they were.

## Main definitions

* `Diagnostics.pending`: the failures that are reported after the last time a collection is cleared.
* `Diagnostics.Shows`: a collection shows the newest of some failures, and counts all of them.
* `Handles`: collections with their handles, and `Handles.afterUses?`, what comes of the uses of
  handles one after the other.

## Main statements

* `Diagnostics.Shows.change`: what one report or clearing preserves.
* `Handles.Recorded.use?`: what one use of a handle preserves, for all collections.
* `Handles.shows_newest`: what a handle shows after any uses.
-/

namespace ReactiveFrames

namespace Diagnostics

/-! ## One collection -/

/-- What is done to a collection. -/
inductive Change where
  | report (e : ObserverError)
  | clear

/-- Failure that is reported. -/
def Change.error? : Change → Option ObserverError
  | report e => some e
  | clear => none

/-- The collection after a change. -/
def change (d : Diagnostics) : Change → Diagnostics
  | .report e => d.report e
  | .clear => d.clear

/-- Failures that are reported after the last time that the collection is cleared. -/
def pending (cs : List Change) : List ObserverError :=
  (cs.rtakeWhile fun c ↦ c.error?.isSome).filterMap Change.error?

@[simp] theorem pending_concat_report (cs : List Change) (e : ObserverError) :
    pending (cs ++ [.report e]) = pending cs ++ [e] := by
  rw [pending, List.rtakeWhile_concat_pos _ _ _ rfl, List.filterMap_append]
  rfl

@[simp] theorem pending_concat_clear (cs : List Change) : pending (cs ++ [.clear]) = [] := by
  rw [pending, List.rtakeWhile_concat_neg _ _ _ Bool.false_ne_true]
  rfl

/-- A collection that may keep so many failures shows the newest of some, oldest first, and counts
all of them. -/
structure Shows (d : Diagnostics) (capacity : ℕ) (es : List ObserverError) : Prop where
  capacity_eq : d.capacity = capacity
  errors_eq : d.errors = es.rtake (min es.length capacity)
  reported_eq : d.reported = min es.length maxReported

namespace Shows

variable {d : Diagnostics} {capacity : ℕ} {es : List ObserverError}

theorem length_errors (h : d.Shows capacity es) : d.errors.length = min es.length capacity := by
  rw [h.errors_eq, List.rtake, List.length_drop]
  omega

/-- No more failures are kept than were counted, unless more may be kept than can be counted. -/
theorem dropped_add_length (h : d.Shows capacity es) (hcapacity : capacity ≤ maxReported) :
    d.dropped + d.errors.length = d.reported := by
  have hle : d.errors.length ≤ d.reported := by
    rw [h.length_errors, h.reported_eq]
    omega
  exact Nat.sub_add_cancel hle

theorem fresh (capacity : ℕ) : ({ capacity := capacity } : Diagnostics).Shows capacity [] :=
  ⟨rfl, rfl, rfl⟩

protected theorem clear (h : d.Shows capacity es) : d.clear.Shows capacity [] :=
  ⟨h.capacity_eq, rfl, rfl⟩

/-- One more failure is kept, and counted up to a limit. When no more may be kept, the oldest one
that is kept makes room for it, if there is any. -/
protected theorem report (h : d.Shows capacity es) (e : ObserverError) :
    (d.report e).Shows capacity (es ++ [e]) where
  capacity_eq := h.capacity_eq
  reported_eq := by
    change min (d.reported + 1) maxReported = _
    rw [h.reported_eq, List.length_append, List.length_singleton]
    omega
  errors_eq := by
    have hlength := h.length_errors
    have hnew : (es ++ [e]).length = es.length + 1 := List.length_append
    change (if d.capacity = 0 then d.errors
      else (if d.capacity ≤ d.errors.length then d.errors.drop 1 else d.errors) ++ [e]) = _
    rw [h.capacity_eq, hnew]
    by_cases hzero : capacity = 0
    · rw [if_pos hzero, h.errors_eq, hzero, Nat.min_zero, Nat.min_zero, List.rtake_zero,
        List.rtake_zero]
    -- One place is for the new failure, the others are for the newest ones before it.
    obtain ⟨room, rfl⟩ : ∃ room, capacity = room + 1 := ⟨capacity - 1, by omega⟩
    rw [if_neg hzero, Nat.add_min_add_right, List.rtake_concat_succ]
    congr 1
    by_cases hfull : room + 1 ≤ es.length
    · rw [if_pos (by omega), h.errors_eq, List.rtake, List.rtake, List.drop_drop]
      congr 1
      omega
    · rw [if_neg (by omega), h.errors_eq]
      congr 1
      omega

/-- What one change preserves. -/
theorem change {cs : List Change} (h : d.Shows capacity (pending cs)) (c : Change) :
    (d.change c).Shows capacity (pending (cs ++ [c])) := by
  cases c with
  | report e =>
    rw [pending_concat_report]
    exact h.report e
  | clear =>
    rw [pending_concat_clear]
    exact h.clear

end Shows

end Diagnostics

/-! ## Handles -/

open Diagnostics (Change pending)

private theorem getElem?_concat_cases {α : Type} {l : List α} {a b : α} {k : ℕ}
    (h : (l ++ [a])[k]? = some b) : l[k]? = some b ∨ k = l.length ∧ a = b := by
  rw [List.getElem?_append] at h
  split at h
  · exact .inl h
  · obtain ⟨hk, rfl⟩ := List.getElem?_eq_some_iff.1 h
    rw [List.length_singleton] at hk
    refine .inr ⟨by omega, ?_⟩
    rw [List.getElem_singleton]

/-- What is done with handles. They are numbered in the order in which they come up. -/
inductive HandleUse where
  /-- A new collection comes up, and a handle of it. -/
  | create (capacity : UInt64)
  /-- A copy of a handle comes up. -/
  | copy (handle : ℕ)
  /-- A collection is changed through a handle of it. -/
  | change (handle : ℕ) (c : Change)

/-- Failures that the collection may keep that comes up. -/
def HandleUse.capacity? : HandleUse → Option UInt64
  | create capacity => some capacity
  | copy _ => none
  | change _ _ => none

/-- Failures that each of the collections may keep. -/
def HandleUse.capacities (us : List HandleUse) : List UInt64 := us.filterMap capacity?

theorem HandleUse.capacities_concat (us : List HandleUse) (u : HandleUse) :
    capacities (us ++ [u]) = capacities us ++ u.capacity?.toList := by
  rw [capacities, List.filterMap_append, List.filterMap_cons, List.filterMap_nil]
  cases u.capacity? <;> rfl

/-- Collections with their handles. -/
structure Handles where
  collections : List Diagnostics := []
  /-- Number of the collection of each handle. -/
  targets : List ℕ := []

namespace Handles

open HandleUse (capacities capacities_concat)

/-- What comes of a use. Only handles can be used that have come up. -/
def use? (s : Handles) : HandleUse → Option Handles
  | .create capacity =>
    some
      { collections := s.collections ++ [{ capacity := capacity.toNat }]
        targets := s.targets ++ [s.collections.length] }
  | .copy handle => s.targets[handle]?.map fun k ↦ { s with targets := s.targets ++ [k] }
  | .change handle c =>
    s.targets[handle]?.map fun k ↦ { s with collections := s.collections.modify k (·.change c) }

/-- What comes of uses one after the other, while there is nothing at first. -/
def afterUses? (us : List HandleUse) : Option Handles := us.foldlM use? {}

/-- The collection that is seen through a handle. -/
def view? (s : Handles) (handle : ℕ) : Option Diagnostics :=
  s.targets[handle]?.bind fun k ↦ s.collections[k]?

/-- What is done to a collection through any of its handles, in order. -/
def changesOf (s : Handles) (k : ℕ) (us : List HandleUse) : List Change :=
  us.filterMap fun u ↦
    match u with
    | .change handle c => if s.targets[handle]? = some k then some c else none
    | _ => none

theorem changesOf_append (s : Handles) (k : ℕ) (us vs : List HandleUse) :
    s.changesOf k (us ++ vs) = s.changesOf k us ++ s.changesOf k vs :=
  List.filterMap_append

/-- Only the targets of the handles matter through which something is changed. -/
theorem changesOf_congr {s s' : Handles} {us : List HandleUse}
    (h : ∀ handle c, .change handle c ∈ us → s'.targets[handle]? = s.targets[handle]?) (k : ℕ) :
    s'.changesOf k us = s.changesOf k us := by
  refine List.filterMap_congr fun u hu ↦ ?_
  cases u with
  | create _ => rfl
  | copy _ => rfl
  | change handle c => simp only [h handle c hu]

/-- Failures that are reported through any handle of a collection after the last time that it is
cleared through any. -/
def pendingOf (s : Handles) (k : ℕ) (us : List HandleUse) : List ObserverError :=
  pending (s.changesOf k us)

/-- Through no handle, nothing is done to a collection. -/
theorem changesOf_eq_nil {s : Handles} {k : ℕ} (hk : k ∉ s.targets) (us : List HandleUse) :
    s.changesOf k us = [] := by
  refine List.filterMap_eq_nil_iff.2 fun u _ ↦ ?_
  cases u with
  | create _ => rfl
  | copy _ => rfl
  | change handle c => exact if_neg fun htarget ↦ hk (List.mem_of_getElem? htarget)

/-- After some uses, every collection shows what was done to it through its handles. -/
structure Recorded (us : List HandleUse) (s : Handles) : Prop where
  length_eq : s.collections.length = (capacities us).length
  target_lt : ∀ k ∈ s.targets, k < s.collections.length
  handle_lt : ∀ handle c, .change handle c ∈ us → handle < s.targets.length
  shows : ∀ (k : ℕ) (d : Diagnostics), s.collections[k]? = some d →
    ∃ capacity, (capacities us)[k]? = some capacity ∧ d.Shows capacity.toNat (s.pendingOf k us)

namespace Recorded

variable {us : List HandleUse} {s s' : Handles}

theorem nil : Recorded [] {} where
  length_eq := rfl
  target_lt _ hk := absurd hk List.not_mem_nil
  handle_lt _ _ hu := absurd hu List.not_mem_nil
  shows _ _ hd := by cases hd

/-- Handles that come up later make no difference to what was done before. -/
theorem changesOf_append_targets (h : Recorded us s) (ds : List Diagnostics) (ks : List ℕ) (k : ℕ) :
    Handles.changesOf ⟨ds, s.targets ++ ks⟩ k us = s.changesOf k us :=
  changesOf_congr (fun handle c hu ↦ List.getElem?_append_left (h.handle_lt handle c hu)) k

theorem create (h : Recorded us s) (capacity : UInt64) :
    Recorded (us ++ [.create capacity])
      { collections := s.collections ++ [{ capacity := capacity.toNat }]
        targets := s.targets ++ [s.collections.length] } where
  length_eq := by
    rw [capacities_concat, List.length_append, List.length_append, h.length_eq]
    rfl
  target_lt k hk := by
    rw [List.length_append, List.length_singleton]
    rcases List.mem_append.1 hk with hk | hk
    · exact Nat.lt_succ_of_lt (h.target_lt k hk)
    · rw [List.mem_singleton.1 hk]
      exact Nat.lt_succ_self _
  handle_lt handle c hu := by
    rw [List.length_append]
    rcases List.mem_append.1 hu with hu | hu
    · exact Nat.lt_add_right _ (h.handle_lt handle c hu)
    · cases List.mem_singleton.1 hu
  shows k d hd := by
    have hnone : Handles.changesOf
        ⟨s.collections ++ [{ capacity := capacity.toNat }], s.targets ++ [s.collections.length]⟩ k
          [.create capacity] = [] := rfl
    rw [pendingOf, changesOf_append, hnone, List.append_nil, h.changesOf_append_targets,
      capacities_concat]
    rcases getElem?_concat_cases hd with hd | ⟨rfl, rfl⟩
    · obtain ⟨capacity', hcapacity, hshows⟩ := h.shows k d hd
      have hlt := (List.getElem?_eq_some_iff.1 hcapacity).1
      exact ⟨capacity', (List.getElem?_append_left hlt).trans hcapacity, hshows⟩
    · -- No handle before is one of the new collection.
      have hnew : s.collections.length ∉ s.targets := fun hmem ↦ (h.target_lt _ hmem).false
      rw [changesOf_eq_nil hnew, h.length_eq]
      exact ⟨capacity, List.getElem?_concat_length, .fresh _⟩

theorem copy (h : Recorded us s) {handle k : ℕ} (hk : s.targets[handle]? = some k) :
    Recorded (us ++ [.copy handle]) { s with targets := s.targets ++ [k] } where
  length_eq := by
    rw [capacities_concat, List.length_append, h.length_eq]
    rfl
  target_lt k' hk' := by
    rcases List.mem_append.1 hk' with hk' | hk'
    · exact h.target_lt k' hk'
    · rw [List.mem_singleton.1 hk']
      exact h.target_lt k (List.mem_of_getElem? hk)
  handle_lt handle' c hu := by
    rw [List.length_append]
    rcases List.mem_append.1 hu with hu | hu
    · exact Nat.lt_add_right _ (h.handle_lt handle' c hu)
    · cases List.mem_singleton.1 hu
  shows k' d hd := by
    have hnone : Handles.changesOf ⟨s.collections, s.targets ++ [k]⟩ k' [.copy handle] = [] := rfl
    rw [pendingOf, changesOf_append, hnone, List.append_nil, h.changesOf_append_targets,
      capacities_concat]
    exact (List.append_nil (capacities us)).symm ▸ h.shows k' d hd

theorem change (h : Recorded us s) {handle k : ℕ} (hk : s.targets[handle]? = some k) (c : Change) :
    Recorded (us ++ [.change handle c])
      { s with collections := s.collections.modify k (·.change c) } where
  length_eq := by
    rw [capacities_concat, List.length_append, List.length_modify, h.length_eq]
    rfl
  target_lt k' hk' := by
    rw [List.length_modify]
    exact h.target_lt k' hk'
  handle_lt handle' c' hu := by
    rcases List.mem_append.1 hu with hu | hu
    · exact h.handle_lt handle' c' hu
    · cases List.mem_singleton.1 hu
      exact (List.getElem?_eq_some_iff.1 hk).1
  shows k' d hd := by
    rw [List.getElem?_modify] at hd
    obtain ⟨d', hd', rfl⟩ := Option.map_eq_some_iff.1 hd
    obtain ⟨capacity, hcapacity, hshows⟩ := h.shows k' d' hd'
    have hcapacity' : (capacities (us ++ [.change handle c]))[k']? = some capacity := by
      rwa [capacities_concat, HandleUse.capacity?, Option.toList_none, List.append_nil]
    refine ⟨capacity, hcapacity', ?_⟩
    rw [pendingOf, changesOf_append]
    change Diagnostics.Shows _ _ (pending (s.changesOf k' us ++ s.changesOf k' [.change handle c]))
    by_cases hsame : k = k'
    · have hone : s.changesOf k' [.change handle c] = [c] := by
        simp [changesOf, hk, hsame]
      rw [hone, if_pos hsame]
      exact hshows.change c
    · have hnone : s.changesOf k' [.change handle c] = [] := by
        simp [changesOf, hk, hsame]
      rw [hnone, List.append_nil, if_neg hsame]
      exact hshows

/-- What one use preserves. -/
theorem use? (h : Recorded us s) {u : HandleUse} (hu : s.use? u = some s') :
    Recorded (us ++ [u]) s' := by
  cases u with
  | create capacity =>
    obtain rfl : _ = s' := Option.some.inj hu
    exact h.create capacity
  | copy handle =>
    obtain ⟨k, hk, rfl⟩ := Option.map_eq_some_iff.1 hu
    exact h.copy hk
  | change handle c =>
    obtain ⟨k, hk, rfl⟩ := Option.map_eq_some_iff.1 hu
    exact h.change hk c

end Recorded

/-- After any uses, what was done to the collections is recorded. -/
theorem recorded_of_afterUses? {us : List HandleUse} {s : Handles} (h : afterUses? us = some s) :
    Recorded us s := by
  induction us using List.reverseRecOn generalizing s with
  | nil =>
    cases h
    exact .nil
  | append_singleton us u ih =>
    rw [afterUses?, List.foldlM_append] at h
    obtain ⟨s₀, hs₀, hu⟩ := Option.bind_eq_some_iff.1 h
    rw [List.foldlM_cons] at hu
    obtain ⟨s', hs', hu⟩ := Option.bind_eq_some_iff.1 hu
    cases hu
    exact (ih hs₀).use? hs'

/-- Through every handle of a collection the same is seen. With `n` failures reported through any
of them since the collection was cleared last, these are the newest ones, as many of the `n` as it
may keep, oldest first; `n` is counted, up to what can be counted, and those of them that are not
kept are told apart. No other collection makes a difference. -/
theorem shows_newest {us : List HandleUse} {s : Handles} (hrun : afterUses? us = some s)
    {handle k : ℕ} (hhandle : s.targets[handle]? = some k) :
    ∃ capacity d, (capacities us)[k]? = some capacity ∧
      (∀ other, s.targets[other]? = some k → s.view? other = some d) ∧
      d.errors = (s.pendingOf k us).rtake (min (s.pendingOf k us).length capacity.toNat) ∧
      d.reported = min (s.pendingOf k us).length Diagnostics.maxReported ∧
      d.dropped + d.errors.length = d.reported := by
  have hrecorded := recorded_of_afterUses? hrun
  have hk := hrecorded.target_lt k (List.mem_of_getElem? hhandle)
  have hd := List.getElem?_eq_getElem hk
  obtain ⟨capacity, hcapacity, hshows⟩ := hrecorded.shows k _ hd
  have hview (other : ℕ) (hother : s.targets[other]? = some k) :
      s.view? other = some s.collections[k] := by
    rw [view?, hother, Option.bind_some, hd]
  have hword : capacity.toNat ≤ Diagnostics.maxReported :=
    Nat.le_of_lt_succ (UInt64.toNat_lt _)
  exact ⟨_, _, hcapacity, hview, hshows.errors_eq, hshows.reported_eq,
    hshows.dropped_add_length hword⟩

/-- Two collections come up, one with two handles and one that may keep nothing. -/
def exampleUses : List HandleUse :=
  [.create 2, .copy 0, .create 0, .change 1 (.report (.released "a")), .change 0 .clear,
    .change 0 (.report (.released "b")), .change 1 (.report (.released "c")),
    .change 2 (.report (.released "a")), .change 0 (.report (.released "d"))]

/-- What is reported through one handle is seen through the other one, and a collection that keeps
nothing counts. -/
theorem shows_newest_copied : ∃ s d d', afterUses? exampleUses = some s ∧
    s.targets = [0, 0, 1] ∧ s.view? 0 = some d ∧ s.view? 1 = some d ∧ s.view? 2 = some d' ∧
    d.errors = [.released "c", .released "d"] ∧ d.reported = 3 ∧ d.dropped = 1 ∧
    d'.errors = [] ∧ d'.reported = 1 ∧ d'.dropped = 1 := by
  obtain ⟨s, hrun, htargets, hfirst, hsecond⟩ : ∃ s, afterUses? exampleUses = some s ∧
      s.targets = [0, 0, 1] ∧
      s.pendingOf 0 exampleUses = [.released "b", .released "c", .released "d"] ∧
      s.pendingOf 1 exampleUses = [.released "a"] :=
    ⟨_, rfl, rfl, rfl, rfl⟩
  have hzero : s.targets[0]? = some 0 := by rw [htargets]; rfl
  have hone : s.targets[1]? = some 0 := by rw [htargets]; rfl
  have htwo : s.targets[2]? = some 1 := by rw [htargets]; rfl
  obtain ⟨c, d, hc, hview, herrors, hreported, hdropped⟩ := shows_newest hrun hone
  obtain ⟨c', d', hc', hview', herrors', hreported', hdropped'⟩ := shows_newest hrun htwo
  obtain rfl : 2 = c := Option.some.inj hc
  obtain rfl : 0 = c' := Option.some.inj hc'
  rw [hfirst] at herrors hreported
  rw [hsecond] at herrors' hreported'
  refine ⟨s, d, d', hrun, htargets, hview 0 hzero, hview 1 hone, hview' 2 htwo, herrors, hreported,
    ?_, herrors', hreported', ?_⟩
  · rw [herrors, hreported] at hdropped
    exact Nat.add_right_cancel hdropped
  · rw [herrors', hreported'] at hdropped'
    exact Nat.add_right_cancel hdropped'

end Handles

end ReactiveFrames
