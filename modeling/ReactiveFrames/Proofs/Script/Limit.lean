import ReactiveFrames.Proofs.Basic
import ReactiveFrames.Proofs.Script.Judgement

/-!
# Evaluation under a larger limit

The limit of calls shows in one way only: a call that would exceed it fails, and no script can catch
that. So an evaluation that does not fail in this way does the same under a larger limit. As a
judgement about actions this holds of the primitive actions, because they do not read the limit, and
of composed ones, because a part that fails so makes the whole fail so.

A host could read the limit, or start scripts whose failures it hides. The judgement therefore
speaks of a region without objects, which a script cannot leave.

## Main definitions

* `Machine.withLimit`: a machine with another limit.
* `Action.Outgrows`: an action does the same under a larger limit, unless it hits its own.
-/

namespace ReactiveFrames.Script

open Machine (nested pinning)

variable {σ α β : Type}

/-- The machine with another limit of calls. -/
def Machine.withLimit (d : Nat) (m : Machine σ) : Machine σ := { m with maxDepth := d }

/-- The run did not end because too many closures were being called. -/
def StaysBelow (r : Outcome (Machine σ) ScriptError α) : Prop := ∀ u, r ≠ .error .callDepth u

theorem StaysBelow.of_okWith {r : Outcome (Machine σ) ScriptError α}
    (test : α → Machine σ → Bool) (h : r.okWith test = true) : StaysBelow r := by
  obtain ⟨a, u, rfl, -⟩ := Outcome.exists_of_okWith h
  intro u
  simp

/-- On machines whose heap is closed for the region and whose limit is not larger, the action either
hits the limit, or does the same under the larger one; and it yields what has the property. -/
structure Action.Outgrows (R : Region) (d : Nat) (P : α → Prop) (x : Action σ α) : Prop where
  same : ∀ m : Machine σ, R.Closed m.heap → m.maxDepth ≤ d → StaysBelow (x m) →
    x (m.withLimit d) = (x m).mapState (Machine.withLimit d)
  yields : ∀ m : Machine σ, R.Closed m.heap → m.maxDepth ≤ d → ∀ a u, x m = .ok a u →
    P a ∧ R.Closed u.heap ∧ u.maxDepth ≤ d

namespace Action.Outgrows

variable {R : Region} {d : Nat} {P : α → Prop} {Q : β → Prop} {x : Action σ α}

protected theorem pure {a : α} (ha : P a) : Outgrows R d P (Pure.pure a : Action σ α) where
  same _ _ _ _ := rfl
  yields m hm hle b u h := by
    cases h
    exact ⟨ha, hm, hle⟩

protected theorem fail (e : ScriptError) : Outgrows R d P (Run.fail e : Action σ α) where
  same _ _ _ _ := rfl
  yields _ _ _ _ _ h := nomatch h

protected theorem exhaust : Outgrows R d P (Run.exhaust : Action σ α) where
  same _ _ _ _ := rfl
  yields _ _ _ _ _ h := nomatch h

protected theorem bind {f : α → Action σ β} (hx : Outgrows R d P x)
    (hf : ∀ a, P a → Outgrows R d Q (f a)) : Outgrows R d Q (x >>= f) where
  same m hm hle hbelow := by
    change StaysBelow (Run.bind x f m) at hbelow
    change Run.bind x f (m.withLimit d) = (Run.bind x f m).mapState (Machine.withLimit d)
    -- A second action is run only if the first one ends well, on a closed machine again.
    unfold Run.bind at hbelow ⊢
    have hsame := hx.same m hm hle
    cases hrun : x m with
    | ok a u =>
      obtain ⟨ha, hu, hule⟩ := hx.yields m hm hle a u hrun
      rw [hrun] at hsame hbelow
      rw [hsame fun _ h ↦ nomatch h]
      exact (hf a ha).same u hu hule hbelow
    | error e u =>
      rw [hrun] at hsame hbelow
      rw [hsame fun v h ↦ hbelow v (by cases h; rfl)]
      rfl
    | exhausted u =>
      rw [hrun] at hsame
      rw [hsame fun _ h ↦ nomatch h]
      rfl
  yields m hm hle b v h := by
    obtain ⟨a, u, hrun, hrest⟩ := Run.bind_eq_ok.1 h
    obtain ⟨ha, hu, hule⟩ := hx.yields m hm hle a u hrun
    exact (hf a ha).yields u hu hule b v hrest

/-- Changes of the machine before and after that have nothing to do with the limit. -/
theorem between {f : Machine σ → Machine σ} {g : Machine σ → Machine σ → Machine σ}
    (hf : ∀ m, (f m).heap = m.heap ∧ (f m).maxDepth = m.maxDepth ∧
      f (m.withLimit d) = (f m).withLimit d)
    (hg : ∀ m u, (g m u).heap = u.heap ∧ (g m u).maxDepth = u.maxDepth ∧
      g (m.withLimit d) (u.withLimit d) = (g m u).withLimit d)
    (hx : Outgrows R d P x) : Outgrows R d P fun m ↦ (x (f m)).mapState (g m) where
  same m hm hle hbelow := by
    obtain ⟨hheap, hmax, hlimit⟩ := hf m
    have hsame := hx.same (f m) (hheap ▸ hm) (hmax ▸ hle) fun u h ↦ hbelow (g m u) (by rw [h]; rfl)
    rw [hlimit, hsame]
    cases x (f m) with
    | ok a u => exact congrArg (Outcome.ok a) (hg m u).2.2
    | error e u => exact congrArg (Outcome.error e) (hg m u).2.2
    | exhausted u => exact congrArg Outcome.exhausted (hg m u).2.2
  yields m hm hle a u h := by
    obtain ⟨hheap, hmax, -⟩ := hf m
    cases hrun : x (f m) with
    | ok b v =>
      rw [hrun] at h
      cases h
      obtain ⟨ha, hv, hvle⟩ := hx.yields (f m) (hheap ▸ hm) (hmax ▸ hle) a v hrun
      obtain ⟨hheap', hmax', -⟩ := hg m v
      exact ⟨ha, hheap' ▸ hv, hmax' ▸ hvle⟩
    | error e v =>
      rw [hrun] at h
      cases h
    | exhausted v =>
      rw [hrun] at h
      cases h

protected theorem pinning (pins : List Pin) (hx : Outgrows R d P x) :
    Outgrows R d P (pinning pins x) :=
  hx.between (f := fun m ↦ { m with pins := pins ++ m.pins })
    (g := fun m u ↦ { u with pins := m.pins })
    (fun _ ↦ ⟨rfl, rfl, rfl⟩) fun _ _ ↦ ⟨rfl, rfl, rfl⟩

protected theorem nested (hx : Outgrows R d P x) : Outgrows R d P (nested x) :=
  hx.between (f := fun m ↦ { m with depth := m.depth + 1 })
    (g := fun m u ↦ { u with depth := m.depth })
    (fun _ ↦ ⟨rfl, rfl, rfl⟩) fun _ _ ↦ ⟨rfl, rfl, rfl⟩

/-- A call that the limit does not refuse is not refused by the larger one. -/
protected theorem limited (hx : Outgrows R d P x) : Outgrows R d P (Machine.limited x) where
  same m hm hle hbelow := by
    unfold Machine.limited at hbelow ⊢
    by_cases hdepth : m.maxDepth ≤ m.depth
    · rw [if_pos hdepth] at hbelow
      exact absurd rfl (hbelow m)
    · rw [if_neg hdepth] at hbelow
      -- What the smaller limit lets pass, the larger one lets pass.
      have hdepth' : ¬(m.withLimit d).maxDepth ≤ (m.withLimit d).depth := by
        intro h
        exact hdepth (Nat.le_trans hle h)
      rw [if_neg hdepth, if_neg hdepth']
      exact hx.same m hm hle hbelow
  yields m hm hle a u h := by
    unfold Machine.limited at h
    by_cases hdepth : m.maxDepth ≤ m.depth
    · rw [if_pos hdepth] at h
      cases h
    · rw [if_neg hdepth] at h
      exact hx.yields m hm hle a u h

protected theorem zoom {f : Run Heap ScriptError α}
    (hf : ∀ h, R.Closed h → ∀ a h', f h = .ok a h' → P a ∧ R.Closed h') :
    Outgrows R d P (Action.zoom f : Action σ α) where
  same m _ _ _ := by
    have hheap : (m.withLimit d).heap = m.heap := rfl
    unfold Action.zoom
    rw [hheap]
    cases f m.heap <;> rfl
  yields m hm hle a u h := by
    unfold Action.zoom at h
    cases hrun : f m.heap with
    | ok b h' =>
      simp only [hrun] at h
      cases h
      obtain ⟨ha, hh'⟩ := hf m.heap hm a h' hrun
      exact ⟨ha, hh', hle⟩
    | error e h' => simp [hrun] at h
    | exhausted h' => simp [hrun] at h

protected theorem update {f : Machine σ → Machine σ}
    (hf : ∀ m, (f m).heap = m.heap ∧ (f m).maxDepth = m.maxDepth ∧
      f (m.withLimit d) = (f m).withLimit d) :
    Outgrows R d (fun _ ↦ True) (Run.update f : Action σ Unit) where
  same m _ _ _ := congrArg (Outcome.ok ()) (hf m).2.2
  yields m hm hle u v h := by
    obtain ⟨hheap, hmax, -⟩ := hf m
    cases h
    exact ⟨trivial, hheap ▸ hm, hmax ▸ hle⟩

/-- A failure that is counted does not have to do with the limit, unless it is that of the limit. -/
theorem counted (notice : String) (hx : Outgrows R d P x) :
    Outgrows R d P (counted notice x) where
  same m hm hle hbelow := by
    have hsame := hx.same m hm hle
    unfold Script.counted at hbelow ⊢
    cases hrun : x m with
    | ok a u =>
      rw [hrun] at hsame
      rw [hsame fun _ h ↦ nomatch h]
      rfl
    | error e u =>
      rw [hrun] at hsame hbelow
      rw [hsame fun v h ↦ hbelow _ (by cases h; rfl)]
      rfl
    | exhausted u =>
      rw [hrun] at hsame
      rw [hsame fun _ h ↦ nomatch h]
      rfl
  yields m hm hle a u h := by
    unfold Script.counted at h
    cases hrun : x m with
    | ok b v =>
      rw [hrun] at h
      cases h
      exact hx.yields m hm hle a u hrun
    | error e v =>
      rw [hrun] at h
      cases h
    | exhausted v =>
      rw [hrun] at h
      cases h

end Action.Outgrows

/-- In a region without objects every evaluation does the same under a larger limit, if functions
outside scripts do, unless it hits its own limit. -/
theorem compositional_outgrows {host : Host σ} {R : Region} {d : Nat} (hhost : ∀ ref, ¬R.host ref)
    (hcall : ∀ ref arguments, R.foreign ref → R.HasAll arguments →
      Action.Outgrows R d R.Has (host.call ref arguments)) :
    Compositional host R fun P x ↦ Action.Outgrows R d P x where
  exhaust := .exhaust
  pure ha := .pure ha
  fail e := .fail e
  bind hx hf := hx.bind hf
  pinning pins hx := hx.pinning pins
  nested hx := hx.nested
  limited hx := hx.limited
  zoom hf := .zoom hf
  log _ := .update fun _ ↦ ⟨rfl, rfl, rfl⟩
  read ref _ href := absurd href (hhost ref)
  write ref _ _ href _ := absurd href (hhost ref)
  call := hcall

end ReactiveFrames.Script
