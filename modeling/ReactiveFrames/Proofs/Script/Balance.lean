import ReactiveFrames.Proofs.Basic
import ReactiveFrames.Proofs.Script.Judgement

/-!
# The counters of the machine

A machine counts the closures that are being called, and the evaluations that have failed. However
an evaluation ends, the first count is what it was, and so is the limit; and no failure is counted
while one script is evaluated, since failures are counted where a script is started from outside.

That is a judgement about actions, and it holds of every evaluation if it does of the writes and
calls of the host. So does every relation between the machines before and after a computation that
the heap and the console do not matter to (`Machine.Scoped`): what is pinned is another example.

## Main definitions

* `Machine.Scoped`: relations that hold between the machines before and after every evaluation.
* `Machine.SameDepth`, `Machine.Balanced`: what happens to the counters of a machine.
* `Action.Balances`: a computation after which they are as they were.
-/

namespace ReactiveFrames

namespace Script

open Machine (nested pinning)

variable {σ ε α β : Type}

/-! ## Relations between machines -/

/-- The values that the action yields have the property. -/
def Action.Yields (P : α → Prop) (x : Action σ α) : Prop := ∀ m a m', x m = .ok a m' → P a

/-- A relation between the machines before and after a computation that does not notice what scripts
do to the heap and the console. What a computation pins, and that it counts as a call, is over with
the computation. -/
structure Machine.Scoped (S : Machine σ → Machine σ → Prop) : Prop where
  refl : ∀ m, S m m
  trans : ∀ m m' m'', S m m' → S m' m'' → S m m''
  heap : ∀ (m : Machine σ) h, S m { m with heap := h }
  log : ∀ (m : Machine σ) line, S m (m.log line)
  pinning : ∀ (m m' : Machine σ) pins, S { m with pins := pins ++ m.pins } m' →
    S m { m' with pins := m.pins }
  nested : ∀ (m m' : Machine σ), S { m with depth := m.depth + 1 } m' →
    S m { m' with depth := m.depth }

/-- If the machines before and after every access to the host are so related, then those before and
after every evaluation are. -/
theorem Machine.Scoped.compositional {S : Machine σ → Machine σ → Prop} (hS : Machine.Scoped S)
    {host : Host σ} (hwrite : ∀ ref property v m, S m (host.write ref property v m).state)
    (hcall : ∀ ref arguments m, S m (host.call ref arguments m).state) :
    Compositional host .whole fun P x ↦ (∀ m, S m (x m).state) ∧ Action.Yields P x where
  exhaust := ⟨hS.refl, fun _ _ _ h ↦ by cases h⟩
  pure {α P a} ha := ⟨hS.refl, fun m b m' h ↦ by cases h; exact ha⟩
  fail e := ⟨hS.refl, fun _ _ _ h ↦ by cases h⟩
  bind {α β P Q x f} hx hf := by
    obtain ⟨hrelated, hyields⟩ := hx
    refine ⟨fun m ↦ ?_, fun m b m' h ↦ ?_⟩
    · exact Run.state_bind_of (P := S m) (hrelated m) fun a u hrun hu ↦
        hS.trans m u _ hu ((hf a (hyields m a u hrun)).1 u)
    · obtain ⟨a, u, hrun, hrest⟩ := Run.bind_eq_ok.1 h
      exact (hf a (hyields m a u hrun)).2 u b m' hrest
  pinning pins hx := by
    refine ⟨fun m ↦ ?_, fun m a m' h ↦ ?_⟩
    · rw [Machine.state_pinning]
      exact hS.pinning m _ pins (hx.1 _)
    · obtain ⟨u, hrun, -⟩ := Outcome.mapState_eq_ok.1 h
      exact hx.2 _ a u hrun
  nested hx := by
    refine ⟨fun m ↦ ?_, fun m a m' h ↦ ?_⟩
    · rw [Machine.state_nested]
      exact hS.nested m _ (hx.1 _)
    · obtain ⟨u, hrun, -⟩ := Outcome.mapState_eq_ok.1 h
      exact hx.2 _ a u hrun
  limited {α P x} hx := by
    refine ⟨fun m ↦ ?_, fun m a m' h ↦ ?_⟩
    · unfold Machine.limited
      split
      · exact hS.refl m
      · exact hx.1 m
    · unfold Machine.limited at h
      split at h
      · cases h
      · exact hx.2 m a m' h
  zoom {α P f} hf := by
    refine ⟨fun m ↦ ?_, fun m a m' h ↦ ?_⟩
    · unfold Action.zoom
      cases f m.heap <;> exact hS.heap m _
    · unfold Action.zoom at h
      cases hrun : f m.heap with
      | ok b h' =>
        simp only [hrun] at h
        cases h
        exact (hf m.heap (Region.closed_whole _) a h' hrun).1
      | error e h' => simp [hrun] at h
      | exhausted h' => simp [hrun] at h
  log line := ⟨fun m ↦ hS.log m line, fun _ _ _ _ ↦ trivial⟩
  read ref property _ := ⟨hS.refl, fun _ v _ _ ↦ Region.has_whole v⟩
  write ref property v _ _ := ⟨hwrite ref property v, fun _ _ _ _ ↦ trivial⟩
  call ref arguments _ _ := ⟨hcall ref arguments, fun _ v _ _ ↦ Region.has_whole v⟩

/-! ## Counters -/

/-- As many closures are being called on the one machine as on the other one, and as many may be. -/
structure Machine.SameDepth (m m' : Machine σ) : Prop where
  depth : m'.depth = m.depth
  maxDepth : m'.maxDepth = m.maxDepth

/-- What becomes of the counters of a machine while scripts run on it. -/
structure Machine.Balanced (m m' : Machine σ) : Prop extends m.SameDepth m' where
  /-- No failure remains counted. -/
  failures : m.failures = 0 → m'.failures = 0

namespace Machine

variable {m m' m'' : Machine σ}

protected theorem SameDepth.refl (m : Machine σ) : m.SameDepth m := ⟨rfl, rfl⟩

protected theorem SameDepth.trans (h₁ : m.SameDepth m') (h₂ : m'.SameDepth m'') :
    m.SameDepth m'' :=
  ⟨h₂.depth.trans h₁.depth, h₂.maxDepth.trans h₁.maxDepth⟩

protected theorem Balanced.refl (m : Machine σ) : m.Balanced m := ⟨.refl m, id⟩

protected theorem Balanced.trans (h₁ : m.Balanced m') (h₂ : m'.Balanced m'') : m.Balanced m'' :=
  ⟨h₁.toSameDepth.trans h₂.toSameDepth, fun h ↦ h₂.failures (h₁.failures h)⟩

theorem scoped_balanced : Scoped (Balanced (σ := σ)) where
  refl m := .refl m
  trans _ _ _ h₁ h₂ := h₁.trans h₂
  heap _ _ := ⟨⟨rfl, rfl⟩, id⟩
  log _ _ := ⟨⟨rfl, rfl⟩, id⟩
  pinning _ _ _ h := ⟨⟨h.depth, h.maxDepth⟩, h.failures⟩
  nested _ _ h := ⟨⟨rfl, h.maxDepth⟩, h.failures⟩

end Machine

/-- However the computation ends, the counters are as they were. -/
def Action.Balances (x : Run (Machine σ) ε α) : Prop :=
  ∀ m : Machine σ, m.Balanced (x m).state

namespace Action.Balances

variable {x : Run (Machine σ) ε α}

protected theorem pure (a : α) : Balances (Pure.pure a : Run (Machine σ) ε α) := fun m ↦ .refl m

protected theorem fail (e : ε) : Balances (Run.fail e : Run (Machine σ) ε α) := fun m ↦ .refl m

protected theorem exhaust : Balances (Run.exhaust : Run (Machine σ) ε α) := fun m ↦ .refl m

protected theorem update {f : Machine σ → Machine σ} (hf : ∀ m : Machine σ, m.Balanced (f m)) :
    Balances (Run.update f : Run (Machine σ) ε Unit) := hf

protected theorem bind {f : α → Run (Machine σ) ε β} (hx : Balances x)
    (hf : ∀ a, Balances (f a)) : Balances (x >>= f) := by
  intro m
  exact Run.state_bind_of (P := m.Balanced) (hx m) fun a m' _ hm' ↦ hm'.trans (hf a m')

protected theorem attempt {ε' : Type} (hx : Balances x) :
    Balances (x.attempt : Run (Machine σ) ε' (Except ε α)) := by
  intro m
  rw [Run.state_attempt]
  exact hx m

protected theorem pinning (pins : List Pin) (hx : Balances x) : Balances (pinning pins x) := by
  intro m
  rw [Machine.state_pinning]
  obtain ⟨⟨hdepth, hmax⟩, hfailures⟩ := hx { m with pins := pins ++ m.pins }
  exact ⟨⟨hdepth, hmax⟩, hfailures⟩

end Action.Balances

/-- After every access to the host the counters are as they were. -/
structure Host.Balances (host : Host σ) : Prop where
  write : ∀ ref property v, Action.Balances (host.write ref property v)
  call : ∀ ref arguments, Action.Balances (host.call ref arguments)

/-- If the counters are as they were after every access to the host, then so they are after every
evaluation. -/
theorem Host.Balances.compositional {host : Host σ} (hh : host.Balances) :
    Compositional host .whole fun P x ↦ Action.Balances x ∧ Action.Yields P x :=
  Machine.scoped_balanced.compositional hh.write hh.call

/-- A failure that is counted is all that the count of failures shows. -/
theorem sameDepth_counted {x : Action σ α} {m : Machine σ} (hx : m.SameDepth (x m).state)
    (notice : String) : m.SameDepth (counted notice x m).state := by
  unfold counted
  cases h : x m <;> rw [h] at hx <;> exact ⟨hx.depth, hx.maxDepth⟩

theorem eq_exhausted_of_counted {x : Action σ α} {notice : String} {m u : Machine σ}
    (h : counted notice x m = .exhausted u) : x m = .exhausted u := by
  unfold counted at h
  cases hx : x m with
  | ok a u' => simp [hx] at h
  | error e u' => simp [hx] at h
  | exhausted u' =>
    rw [hx] at h
    exact h

end Script

end ReactiveFrames
