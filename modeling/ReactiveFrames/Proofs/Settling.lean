import Mathlib.Order.Filter.AtTopBot.Basic
import ReactiveFrames.Run

/-!
# Runs without a bound

The functions of the library that run scripts take a bound, and every statement about whether
something comes to an end is a statement about all bounds: a family of runs *settles* from a state
if all its members beyond some bound return the same. The limit of a family is the run without a
bound. It returns what the family settles on, and is exhausted where the family does not settle.

## Tracking

All facts about bounded runs below have one form. A run `x` is *tracked* by a family `y` on the
states with a property `I` if, wherever `x` returns, `I` holds again and `y` settles on the outcome
of `x`. With `y` constant this says that `x` preserves `I` and that `x` and `y` agree; with `y` the
same computation under growing bounds it says that a bound that suffices is not noticed.
-/

open Filter

namespace ReactiveFrames

variable {σ ε ε' α β : Type}

/-- The run came to an end within its bound. -/
def Outcome.Returns : Outcome σ ε α → Prop
  | ok .. => True
  | error .. => True
  | exhausted _ => False

instance Outcome.decidableReturns : (r : Outcome σ ε α) → Decidable r.Returns
  | ok .. => .isTrue trivial
  | error .. => .isTrue trivial
  | exhausted _ => .isFalse id

@[simp] theorem Outcome.returns_ok (a : α) (s : σ) : (ok a s : Outcome σ ε α).Returns := trivial

@[simp] theorem Outcome.returns_error (e : ε) (s : σ) : (error e s : Outcome σ ε α).Returns :=
  trivial

@[simp] theorem Outcome.not_returns_exhausted (s : σ) :
    ¬(exhausted s : Outcome σ ε α).Returns := id

@[simp] theorem Outcome.returns_mapState (f : σ → σ) (r : Outcome σ ε α) :
    (r.mapState f).Returns ↔ r.Returns := by
  cases r <;> rfl

namespace Run

theorem returns_map (f : α → β) (x : Run σ ε α) (s : σ) :
    ((f <$> x) s).Returns ↔ (x s).Returns := by
  change (Run.bind x _ s).Returns ↔ _
  unfold Run.bind
  cases x s <;> rfl

/-! ## Settling -/

/-- From the state `s`, all members of the family beyond some bound return `r`. -/
def SettlesOn (x : ℕ → Run σ ε α) (s : σ) (r : Outcome σ ε α) : Prop :=
  r.Returns ∧ ∀ᶠ n in atTop, x n s = r

theorem SettlesOn.unique {x : ℕ → Run σ ε α} {s : σ} {r r' : Outcome σ ε α}
    (h : SettlesOn x s r) (h' : SettlesOn x s r') : r = r' := by
  obtain ⟨n, hn, hn'⟩ := (h.2.and h'.2).exists
  rw [← hn, hn']

open Classical in
/-- The run that a family of bounded runs stands for. -/
noncomputable def limit (x : ℕ → Run σ ε α) : Run σ ε α := fun s ↦
  if h : ∃ r, SettlesOn x s r then h.choose else .exhausted s

theorem limit_eq {x : ℕ → Run σ ε α} {s : σ} {r : Outcome σ ε α} (h : SettlesOn x s r) :
    limit x s = r := by
  have hex : ∃ r, SettlesOn x s r := ⟨r, h⟩
  rw [limit, dif_pos hex]
  exact hex.choose_spec.unique h

theorem settlesOn_limit {x : ℕ → Run σ ε α} {s : σ} (h : (limit x s).Returns) :
    SettlesOn x s (limit x s) := by
  by_cases hex : ∃ r, SettlesOn x s r
  · rw [limit, dif_pos hex]
    exact hex.choose_spec
  · rw [limit, dif_neg hex] at h
    exact absurd h (Outcome.not_returns_exhausted s)

theorem limit_const (x : Run σ ε α) {s : σ} (h : (x s).Returns) : limit (fun _ ↦ x) s = x s :=
  limit_eq ⟨h, Eventually.of_forall fun _ ↦ rfl⟩

/-! ## Tracking -/

/-- Wherever `x` returns from a state with the property `I`, it restores `I`, and the family `y`
settles on the same outcome. -/
def Tracks (I : σ → Prop) (x : Run σ ε α) (y : ℕ → Run σ ε α) : Prop :=
  ∀ s, I s → (x s).Returns → I (x s).state ∧ ∀ᶠ n in atTop, y n s = x s

/-- Wherever the run returns from a state with the property, it restores the property. -/
abbrev Preserves (I : σ → Prop) (x : Run σ ε α) : Prop := Tracks I x fun _ ↦ x

theorem Preserves.state_of_returns {I : σ → Prop} {x : Run σ ε α} (h : Preserves I x) {s : σ}
    (hs : I s) (hr : (x s).Returns) : I (x s).state :=
  (h s hs hr).1

/-- Where a run yields a value, the property is restored, and the family settles on that value. -/
theorem Tracks.of_ok {I : σ → Prop} {x : Run σ ε α} {y : ℕ → Run σ ε α} (h : Tracks I x y)
    {s s' : σ} {v : α} (hs : I s) (hrun : x s = .ok v s') :
    I s' ∧ ∀ᶠ n in atTop, y n s = .ok v s' := by
  have hx := h s hs (by rw [hrun]; trivial)
  rwa [hrun] at hx

theorem Preserves.of_ok {I : σ → Prop} {x : Run σ ε α} (h : Preserves I x) {s s' : σ} {v : α}
    (hs : I s) (hrun : x s = .ok v s') : I s' :=
  (Tracks.of_ok h hs hrun).1

namespace Tracks

variable {I : σ → Prop} {x : Run σ ε α} {y : ℕ → Run σ ε α}

/-- A family may be changed below a bound. -/
theorem congr {y' : ℕ → Run σ ε α} (h : Tracks I x y) (hy : ∀ᶠ n in atTop, y' n = y n) :
    Tracks I x y' := fun s hs hr ↦
  ⟨(h s hs hr).1, (h s hs hr).2.mp (hy.mono fun n hn hyn ↦ by rw [hn, hyn])⟩

/-- A run that is tracked by a single one agrees with it wherever it returns. -/
theorem eq_of_returns {y : Run σ ε α} (h : Tracks I x fun _ ↦ y) {s : σ} (hs : I s)
    (hr : (x s).Returns) : I (x s).state ∧ y s = x s :=
  ⟨(h s hs hr).1, (h s hs hr).2.exists.choose_spec⟩

/-- A run whose state always has the property is tracked by itself. -/
theorem of_preserves (h : ∀ s, I s → I (x s).state) : Tracks I x fun _ ↦ x := fun s hs _ ↦
  ⟨h s hs, Eventually.of_forall fun _ ↦ rfl⟩

theorem exhaust : Tracks I (Run.exhaust : Run σ ε α) y := fun s _ hr ↦
  absurd hr (Outcome.not_returns_exhausted s)

protected theorem pure (a : α) : Tracks I (Pure.pure a : Run σ ε α) fun _ ↦ Pure.pure a :=
  of_preserves fun _ hs ↦ hs

theorem fail (e : ε) : Tracks I (Run.fail e : Run σ ε α) fun _ ↦ Run.fail e :=
  of_preserves fun _ hs ↦ hs

theorem state : Tracks I (Run.state : Run σ ε σ) fun _ ↦ Run.state :=
  of_preserves fun _ hs ↦ hs

theorem update {f : σ → σ} (h : ∀ s, I s → I (f s)) :
    Tracks I (Run.update f : Run σ ε Unit) fun _ ↦ Run.update f :=
  of_preserves h

theorem ofOption (v : Option α) : Tracks I (Run.ofOption v : Run σ ε α) fun _ ↦ Run.ofOption v := by
  cases v with
  | none => exact exhaust
  | some a => exact Tracks.pure a

theorem ofExcept (v : Except ε α) :
    Tracks I (Run.ofExcept v : Run σ ε α) fun _ ↦ Run.ofExcept v := by
  cases v with
  | error e => exact fail e
  | ok a => exact Tracks.pure a

protected theorem bind {f : α → Run σ ε β} {g : ℕ → α → Run σ ε β} (hx : Tracks I x y)
    (hf : ∀ a, Tracks I (f a) fun n ↦ g n a) : Tracks I (x >>= f) fun n ↦ y n >>= g n := by
  intro s hs hr
  change (Run.bind x f s).Returns at hr
  change I (Run.bind x f s).state ∧ ∀ᶠ n in atTop, Run.bind (y n) (g n) s = Run.bind x f s
  have hx' := hx s hs
  unfold Run.bind at hr ⊢
  cases hxs : x s with
  | exhausted s' => simp [hxs] at hr
  | error e s' =>
    simp only [hxs] at hr hx' ⊢
    exact ⟨(hx' hr).1, (hx' hr).2.mono fun n hn ↦ by rw [hn]⟩
  | ok a s' =>
    simp only [hxs] at hr hx' ⊢
    obtain ⟨hs', hy⟩ := hx' trivial
    obtain ⟨hres, hg⟩ := hf a s' hs' hr
    exact ⟨hres, (hy.and hg).mono fun n ⟨hn, hgn⟩ ↦ by rw [hn]; exact hgn⟩

/-- A choice that the state makes. -/
protected theorem ite {c : σ → Prop} [DecidablePred c] {x' : Run σ ε α} {y' : ℕ → Run σ ε α}
    (hx : Tracks I x y) (hx' : Tracks I x' y') :
    Tracks I (fun s ↦ if c s then x s else x' s) fun n s ↦ if c s then y n s else y' n s := by
  intro s hs hr
  dsimp only at hr ⊢
  by_cases h : c s
  · simp only [if_pos h] at hr ⊢
    exact hx s hs hr
  · simp only [if_neg h] at hr ⊢
    exact hx' s hs hr

protected theorem map (f : α → β) (hx : Tracks I x y) : Tracks I (f <$> x) fun n ↦ f <$> y n := by
  have h := hx.bind (f := fun a ↦ Pure.pure (f a)) (g := fun _ a ↦ Pure.pure (f a))
    fun a ↦ Tracks.pure (f a)
  simpa only [bind_pure_comp] using h

protected theorem attempt (hx : Tracks I x y) :
    Tracks I (x.attempt : Run σ ε' (Except ε α)) fun n ↦ (y n).attempt := by
  intro s hs hr
  have hx' := hx s hs
  unfold Run.attempt at hr ⊢
  cases hxs : x s with
  | exhausted s' => simp [hxs] at hr
  | error e s' =>
    simp only [hxs] at hx' ⊢
    exact ⟨(hx' trivial).1, (hx' trivial).2.mono fun n hn ↦ by rw [hn]⟩
  | ok a s' =>
    simp only [hxs] at hx' ⊢
    exact ⟨(hx' trivial).1, (hx' trivial).2.mono fun n hn ↦ by rw [hn]⟩

theorem step {f : σ → α × σ} (h : ∀ s, I s → I (f s).2) :
    Tracks I (Run.step f : Run σ ε α) fun _ ↦ Run.step f :=
  of_preserves h

/-- Runs one after the other over a list. -/
theorem forM {γ : Type} {f : γ → Run σ ε Unit} {g : ℕ → γ → Run σ ε Unit}
    {cs : List γ} (h : ∀ c ∈ cs, Tracks I (f c) fun n ↦ g n c) :
    Tracks I (cs.forM f) fun n ↦ cs.forM (g n) := by
  induction cs with
  | nil => exact Tracks.pure ()
  | cons c cs ih =>
    exact (h c List.mem_cons_self).bind fun _ ↦ ih fun d hd ↦ h d (List.mem_cons_of_mem _ hd)

end Tracks

end Run

end ReactiveFrames
