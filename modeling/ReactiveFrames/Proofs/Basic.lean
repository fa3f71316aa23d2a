import ReactiveFrames.Run

/-!
# Steps that may fail

What a chain of steps says that ended well, and tests of how a chain of steps on a given input ends.
-/

namespace ReactiveFrames

theorem Except.bind_eq_ok {ε α β : Type} {x : Except ε α} {f : α → Except ε β} {b : β} :
    x >>= f = .ok b ↔ ∃ a, x = .ok a ∧ f a = .ok b := by
  cases x with
  | error e => exact ⟨fun h ↦ (nomatch h), fun ⟨_, h, _⟩ ↦ (nomatch h)⟩
  | ok a => exact ⟨fun h ↦ ⟨a, rfl, h⟩, fun ⟨_, h, h'⟩ ↦ by cases h; exact h'⟩

theorem Run.bind_eq_ok {σ ε α β : Type} {x : Run σ ε α} {f : α → Run σ ε β} {s s' : σ} {b : β} :
    (x >>= f) s = .ok b s' ↔ ∃ a u, x s = .ok a u ∧ f a u = .ok b s' := by
  change Run.bind x f s = _ ↔ _
  unfold Run.bind
  cases x s with
  | ok a u => exact ⟨fun h ↦ ⟨a, u, rfl, h⟩, fun ⟨_, _, h, h'⟩ ↦ by cases h; exact h'⟩
  | error e u => exact ⟨fun h ↦ (nomatch h), fun ⟨_, _, h, _⟩ ↦ (nomatch h)⟩
  | exhausted u => exact ⟨fun h ↦ (nomatch h), fun ⟨_, _, h, _⟩ ↦ (nomatch h)⟩

namespace Run

variable {σ ε α β : Type} {x y : Run σ ε α} {s s' : σ}

theorem bind_of_ok {a : α} (h : x s = .ok a s') (f : α → Run σ ε β) : (x >>= f) s = f a s' := by
  change Run.bind x f s = _
  rw [Run.bind, h]

theorem bind_of_error {e : ε} (h : x s = .error e s') (f : α → Run σ ε β) :
    (x >>= f) s = .error e s' := by
  change Run.bind x f s = _
  rw [Run.bind, h]

theorem bind_of_exhausted (h : x s = .exhausted s') (f : α → Run σ ε β) :
    (x >>= f) s = .exhausted s' := by
  change Run.bind x f s = _
  rw [Run.bind, h]

/-- What comes next depends on the outcome only. -/
theorem bind_congr_left (h : x s = y s') (f : α → Run σ ε β) : (x >>= f) s = (y >>= f) s' := by
  change Run.bind x f s = Run.bind y f s'
  rw [Run.bind, Run.bind, h]

/-- What comes next matters only where something comes next. -/
theorem bind_congr_right {f g : α → Run σ ε β} (h : ∀ a u, x s = .ok a u → f a u = g a u) :
    (x >>= f) s = (x >>= g) s := by
  cases hrun : x s with
  | ok a u => rw [bind_of_ok hrun, bind_of_ok hrun, h a u hrun]
  | error e u => rw [bind_of_error hrun, bind_of_error hrun]
  | exhausted u => rw [bind_of_exhausted hrun, bind_of_exhausted hrun]

/-- A chain of two runs leaves the state after the first one, or the one after the second, which
starts from there. -/
theorem state_bind_of {P : σ → Prop} {f : α → Run σ ε β} (hx : P (x s).state)
    (hf : ∀ a u, x s = .ok a u → P u → P (f a u).state) : P ((x >>= f) s).state := by
  cases hrun : x s with
  | ok a u =>
    rw [bind_of_ok hrun]
    rw [hrun] at hx
    exact hf a u hrun hx
  | error e u =>
    rw [bind_of_error hrun]
    rwa [hrun] at hx
  | exhausted u =>
    rw [bind_of_exhausted hrun]
    rwa [hrun] at hx

/-- A failure takes nothing back, and neither does its being caught. -/
theorem state_attempt {ε' : Type} (x : Run σ ε α) (s : σ) :
    ((x.attempt : Run σ ε' (Except ε α)) s).state = (x s).state := by
  unfold Run.attempt
  cases x s <;> rfl

end Run

section MapState

variable {σ ε α : Type} {f : σ → σ} {r : Outcome σ ε α} {s : σ}

theorem Outcome.mapState_eq_ok {a : α} :
    r.mapState f = .ok a s ↔ ∃ s', r = .ok a s' ∧ f s' = s := by
  cases r with
  | ok b s' =>
    exact ⟨fun h ↦ by cases h; exact ⟨s', rfl, rfl⟩, fun ⟨_, h, h'⟩ ↦ by cases h; cases h'; rfl⟩
  | error e s' => exact ⟨fun h ↦ (nomatch h), fun ⟨_, h, _⟩ ↦ (nomatch h)⟩
  | exhausted s' => exact ⟨fun h ↦ (nomatch h), fun ⟨_, h, _⟩ ↦ (nomatch h)⟩

theorem Outcome.mapState_eq_error {e : ε} :
    r.mapState f = .error e s ↔ ∃ s', r = .error e s' ∧ f s' = s := by
  cases r with
  | ok a s' => exact ⟨fun h ↦ (nomatch h), fun ⟨_, h, _⟩ ↦ (nomatch h)⟩
  | error e' s' =>
    exact ⟨fun h ↦ by cases h; exact ⟨s', rfl, rfl⟩, fun ⟨_, h, h'⟩ ↦ by cases h; cases h'; rfl⟩
  | exhausted s' => exact ⟨fun h ↦ (nomatch h), fun ⟨_, h, _⟩ ↦ (nomatch h)⟩

end MapState

/-! ## Tests -/

section Tests

variable {σ ε α : Type}

/-- There is a value, and it passes the test. -/
def Except.okWith (test : α → Bool) : Except ε α → Bool
  | .ok a => test a
  | .error _ => false

/-- There is an error, and it passes the test. -/
def Except.errorWith (test : ε → Bool) : Except ε α → Bool
  | .ok _ => false
  | .error e => test e

/-- There is a value, and with the state it passes the test. -/
def Outcome.okWith (test : α → σ → Bool) : Outcome σ ε α → Bool
  | ok a s => test a s
  | _ => false

/-- There is an error, and with the state it passes the test. -/
def Outcome.errorWith (test : ε → σ → Bool) : Outcome σ ε α → Bool
  | error e s => test e s
  | _ => false

theorem Except.exists_of_okWith {test : α → Bool} {x : Except ε α}
    (h : Except.okWith test x = true) : ∃ a, x = .ok a ∧ test a = true := by
  cases x with
  | ok a => exact ⟨a, rfl, h⟩
  | error e => cases h

theorem Except.exists_of_errorWith {test : ε → Bool} {x : Except ε α}
    (h : Except.errorWith test x = true) : ∃ e, x = .error e ∧ test e = true := by
  cases x with
  | ok a => cases h
  | error e => exact ⟨e, rfl, h⟩

theorem Outcome.exists_of_okWith {test : α → σ → Bool} {r : Outcome σ ε α}
    (h : r.okWith test = true) : ∃ a s, r = .ok a s ∧ test a s = true := by
  cases r with
  | ok a s => exact ⟨a, s, rfl, h⟩
  | error e s => cases h
  | exhausted s => cases h

theorem Outcome.exists_of_errorWith {test : ε → σ → Bool} {r : Outcome σ ε α}
    (h : r.errorWith test = true) : ∃ e s, r = .error e s ∧ test e s = true := by
  cases r with
  | ok a s => cases h
  | error e s => exact ⟨e, s, rfl, h⟩
  | exhausted s => cases h

end Tests

end ReactiveFrames
