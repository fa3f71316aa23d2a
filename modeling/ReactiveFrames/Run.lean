/-!
# Runs

A run takes a state to an outcome. It ends with a value, with an error, or because its bound was
used up, and in each case leaves the state that it had reached: a failure takes nothing back.

## Main definitions

* `Outcome`: how a run ends.
* `Run`: the monad of runs, with `Run.fail`, `Run.attempt` and `Run.mapError`.
-/

namespace ReactiveFrames

/-- How a run ends, and the state that it leaves. -/
inductive Outcome (σ ε α : Type) where
  | ok (a : α) (s : σ)
  | error (e : ε) (s : σ)
  /-- The bound of the run was used up. -/
  | exhausted (s : σ)

/-- State that a run leaves. -/
def Outcome.state {σ ε α : Type} : Outcome σ ε α → σ
  | ok _ s => s
  | error _ s => s
  | exhausted s => s

/-- Changes the state that a run leaves. -/
@[inline]
def Outcome.mapState {σ ε α : Type} (f : σ → σ) : Outcome σ ε α → Outcome σ ε α
  | ok a s => ok a (f s)
  | error e s => error e (f s)
  | exhausted s => exhausted (f s)

theorem Outcome.state_mapState {σ ε α : Type} (f : σ → σ) (o : Outcome σ ε α) :
    (o.mapState f).state = f o.state := by
  cases o <;> rfl

/-- A computation on a state that may fail or use up its bound. -/
def Run (σ ε α : Type) : Type := σ → Outcome σ ε α

namespace Run

variable {σ ε ε' α β : Type}

/-- Ends with a value. -/
@[inline]
def pure (a : α) : Run σ ε α := fun s ↦ .ok a s

/-- Continues with the value of a run. -/
@[inline]
def bind (x : Run σ ε α) (f : α → Run σ ε β) : Run σ ε β := fun s ↦
  match x s with
  | .ok a s' => f a s'
  | .error e s' => .error e s'
  | .exhausted s' => .exhausted s'

instance : Monad (Run σ ε) where
  pure := Run.pure
  bind := Run.bind

/-- Ends with an error. -/
@[inline]
def fail (e : ε) : Run σ ε α := fun s ↦ .error e s

/-- Ends with its bound used up. -/
@[inline]
def exhaust : Run σ ε α := fun s ↦ .exhausted s

/-- The state. -/
@[inline]
def state : Run σ ε σ := fun s ↦ .ok s s

/-- Changes the state. -/
@[inline]
def update (f : σ → σ) : Run σ ε Unit := fun s ↦ .ok () (f s)

/-- Changes the state and yields a value of it. -/
@[inline]
def step (f : σ → α × σ) : Run σ ε α := fun s ↦ let r := f s; .ok r.1 r.2

/-- Ends with the value or the error of a run. -/
@[inline]
def attempt (x : Run σ ε α) : Run σ ε' (Except ε α) := fun s ↦
  match x s with
  | .ok a s' => .ok (.ok a) s'
  | .error e s' => .ok (.error e) s'
  | .exhausted s' => .exhausted s'

/-- Value or error that was obtained before. -/
@[inline]
def ofExcept : Except ε α → Run σ ε α
  | .ok a => Run.pure a
  | .error e => fail e

/-- Reports an error as another one. -/
@[inline]
def mapError (f : ε → ε') (x : Run σ ε α) : Run σ ε' α := fun s ↦
  match x s with
  | .ok a s' => .ok a s'
  | .error e s' => .error (f e) s'
  | .exhausted s' => .exhausted s'

/-- Value of a text that may be without end. -/
@[inline]
def ofOption : Option α → Run σ ε α
  | some a => Run.pure a
  | none => exhaust

private theorem bind_pure_eq (x : Run σ ε α) : Run.bind x Run.pure = x := by
  funext s
  unfold Run.bind Run.pure
  cases x s <;> rfl

private theorem bind_assoc_eq {γ : Type} (x : Run σ ε α) (f : α → Run σ ε β) (g : β → Run σ ε γ) :
    Run.bind (Run.bind x f) g = Run.bind x (fun a ↦ Run.bind (f a) g) := by
  funext s
  unfold Run.bind
  cases x s <;> rfl

instance : LawfulMonad (Run σ ε) where
  map_const := rfl
  id_map := bind_pure_eq
  seqLeft_eq x y := by
    change Run.bind x (fun a ↦ Run.bind y fun _ ↦ Run.pure a)
      = Run.bind (Run.bind x fun a ↦ Run.pure fun _ ↦ a) (fun f ↦ Run.bind y fun b ↦ Run.pure (f b))
    rw [bind_assoc_eq]
    rfl
  seqRight_eq x y := by
    change Run.bind x (fun _ ↦ y)
      = Run.bind (Run.bind x fun _ ↦ Run.pure id) (fun f ↦ Run.bind y fun b ↦ Run.pure (f b))
    rw [bind_assoc_eq]
    exact congrArg (Run.bind x) (funext fun _ ↦ (bind_pure_eq y).symm)
  pure_seq _ _ := rfl
  bind_pure_comp _ _ := rfl
  bind_map _ _ := rfl
  pure_bind _ _ := rfl
  bind_assoc := bind_assoc_eq

end Run

end ReactiveFrames
