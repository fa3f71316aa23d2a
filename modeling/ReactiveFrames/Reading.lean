/-!
# Reading tokens

The results of readers that descend over a list of tokens. A reading carries a proof that tokens
were used up, so that every recursion of a reader is on the number of tokens that remain. A reader
that fails leaves the tokens before which it stopped; a line or a token text is made of them only
where a message is written.
-/

namespace ReactiveFrames

/-- A value and the tokens that remain after it, fewer than `n`. -/
structure Reading (τ : Type) (n : Nat) (α : Type) where
  value : α
  rest : List τ
  length_lt : rest.length < n

/-- A fault and the tokens before which it was found. -/
structure Stop (τ φ : Type) where
  fault : φ
  rest : List τ

/-- Reads a value off the front of a list of tokens. -/
abbrev Reader (τ φ α : Type) := (ts : List τ) → Except (Stop τ φ) (Reading τ ts.length α)

end ReactiveFrames
