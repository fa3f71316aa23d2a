/-!
# Positions in a text

A position counts the line feeds before a character and the characters since the last one, both
from zero.
-/

namespace ReactiveFrames

/-- Line and column of a character, counted from zero. -/
structure Position where
  line : Nat := 0
  column : Nat := 0
  deriving DecidableEq, Repr

namespace Position

/-- Position after a character. -/
def next (p : Position) (c : Char) : Position :=
  if c = '\n' then ⟨p.line + 1, 0⟩ else ⟨p.line, p.column + 1⟩

/-- Position after a text. -/
def advance (p : Position) (text : List Char) : Position := text.foldl next p

theorem advance_append (p : Position) (s t : List Char) :
    p.advance (s ++ t) = (p.advance s).advance t := List.foldl_append

end Position

end ReactiveFrames
