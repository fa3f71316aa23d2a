import ReactiveFrames.Text.CodeRanges

/-!
# White space

The characters with the Unicode property White_Space. They separate tokens in frame source and in
scripts, and are trimmed from a text that is read as a number.
-/

namespace ReactiveFrames.Text

/-- Code points with the property White_Space, in ascending order. -/
def blankRanges : List (Nat × Nat) :=
  [(0x9, 0xd), (0x20, 0x20), (0x85, 0x85), (0xa0, 0xa0), (0x1680, 0x1680), (0x2000, 0x200a),
   (0x2028, 0x2029), (0x202f, 0x202f), (0x205f, 0x205f), (0x3000, 0x3000)]

/-- White space. -/
def isBlank (c : Char) : Bool := inRanges blankRanges c.toNat

end ReactiveFrames.Text
