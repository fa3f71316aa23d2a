import ReactiveFrames.Decimal.Notation
import ReactiveFrames.Position
import ReactiveFrames.Text.Quoted

/-!
# Tokens of frame source

The words that frame source is made of, with the text by which a message refers to each of them.
-/

namespace ReactiveFrames

/-- Punctuation of frame source. -/
inductive FrameSymbol where
  | arrow
  | colon
  | openBrace
  | closeBrace
  | openBracket
  | closeBracket
  | openParen
  | closeParen
  | comma
  | dot
  deriving DecidableEq, Repr

/-- Characters of a symbol. -/
def FrameSymbol.text : FrameSymbol → String
  | .arrow => "->"
  | .colon => ":"
  | .openBrace => "\x7b"
  | .closeBrace => "\x7d"
  | .openBracket => "["
  | .closeBracket => "]"
  | .openParen => "("
  | .closeParen => ")"
  | .comma => ","
  | .dot => "."

/-- A word of frame source. -/
inductive FrameToken where
  /-- An identifier. -/
  | word (name : String)
  | symbol (s : FrameSymbol)
  | bool (b : Bool)
  | int (i : Int)
  | float (x : Float)
  /-- A string literal, decoded. -/
  | string (s : String)
  /-- A script between its delimiters, verbatim. -/
  | text (s : String)

namespace FrameToken

/-- Text by which a message refers to a token. -/
def display : FrameToken → String
  | word name => name
  | symbol s => s.text
  | bool b => toString b
  | int i => toString i
  | float x => Decimal.plain x
  | string s => Text.quoted s
  | text _ => "%\x7b...%\x7d"

end FrameToken

/-- A token with the position of its first character. -/
structure LocatedToken where
  token : FrameToken
  position : Position

/-- The tokens of a source and the position of its end. -/
structure FrameTokens where
  tokens : List LocatedToken
  finish : Position

end ReactiveFrames
