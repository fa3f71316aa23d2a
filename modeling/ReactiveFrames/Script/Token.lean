/-!
# Tokens of scripts

The words that scripts are made of. Keywords are identifiers; what they mean depends on where they
stand.
-/

namespace ReactiveFrames.Script

/-- Punctuation of scripts. -/
inductive Punct where
  | strictEq
  | strictNotEq
  | eq
  | notEq
  | lessEq
  | greaterEq
  | and
  | or
  | increment
  | decrement
  | addAssign
  | subAssign
  | mulAssign
  | divAssign
  | remAssign
  | openBrace
  | closeBrace
  | openParen
  | closeParen
  | openBracket
  | closeBracket
  | semicolon
  | comma
  | dot
  | question
  | colon
  | assign
  | less
  | greater
  | plus
  | minus
  | star
  | slash
  | percent
  | bang
  deriving DecidableEq, Repr

namespace Punct

/-- Characters of a punctuator. -/
def chars : Punct → List Char
  | strictEq => ['=', '=', '=']
  | strictNotEq => ['!', '=', '=']
  | eq => ['=', '=']
  | notEq => ['!', '=']
  | lessEq => ['<', '=']
  | greaterEq => ['>', '=']
  | and => ['&', '&']
  | or => ['|', '|']
  | increment => ['+', '+']
  | decrement => ['-', '-']
  | addAssign => ['+', '=']
  | subAssign => ['-', '=']
  | mulAssign => ['*', '=']
  | divAssign => ['/', '=']
  | remAssign => ['%', '=']
  | openBrace => ['\x7b']
  | closeBrace => ['\x7d']
  | openParen => ['(']
  | closeParen => [')']
  | openBracket => ['[']
  | closeBracket => [']']
  | semicolon => [';']
  | comma => [',']
  | dot => ['.']
  | question => ['?']
  | colon => [':']
  | assign => ['=']
  | less => ['<']
  | greater => ['>']
  | plus => ['+']
  | minus => ['-']
  | star => ['*']
  | slash => ['/']
  | percent => ['%']
  | bang => ['!']

/-- Text of a punctuator. -/
def text (p : Punct) : String := String.ofList p.chars

/-- All punctuators, longer ones before shorter ones. -/
def all : List Punct :=
  [strictEq, strictNotEq, eq, notEq, lessEq, greaterEq, and, or, increment, decrement, addAssign,
    subAssign, mulAssign, divAssign, remAssign, openBrace, closeBrace, openParen, closeParen,
    openBracket, closeBracket, semicolon, comma, dot, question, colon, assign, less, greater, plus,
    minus, star, slash, percent, bang]

/-- Longest punctuator at the front of a text. -/
def ofFront? (text : List Char) : Option Punct := all.find? fun p ↦ p.chars.isPrefixOf text

end Punct

/-- A word of a script. -/
inductive Token where
  | number (x : Float)
  /-- A string literal, decoded. -/
  | string (s : String)
  /-- An identifier or keyword. -/
  | word (name : String)
  | punct (p : Punct)

/-- A token with its line. -/
structure LocatedToken where
  token : Token
  line : Nat

/-- The tokens of a script and the line on which it ends. -/
structure Tokens where
  tokens : List LocatedToken
  lastLine : Nat

end ReactiveFrames.Script
