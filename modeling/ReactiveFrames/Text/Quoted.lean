import ReactiveFrames.Text.Unprintable
import ReactiveFrames.Text.CombiningMark

/-!
# Quoted text

The form in which a text is shown inside another one: between double quotes, with every character
that has no shape of its own shown by an escape. The single quote stays as it is.
-/

namespace ReactiveFrames.Text

/-- Number of a character between braces, in lower case hexadecimal. -/
def codePointEscape (c : Char) : List Char :=
  '\\' :: 'u' :: '\x7b' :: Nat.toDigits 16 c.toNat ++ ['\x7d']

/-- A character as it is shown between quotes. -/
def quotedChar (c : Char) : List Char :=
  match c with
  | '"' => ['\\', '"']
  | '\\' => ['\\', '\\']
  | '\n' => ['\\', 'n']
  | '\r' => ['\\', 'r']
  | '\t' => ['\\', 't']
  | '\x00' => ['\\', '0']
  | c => if isUnprintable c || isCombiningMark c then codePointEscape c else [c]

/-- A text between double quotes. -/
def quoted (s : String) : String :=
  String.ofList ('"' :: s.toList.flatMap quotedChar ++ ['"'])

end ReactiveFrames.Text
