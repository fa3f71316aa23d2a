import ReactiveFrames.Script.Value
import ReactiveFrames.Text.Quoted

/-!
# Texts of values

A value has a plain text, which string conversion yields, and a description, which quotes strings
and shows the contents of arrays and records. Both descend through the cells of the heap. A value
that contains itself has no finite text, so the descent is bounded by the number of cells: a chain
of references that is longer visits a cell twice.
-/

namespace ReactiveFrames.Script

/-- Plain text of a function. -/
def FunctionDecl.header (f : FunctionDecl) : String :=
  "function " ++ f.name.getD "" ++ "(" ++ ", ".intercalate f.parameters ++ ")"

/-- Plain text of a function that no script defines. -/
def nativeHeader (name : String) : String := "function " ++ name ++ "() \x7b [native code] \x7d"

namespace Heap

/-- Plain text of a value that is no array. -/
def atomText (h : Heap) : Value → String
  | .undefined => "undefined"
  | .null => "null"
  | .bool b => toString b
  | .number x => Decimal.ofScript x
  | .string s => s
  | .array _ => ""
  | .record _ => "[object Object]"
  | .closure ref => ((h.closures[ref.index]?).map (·.function.header)).getD ""
  | .builtin f => nativeHeader f.name
  | .foreign ref => nativeHeader ref.name
  | .host ref => "[object " ++ ref.className ++ "]"

/-- Plain text of a value, if fewer than the given number of references lead into it. -/
def textWithin (h : Heap) : Nat → Value → Option String
  | n + 1, .array ref =>
    ((h.items ref).toList.mapM (h.textWithin n)).map fun texts ↦ ",".intercalate texts
  | 0, .array _ => none
  | _, v => some (h.atomText v)

/-- Description of a value, if fewer than the given number of references lead into it. -/
def descriptionWithin (h : Heap) : Nat → Value → Option String
  | n + 1, .array ref =>
    ((h.items ref).toList.mapM (h.descriptionWithin n)).map fun texts ↦
      "[" ++ ", ".intercalate texts ++ "]"
  | n + 1, .record ref =>
    ((h.entries ref).entries.mapM fun e ↦
      (h.descriptionWithin n e.2).map fun text ↦ e.1 ++ ": " ++ text).map fun texts ↦
        "\x7b" ++ ", ".intercalate texts ++ "\x7d"
  | 0, .array _ => none
  | 0, .record _ => none
  | _, .string s => some (Text.quoted s)
  | _, v => some (h.atomText v)

/-- Plain text of a value, unless it contains itself. -/
def text? (h : Heap) (v : Value) : Option String := h.textWithin (h.size + 1) v

/-- Description of a value, unless it contains itself. -/
def description? (h : Heap) (v : Value) : Option String := h.descriptionWithin (h.size + 1) v

end Heap

end ReactiveFrames.Script
