/-!
# Lines

A text as a list of lines. A line ends with a line feed, or with a carriage return and a line feed;
the last line of a text may lack its end.

## Main statements

* `not_mem_of_mem_lines`: no line holds a line feed.
-/

namespace ReactiveFrames.Text

/-- A line, held backwards, without the carriage return of its end. -/
def finishLine : List Char → String
  | '\r' :: line => String.ofList line.reverse
  | line => String.ofList line.reverse

/-- Lines of the characters that follow the part of a line, which is held backwards. -/
def linesAfter (line : List Char) : List Char → List String
  | [] => if line.isEmpty then [] else [String.ofList line.reverse]
  | '\n' :: rest => finishLine line :: linesAfter [] rest
  | c :: rest => linesAfter (c :: line) rest

/-- Lines of a text. -/
def lines (s : String) : List String := linesAfter [] s.toList

theorem mem_of_mem_finishLine {c : Char} {line : List Char} (h : c ∈ (finishLine line).toList) :
    c ∈ line := by
  unfold finishLine at h
  split at h <;> simp_all

theorem not_mem_of_mem_linesAfter {line text : List Char} {l : String} (hline : '\n' ∉ line)
    (hl : l ∈ linesAfter line text) : '\n' ∉ l.toList := by
  fun_induction linesAfter line text with
  | case1 => simp at hl
  | case2 => simp_all
  | case3 line rest ih =>
    rcases List.mem_cons.1 hl with rfl | hl
    · exact fun h ↦ hline (mem_of_mem_finishLine h)
    · exact ih (List.not_mem_nil) hl
  | case4 line c rest hc ih =>
    refine ih (fun h ↦ ?_) hl
    rcases List.mem_cons.1 h with rfl | h
    · exact hc rfl
    · exact hline h

theorem not_mem_of_mem_lines {s l : String} (h : l ∈ lines s) : '\n' ∉ l.toList :=
  not_mem_of_mem_linesAfter List.not_mem_nil h

end ReactiveFrames.Text
