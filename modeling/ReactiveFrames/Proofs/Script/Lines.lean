import Mathlib.Algebra.GroupWithZero.Nat
import ReactiveFrames.Proofs.Script.Stopping

/-!
# Lines of script tokens

The reader of scripts counts the line feeds of blanks and comments, and takes no notice of those
that a string literal escapes. So the line of a token is short of the number of line feeds before it
by those in string literals, and it is the true line exactly if there are none of them. The error of
a text that is no program has the line of the token at which its reader stopped, as it stands.

## Main definitions

* `Lexeme.Cut`: a text is lexemes and what follows them.
* `Lexeme.LineAfter`: the line that is counted for what follows lexemes.

## Main statements

* `Tokens.lines_of_source`: the line of every token, of the end and of a syntax error.
-/

namespace ReactiveFrames.Script

namespace Lexeme

/-- The text `text` is the lexemes `ls`, one read behind the other, and then `tail`. -/
inductive Cut : List Char → List Lexeme → List Char → Prop
  | nil (tail : List Char) : Cut tail [] tail
  | cons {c : Char} {rest tail : List Char} {l : Lexeme} {ls : List Lexeme}
      (hread : read c rest = .ok l) (hcut : Cut l.rest ls tail) : Cut (c :: rest) (l :: ls) tail

/-! ## Line feeds -/

/-- Line feeds of a string literal, all of which it escapes. -/
def hidden (l : Lexeme) : Nat :=
  match l.token with
  | some (.string _) => l.text.count '\n'
  | _ => 0

/-- No string literal goes on behind the end of a line. -/
def OnOneLine (ls : List Lexeme) : Prop :=
  ∀ l ∈ ls, ∀ s, l.token = some (.string s) → '\n' ∉ l.text

/-- The line that is counted for what follows the lexemes. The line feeds before it that string
literals escape are missing, so it is the true line if and only if there are none. -/
def LineAfter (ls : List Lexeme) (line : Nat) : Prop :=
  line + (ls.map hidden).sum = (ls.flatMap (·.text)).count '\n' ∧
    (line = (ls.flatMap (·.text)).count '\n' ↔ OnOneLine ls)

theorem lines_add_hidden (l : Lexeme) : l.lines + l.hidden = l.text.count '\n' := by
  obtain ⟨token, text, rest⟩ := l
  cases token with
  | none => exact Nat.add_zero _
  | some t =>
    cases t with
    | string s => exact Nat.zero_add _
    | _ => exact Nat.add_zero _

theorem hidden_eq_zero_iff (l : Lexeme) :
    l.hidden = 0 ↔ ∀ s, l.token = some (.string s) → '\n' ∉ l.text := by
  unfold hidden
  split
  · rename_i s hs
    rw [List.count_eq_zero]
    exact ⟨fun h _ _ ↦ h, fun h ↦ h s hs⟩
  · rename_i hs
    exact ⟨fun _ s h ↦ absurd h (hs s), fun _ ↦ rfl⟩

theorem sum_hidden_eq_zero_iff (ls : List Lexeme) : (ls.map hidden).sum = 0 ↔ OnOneLine ls := by
  rw [List.sum_eq_zero_iff_forall_eq_nat]
  constructor
  · intro h l hl
    exact (hidden_eq_zero_iff l).1 (h _ (List.mem_map_of_mem hl))
  · intro h n hn
    obtain ⟨l, hl, rfl⟩ := List.mem_map.1 hn
    exact (hidden_eq_zero_iff l).2 (h l hl)

theorem lineAfter_sum (ls : List Lexeme) : LineAfter ls (ls.map lines).sum := by
  have hsum : (ls.map lines).sum + (ls.map hidden).sum = (ls.flatMap (·.text)).count '\n' := by
    induction ls with
    | nil => rfl
    | cons l ls ih =>
      rw [List.flatMap_cons, List.count_append, ← lines_add_hidden, ← ih]
      simp only [List.map_cons, List.sum_cons]
      omega
  refine ⟨hsum, ?_⟩
  rw [← sum_hidden_eq_zero_iff]
  omega

end Lexeme

namespace Tokens

open Lexeme (Cut LineAfter)
open Script.Parser (next? program)

/-! ## Tokens of lexemes -/

/-- Tokens of lexemes, the first of which is on the line `line`. -/
def located (line : Nat) : List Lexeme → List LocatedToken
  | [] => []
  | l :: ls => (l.token.map fun token ↦ ⟨token, line⟩).toList ++ located (line + l.lines) ls

theorem map_token_located (line : Nat) (ls : List Lexeme) :
    (located line ls).map (·.token) = ls.filterMap (·.token) := by
  induction ls generalizing line with
  | nil => rfl
  | cons l ls ih =>
    rw [located, List.map_append, ih]
    cases htoken : l.token with
    | none => rw [List.filterMap_cons_none htoken]; rfl
    | some t => rw [List.filterMap_cons_some htoken]; rfl

theorem located_append (line : Nat) (ls ls' : List Lexeme) :
    located line (ls ++ ls') = located line ls ++ located (line + (ls.map (·.lines)).sum) ls' := by
  induction ls generalizing line with
  | nil => rfl
  | cons l ls ih =>
    rw [List.cons_append, located, located, ih, List.append_assoc, List.map_cons, List.sum_cons,
      Nat.add_assoc]

theorem getElem?_located (line : Nat) (front : List Lexeme) {l : Lexeme} {t : Token}
    (h : l.token = some t) (back : List Lexeme) :
    (located line (front ++ l :: back))[(front.filterMap (·.token)).length]?
      = some ⟨t, line + (front.map (·.lines)).sum⟩ := by
  have hlength : (located line front).length = (front.filterMap (·.token)).length := by
    rw [← map_token_located line front, List.length_map]
  rw [located_append, ← hlength, List.getElem?_append_right (Nat.le_refl _), Nat.sub_self,
    located, h]
  rfl

theorem scan_of_cut {text : List Char} {ls : List Lexeme} (h : Cut text ls []) (line : Nat) :
    scan line text = .ok ⟨located line ls, line + (ls.map (·.lines)).sum⟩ := by
  generalize htail : ([] : List Char) = tail at h
  induction h generalizing line with
  | nil =>
    subst htail
    rw [scan]
    rfl
  | cons hread _ ih =>
    rw [scan_ok hread, ih _ htail, List.map_cons, List.sum_cons, ← Nat.add_assoc]
    rfl

/-- A text that has tokens is cut into lexemes. -/
theorem exists_cut_of_scan {line : Nat} {text : List Char} {ts : Tokens}
    (h : scan line text = .ok ts) : ∃ ls, Cut text ls [] := by
  induction text using Lexeme.induction generalizing line ts with
  | nil => exact ⟨[], .nil []⟩
  | error hread =>
    rw [scan_error hread] at h
    cases h
  | @ok c rest l hread ih =>
    rw [scan_ok hread] at h
    cases hrest : scan (line + l.lines) l.rest with
    | error e =>
      rw [hrest] at h
      cases h
    | ok following =>
      obtain ⟨ls, hcut⟩ := ih hrest
      exact ⟨l :: ls, .cons hread hcut⟩

/-! ## Lines -/

/-- The lines of a script that can be cut into tokens. Every token, and the end, has the line that
is counted for what stands before it: the number of line feeds there, if no string literal before it
escapes one, and otherwise less by those. If the tokens are no program, the error has the line of
the token at which the reader stopped, or that of the end. The fault is about this token, and the
reader has not looked behind it. -/
theorem lines_of_source {source : String} {ts : Tokens} (h : ofSource source = .ok ts) :
    (∃ ls, Cut source.toList ls [] ∧ ts.tokens.map (·.token) = ls.filterMap (·.token) ∧
      (∀ front l back t, ls = front ++ l :: back → l.token = some t →
        ∃ line, ts.tokens[(front.filterMap (·.token)).length]? = some ⟨t, line⟩ ∧
          LineAfter front line) ∧
      LineAfter ls ts.lastLine) ∧
    ∀ e, parse source = .error e → ∃ front rest, ts.tokens = front ++ rest ∧
      e.line = (rest.head?.map (·.line)).getD ts.lastLine ∧ e.fault.Concerns (next? rest) ∧
      ∀ tail, next? tail = next? rest → program (front ++ tail) = .error ⟨e.fault, tail⟩ := by
  refine ⟨?_, ?_⟩
  · obtain ⟨ls, hcut⟩ := exists_cut_of_scan h
    have htokens := h
    rw [ofSource, scan_of_cut hcut] at htokens
    cases htokens
    refine ⟨ls, hcut, map_token_located 0 ls, ?_, ?_⟩
    · rintro front l back t rfl ht
      refine ⟨_, getElem?_located 0 front ht back, ?_⟩
      rw [Nat.zero_add]
      exact Lexeme.lineAfter_sum front
    · rw [Nat.zero_add]
      exact Lexeme.lineAfter_sum ls
  · intro e he
    have hparse : parse source = ofTokens ts := by
      unfold parse
      rw [h]
      rfl
    rw [hparse, ofTokens] at he
    cases hprogram : program ts.tokens with
    | ok statements =>
      rw [hprogram] at he
      cases he
    | error stop =>
      rw [hprogram] at he
      cases he
      obtain ⟨hconcerns, front, hfront, hagain⟩ := Parser.program_stops hprogram
      obtain ⟨fault, rest⟩ := stop
      cases rest with
      | nil => exact ⟨front, [], hfront, rfl, hconcerns, hagain⟩
      | cons t rest => exact ⟨front, t :: rest, hfront, rfl, hconcerns, hagain⟩

/-- A comment of two lines, and a call whose closing parenthesis stands twice, on a line of its own
each time. No string hides a line, and the error is on the line of the second parenthesis. -/
theorem lines_of_call : ∃ ts e, ofSource "/* \n */ f(\n )\n )" = .ok ts ∧
    parse "/* \n */ f(\n )\n )" = .error e ∧ ts.tokens.map (·.line) = [1, 1, 2, 3] ∧
    e = ⟨.token .closeParen, 3⟩ ∧ ∃ front rest, ts.tokens = front ++ rest ∧
      e.line = (rest.head?.map (·.line)).getD ts.lastLine ∧ e.fault.Concerns (next? rest) := by
  have hlines : Except.okWith (fun ts ↦ ts.tokens.map (·.line) = [1, 1, 2, 3])
      (ofSource "/* \n */ f(\n )\n )") = true := by
    decide +kernel
  have hfault : Except.errorWith (· = ⟨.token .closeParen, 3⟩)
      (parse "/* \n */ f(\n )\n )") = true := by
    decide +kernel
  obtain ⟨ts, hts, hlines⟩ := Except.exists_of_okWith hlines
  obtain ⟨e, he, hfault⟩ := Except.exists_of_errorWith hfault
  obtain ⟨front, rest, hfront, hline, hconcerns, -⟩ := (lines_of_source hts).2 e he
  exact ⟨ts, e, hts, he, of_decide_eq_true hlines, of_decide_eq_true hfault, front, rest, hfront,
    hline, hconcerns⟩

/-- A line feed that a string literal escapes starts no line: the word behind the literal has the
line of the literal, although a line feed stands before it, and so has a syntax error there. -/
theorem escaped_feed_starts_no_line :
    (∃ ts l l' l'', ofSource "'\\\n' x" = .ok ts ∧ Cut "'\\\n' x".toList [l, l', l''] [] ∧
      l''.token = some (.word "x") ∧ ts.tokens[1]? = some ⟨.word "x", 0⟩ ∧
      ([l, l'].flatMap (·.text)).count '\n' = 1) ∧
    parse "'\\\n' )" = .error ⟨.token .closeParen, 0⟩ := by
  have hfault : Except.errorWith (· = ⟨.token .closeParen, 0⟩) (parse "'\\\n' )") = true := by
    decide +kernel
  obtain ⟨e, he, hfault⟩ := Except.exists_of_errorWith hfault
  refine ⟨?_, by rw [he, of_decide_eq_true hfault]⟩
  have hcut : Cut "'\\\n' x".toList [⟨some (.string "\n"), ['\'', '\\', '\n', '\''], [' ', 'x']⟩,
      ⟨none, [' '], ['x']⟩, ⟨some (.word "x"), ['x'], []⟩] [] :=
    .cons rfl (.cons rfl (.cons rfl (.nil [])))
  exact ⟨_, _, _, _, scan_of_cut hcut 0, hcut, rfl, rfl, rfl⟩

end Tokens

end ReactiveFrames.Script
