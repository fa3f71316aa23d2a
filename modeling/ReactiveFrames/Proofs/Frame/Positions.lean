import ReactiveFrames.Frame.Lexer
import ReactiveFrames.Proofs.Basic
import Mathlib.Data.List.Induction

/-!
# Positions of tokens

The lexemes of a source are its characters in their order, so what stands before a lexeme is a text
of its own, and the position of the lexeme is counted in it. The reader never looks at that text:
it carries a position along and moves it by the characters of each lexeme. Both are the same, and
joining string literals afterwards takes tokens away without moving the ones that stay. Where no
lexeme can be read the fault has the line of the character that could not start one.

## Main definitions

* `Position.after`: position of what follows a text, counted in the text.
* `FrameLexeme.Cut`: a text is lexemes and what follows them.
* `FrameTokens.Positioned`: tokens of lexemes that stand behind a text.
* `FrameFault.StartsAt`: what a fault of a lexeme is about starts at a character.

## Main statements

* `FrameTokens.positions_of_source`: tokens stand where they start, each before the next one, the
  end of the tokens is the end of the source, and a fault has the line on which its cause starts.
-/

namespace ReactiveFrames

/-! ## Positions -/

namespace Position

/-- Position of the character that follows a text: the line feeds of the text, and its characters
since the last one. -/
def after (text : List Char) : Position :=
  ⟨text.count '\n', (text.reverse.takeWhile (· ≠ '\n')).length⟩

/-- A position on an earlier line, or further left on the same one. -/
def Before (p q : Position) : Prop := p.line < q.line ∨ p.line = q.line ∧ p.column < q.column

theorem after_concat (text : List Char) (c : Char) : after (text ++ [c]) = (after text).next c := by
  unfold after next
  rw [List.count_append, List.reverse_append]
  by_cases hc : c = '\n'
  · simp [hc]
  · simp [hc]

theorem advance_after (s t : List Char) : (after s).advance t = after (s ++ t) := by
  induction t using List.reverseRecOn with
  | nil => rw [List.append_nil]; rfl
  | append_singleton t c ih =>
    rw [advance_append, ih, ← List.append_assoc, after_concat]
    rfl

theorem Before.trans {p q r : Position} (hpq : p.Before q) (hqr : q.Before r) : p.Before r := by
  unfold Before at *
  omega

theorem before_next (p : Position) (c : Char) : p.Before (p.next c) := by
  unfold Before next
  split
  · exact Or.inl (Nat.lt_succ_self _)
  · exact Or.inr ⟨rfl, Nat.lt_succ_self _⟩

theorem before_advance (p : Position) {text : List Char} (h : text ≠ []) :
    p.Before (p.advance text) := by
  induction text using List.reverseRecOn with
  | nil => exact absurd rfl h
  | append_singleton text c ih =>
    have hlast : (p.advance text).Before (p.advance (text ++ [c])) := by
      rw [advance_append]
      exact before_next _ c
    by_cases hempty : text = []
    · subst hempty
      exact hlast
    · exact (ih hempty).trans hlast

theorem before_after_append (s : List Char) {t : List Char} (h : t ≠ []) :
    (after s).Before (after (s ++ t)) := by
  rw [← advance_after]
  exact before_advance _ h

end Position

open Position (after Before)

/-! ## Lexemes of a text -/

/-- What a fault of a lexeme is about starts with the first character of the text `c :: rest`: a
comment, a script or a string by its opening delimiter, a number by its sign or first digit. -/
def FrameFault.StartsAt (c : Char) (rest : List Char) : FrameFault → Prop
  | .openComment => c = '/' ∧ rest.head? = some '*'
  | .openText => c = '%' ∧ rest.head? = some '\x7b'
  | .openString => c = '"'
  | .number => Decimal.isDigit c = true ∨ c = '-' ∧ FrameLexeme.startsWithDigit rest = true
  | .character d => d = c
  | _ => False

namespace FrameLexeme

/-- The text `text` is the lexemes `ls`, one read behind the other, and then `tail`. -/
inductive Cut : List Char → List FrameLexeme → List Char → Prop
  | nil (tail : List Char) : Cut tail [] tail
  | cons {c : Char} {rest tail : List Char} {l : FrameLexeme} {ls : List FrameLexeme}
      (hread : read c rest = .ok l) (hcut : Cut l.rest ls tail) : Cut (c :: rest) (l :: ls) tail

theorem Cut.append {text tail : List Char} {ls : List FrameLexeme} (h : Cut text ls tail) :
    ls.flatMap (·.text) ++ tail = text := by
  induction h with
  | nil => rfl
  | cons hread _ ih => rw [List.flatMap_cons, List.append_assoc, ih, text_append_rest hread]

theorem startsAt_of_read {c : Char} {rest : List Char} {fault : FrameFault}
    (h : read c rest = .error fault) : fault.StartsAt c rest := by
  unfold read at h
  split at h
  · cases h
  split at h
  · cases h
  split at h
  · rename_i hc
    unfold blockComment at h
    split at h
    · cases h
    · cases h
      exact hc
  split at h
  · rename_i hc
    unfold scriptText at h
    split at h
    · cases h
    · cases h
      exact hc
  split at h
  · rename_i hc
    unfold stringLiteral at h
    split at h
    · cases h
    · cases h
      exact hc
  split at h
  · rename_i hc
    unfold numberLiteral at h
    dsimp only at h
    split at h
    · cases h
    · cases h
      simpa [FrameFault.StartsAt] using hc
  split at h
  · cases h
  · unfold symbolOf at h
    split at h
    · cases h
    · cases h
      rfl

end FrameLexeme

namespace FrameTokens

open FrameLexeme (Cut)

/-- A token is a string. -/
def IsString (t : FrameToken) : Prop := ∃ s, t = .string s

/-- Tokens of lexemes that stand behind the text `before`. Blanks and comments have no token. String
literals between which no other token stands are one token, of their values joined and in the place
of the first of them; a lexeme of any other kind is a token in its own place. -/
inductive Positioned : List Char → List FrameLexeme → List LocatedToken → Prop
  | nil (before : List Char) : Positioned before [] []
  | blank {before : List Char} {l : FrameLexeme} {ls : List FrameLexeme} {ts : List LocatedToken}
      (hl : l.token = none) (hls : Positioned (before ++ l.text) ls ts) :
      Positioned before (l :: ls) ts
  | token {before : List Char} {l : FrameLexeme} {ls : List FrameLexeme} {ts : List LocatedToken}
      {t : FrameToken} (hl : l.token = some t) (ht : ¬ IsString t)
      (hls : Positioned (before ++ l.text) ls ts) :
      Positioned before (l :: ls) (⟨t, after before⟩ :: ts)
  | strings {before : List Char} {l : FrameLexeme} {run ls : List FrameLexeme}
      {ts : List LocatedToken} {s : String} {values : List String}
      (hl : l.token = some (.string s))
      (hrun : run.filterMap (·.token) = values.map FrameToken.string)
      (hend : ∀ t ∈ (ls.filterMap (·.token)).head?, ¬ IsString t)
      (hls : Positioned (before ++ (l :: run).flatMap (·.text)) ls ts) :
      Positioned before (l :: run ++ ls) (⟨.string (s ++ String.join values), after before⟩ :: ts)

/-! ## Tokens before strings are joined -/

/-- Tokens of lexemes behind the text `before`, each in its place. -/
def located (before : List Char) : List FrameLexeme → List LocatedToken
  | [] => []
  | l :: ls =>
    (l.token.map fun token ↦ ⟨token, after before⟩).toList ++ located (before ++ l.text) ls

/-- Reading a text that stands behind `before`: either it is cut to its end, or its lexemes stop at
a character that starts none. -/
theorem scan_after (before text : List Char) :
    (∃ ls, Cut text ls [] ∧
      scan (after before) text = .ok ⟨located before ls, after (before ++ text)⟩) ∨
    ∃ ls c rest fault, Cut text ls (c :: rest) ∧ FrameLexeme.read c rest = .error fault ∧
      scan (after before) text
        = .error ⟨fault, (before ++ ls.flatMap (·.text)).count '\n', none⟩ := by
  induction text using FrameLexeme.induction generalizing before with
  | nil =>
    left
    refine ⟨[], Cut.nil [], ?_⟩
    rw [scan, List.append_nil]
    rfl
  | @error c rest fault hread =>
    right
    refine ⟨[], c, rest, fault, Cut.nil _, hread, ?_⟩
    rw [scan_error hread, List.flatMap_nil, List.append_nil]
    rfl
  | @ok c rest l hread ih =>
    -- What comes after the lexeme stands behind `before` and the lexeme.
    rw [scan_ok hread, Position.advance_after]
    rcases ih (before ++ l.text) with
      ⟨ls, hcut, hscan⟩ | ⟨ls, d, more, fault, hcut, hfault, hscan⟩
    · left
      refine ⟨l :: ls, Cut.cons hread hcut, ?_⟩
      rw [hscan, List.append_assoc, FrameLexeme.text_append_rest hread]
      rfl
    · right
      refine ⟨l :: ls, d, more, fault, Cut.cons hread hcut, hfault, ?_⟩
      rw [hscan, List.append_assoc, List.flatMap_cons]
      rfl

/-- Positions of the tokens of lexemes behind `before`, and of the end of the lexemes. -/
def stops (before : List Char) (ls : List FrameLexeme) : List Position :=
  (located before ls).map (·.position) ++ [after (before ++ ls.flatMap (·.text))]

theorem stops_cons (before : List Char) (l : FrameLexeme) (ls : List FrameLexeme) :
    stops before (l :: ls)
      = (l.token.map fun _ ↦ after before).toList ++ stops (before ++ l.text) ls := by
  unfold stops
  rw [located, List.flatMap_cons, List.append_assoc before]
  cases l.token with
  | none => rfl
  | some t => rfl

theorem exists_of_mem_stops {before : List Char} {ls : List FrameLexeme} {p : Position}
    (h : p ∈ stops before ls) : ∃ text, p = after (before ++ text) := by
  induction ls generalizing before with
  | nil =>
    rw [stops, located, List.map_nil, List.nil_append, List.mem_singleton] at h
    exact ⟨_, h⟩
  | cons l ls ih =>
    rw [stops_cons, List.mem_append] at h
    rcases h with h | h
    · cases htoken : l.token with
      | none =>
        rw [htoken] at h
        cases h
      | some t =>
        rw [htoken] at h
        exact ⟨[], by simpa using h⟩
    · obtain ⟨text, hp⟩ := ih h
      exact ⟨l.text ++ text, by rw [hp, List.append_assoc]⟩

theorem stops_pairwise {text tail : List Char} {ls : List FrameLexeme} (h : Cut text ls tail)
    (before : List Char) : (stops before ls).Pairwise Before := by
  induction h generalizing before with
  | nil => exact List.pairwise_singleton _ _
  | @cons c rest tail l ls hread _ ih =>
    rw [stops_cons]
    cases l.token with
    | none => exact ih _
    | some t =>
      refine List.pairwise_cons.2 ⟨?_, ih _⟩
      intro p hp
      obtain ⟨more, rfl⟩ := exists_of_mem_stops hp
      rw [List.append_assoc]
      exact Position.before_after_append before
        (List.append_ne_nil_of_left_ne_nil (FrameLexeme.text_ne_nil hread) more)

/-! ## Joined strings -/

/-- Joining strings takes positions away. -/
theorem joinStrings_sublist (ts : List LocatedToken) :
    ((joinStrings ts).map (·.position)).Sublist (ts.map (·.position)) := by
  induction ts with
  | nil => exact List.Sublist.refl []
  | cons t ts ih =>
    rw [joinStrings]
    split
    · rename_i hrest
      rw [hrest, List.map_cons] at ih
      exact List.Sublist.cons_cons _ ((List.sublist_cons_self _ _).trans ih)
    · exact List.Sublist.cons_cons _ ih

/-- If the first token of lexemes is a string, they start with a run of literals of that value. -/
theorem Positioned.exists_run {before : List Char} {ls : List FrameLexeme} {t : LocatedToken}
    {ts : List LocatedToken} {s : String} (h : Positioned before ls (t :: ts))
    (ht : t.token = .string s) :
    ∃ run rest values, ls = run ++ rest ∧
      run.filterMap (·.token) = values.map FrameToken.string ∧ String.join values = s ∧
      (∀ t ∈ (rest.filterMap (·.token)).head?, ¬ IsString t) ∧
      Positioned (before ++ run.flatMap (·.text)) rest ts := by
  generalize hall : t :: ts = all at h
  induction h with
  | nil => cases hall
  | @blank before l ls _ hl _ ih =>
    obtain ⟨run, rest, values, rfl, hrun, hs, hend, hrest⟩ := ih hall
    refine ⟨l :: run, rest, values, rfl, ?_, hs, hend, ?_⟩
    · rw [List.filterMap_cons_none hl, hrun]
    · rwa [List.flatMap_cons, ← List.append_assoc]
  | token _ hno _ =>
    cases hall
    exact absurd ⟨s, ht⟩ hno
  | @strings before l run ls _ first values hl hrun hend hls =>
    cases hall
    cases ht
    refine ⟨l :: run, ls, first :: values, rfl, ?_, ?_, hend, hls⟩
    · rw [List.filterMap_cons_some hl, hrun, List.map_cons]
    · rw [String.join_cons]

/-- If the first token is no string, the first token of the lexemes is none. -/
theorem Positioned.not_isString {before : List Char} {ls : List FrameLexeme}
    {ts : List LocatedToken} (h : Positioned before ls ts)
    (hts : ∀ t ∈ ts.head?, ¬ IsString t.token) :
    ∀ t ∈ (ls.filterMap (·.token)).head?, ¬ IsString t := by
  induction h with
  | nil => simp
  | blank hl _ ih =>
    rw [List.filterMap_cons_none hl]
    exact ih hts
  | token hl ht _ =>
    rw [List.filterMap_cons_some hl]
    simpa using ht
  | strings => exact absurd ⟨_, rfl⟩ (hts _ rfl)

/-- Tokens stay in their places when strings are joined. -/
theorem positioned_joinStrings (before : List Char) (ls : List FrameLexeme) :
    Positioned before ls (joinStrings (located before ls)) := by
  induction ls generalizing before with
  | nil => exact Positioned.nil before
  | cons l ls ih =>
    have hls := ih (before ++ l.text)
    cases hl : l.token with
    | none =>
      have hlocated : located before (l :: ls) = located (before ++ l.text) ls := by
        rw [located, hl]
        rfl
      rw [hlocated]
      exact Positioned.blank hl hls
    | some t =>
      have hlocated : located before (l :: ls)
          = ⟨t, after before⟩ :: located (before ++ l.text) ls := by
        rw [located, hl]
        rfl
      rw [hlocated, joinStrings]
      split
      · rename_i s s' q rest hstring hjoin
        cases hstring
        rw [hjoin] at hls
        obtain ⟨run, tail, values, rfl, hrun, rfl, hend, htail⟩ := hls.exists_run rfl
        refine Positioned.strings hl hrun hend ?_
        rwa [List.flatMap_cons, ← List.append_assoc]
      · rename_i hsplit
        by_cases hstring : IsString t
        · -- A string behind which the next token is none is a run of its own.
          obtain ⟨s, rfl⟩ := hstring
          have hnext : ∀ u ∈ (joinStrings (located (before ++ l.text) ls)).head?,
              ¬ IsString u.token := by
            rintro u hu ⟨s', hs'⟩
            obtain ⟨rest, hjoin⟩ := List.head?_eq_some_iff.1 hu
            obtain ⟨_, q⟩ := u
            cases hs'
            exact hsplit s s' q rest rfl hjoin
          have hrest : Positioned (before ++ [l].flatMap (·.text)) ls
              (joinStrings (located (before ++ l.text) ls)) := by
            rwa [List.flatMap_singleton]
          have hrun := @Positioned.strings before l [] ls _ s [] hl rfl (hls.not_isString hnext)
            hrest
          rwa [String.join_nil, String.append_empty] at hrun
        · exact Positioned.token hl hstring hls

/-- Every token of a source stands where it starts: its line is the number of line feeds before
its first character, its column the number of characters since the last one, and a run of strings
has the place of the first of them. Each token stands before the next one, and the end of the tokens
is the end of the source. Where a source cannot be cut into lexemes, the line of the fault is that
of the character at which the comment, string, script, number or other text starts that is none. -/
theorem positions_of_source (source : String) :
    (∀ ts, ofSource source = .ok ts →
      (∃ ls, Cut source.toList ls [] ∧ Positioned [] ls ts.tokens) ∧
      (ts.tokens.map (·.position) ++ [ts.finish]).Pairwise Before ∧
      ts.finish = after source.toList) ∧
    ∀ e, ofSource source = .error e →
      ∃ before c rest, source.toList = before ++ c :: rest ∧
        (∃ ls, Cut source.toList ls (c :: rest)) ∧
        FrameLexeme.read c rest = .error e.fault ∧ e.fault.StartsAt c rest ∧
        e.line = before.count '\n' ∧ e.near = none := by
  rcases scan_after [] source.toList with
    ⟨ls, hcut, hscan⟩ | ⟨ls, c, rest, fault, hcut, hfault, hscan⟩
  · have hsource : ofSource source
        = .ok ⟨joinStrings (located [] ls), after source.toList⟩ := by
      unfold ofSource
      change Except.bind (scan (after []) source.toList) _ = _
      rw [hscan]
      rfl
    refine ⟨?_, ?_⟩
    · intro ts hts
      rw [hsource] at hts
      cases hts
      refine ⟨⟨ls, hcut, positioned_joinStrings [] ls⟩, ?_, rfl⟩
      -- The tokens that are left after joining stand where they stood before.
      have hstops := stops_pairwise hcut []
      rw [stops, List.nil_append] at hstops
      have htext := hcut.append
      rw [List.append_nil] at htext
      rw [htext] at hstops
      exact hstops.sublist ((joinStrings_sublist _).append_right _)
    · intro e he
      rw [hsource] at he
      cases he
  · have hsource : ofSource source
        = .error ⟨fault, (ls.flatMap (·.text)).count '\n', none⟩ := by
      unfold ofSource
      change Except.bind (scan (after []) source.toList) _ = _
      rw [hscan]
      rfl
    refine ⟨?_, ?_⟩
    · intro ts hts
      rw [hsource] at hts
      cases hts
    · intro e he
      rw [hsource] at he
      cases he
      exact ⟨ls.flatMap (·.text), c, rest, hcut.append.symm, ⟨ls, hcut⟩, hfault,
        FrameLexeme.startsAt_of_read hfault, rfl, rfl⟩

/-- A comment, two strings on two lines, of which the first has an escape, and a word: three tokens
before the end. A script behind a comment of two lines is never closed, on line two. -/
theorem positions_of_strings :
    (∃ ts, ofSource "a /* */ \"b\\n\"\n \"c\" d" = .ok ts ∧
      ts.tokens.map (·.position) = [⟨0, 0⟩, ⟨0, 8⟩, ⟨1, 5⟩] ∧
      (ts.tokens.map (·.position) ++ [ts.finish]).Pairwise Before ∧
      ts.finish = after "a /* */ \"b\\n\"\n \"c\" d".toList) ∧
    ∃ before c rest, "a: /*\n*/\n %\x7b return".toList = before ++ c :: rest ∧
      FrameFault.openText.StartsAt c rest ∧ before.count '\n' = 2 := by
  have hplaces : Except.okWith
      (fun ts ↦ ts.tokens.map (·.position) = [⟨0, 0⟩, ⟨0, 8⟩, ⟨1, 5⟩])
      (ofSource "a /* */ \"b\\n\"\n \"c\" d") = true := by
    decide +kernel
  have hfault : Except.errorWith (· = ⟨.openText, 2, none⟩)
      (ofSource "a: /*\n*/\n %\x7b return") = true := by
    decide +kernel
  refine ⟨?_, ?_⟩
  · obtain ⟨ts, hts, hplaces⟩ := Except.exists_of_okWith hplaces
    obtain ⟨-, hbefore, hfinish⟩ := (positions_of_source _).1 ts hts
    exact ⟨ts, hts, of_decide_eq_true hplaces, hbefore, hfinish⟩
  · obtain ⟨e, he, hfault⟩ := Except.exists_of_errorWith hfault
    obtain rfl := of_decide_eq_true hfault
    obtain ⟨before, c, rest, htext, -, -, hstart, hline, -⟩ := (positions_of_source _).2 _ he
    exact ⟨before, c, rest, htext, hstart, hline.symm⟩

end FrameTokens

end ReactiveFrames
