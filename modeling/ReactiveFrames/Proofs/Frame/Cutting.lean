import ReactiveFrames.Frame.Lexer
import ReactiveFrames.Frame.Printer
import ReactiveFrames.Proofs.Decimal.Digits
import ReactiveFrames.Proofs.Decimal.Number
import Mathlib.Tactic.IntervalCases

/-!
# Cutting a text into tokens

What a text is cut into does not depend on the position at which it stands, so the tokens of a text
are those of its first token followed by those of the rest. For every kind of token there is one
equation about a text that starts with it. A word and a number end where the rest says so: the rest
must not continue them.

A text that cannot be cut has no tokens. The front of it is described all the same: a place where no
token can stand is `none` among the tokens before it, and `FrameTokens.put` lets it spoil them all.

## Main definitions

* `FrameTokens.cut`: tokens of a text without their positions.
* `FrameToken.Lexical`: what every token that was read from a source satisfies.
-/

namespace ReactiveFrames

open Decimal (isDigit AllDigits)
open Text (isBlank isAlphabetic isNumeric inRanges spanTo)

/-! ## Characters -/

namespace Text

theorem exists_range_of_inRanges {ranges : List (Nat × Nat)} {n : Nat}
    (h : inRanges ranges n = true) : ∃ r ∈ ranges, r.1 ≤ n ∧ n ≤ r.2 := by
  induction ranges with
  | nil => cases h
  | cons r ranges ih =>
    obtain ⟨lo, hi⟩ := r
    rw [inRanges] at h
    split at h
    · cases h
    split at h
    · exact ⟨(lo, hi), by simp, by omega⟩
    · obtain ⟨r, hr, hn⟩ := ih h
      exact ⟨r, List.mem_cons_of_mem _ hr, hn⟩

/-- White space is no letter. -/
theorem isBlank_eq_false_of_isAlphabetic {c : Char} (h : isAlphabetic c = true) :
    isBlank c = false := by
  by_contra hblank
  obtain ⟨r, hr, hlo, hhi⟩ := exists_range_of_inRanges (Bool.not_eq_false _ ▸ hblank)
  have hshort : ∀ r ∈ blankRanges, r.2 < r.1 + 11 := by decide
  have hnone : ∀ r ∈ blankRanges, ∀ k < 11, r.1 + k ≤ r.2 →
      inRanges alphabeticRanges (r.1 + k) = false := by
    decide +kernel
  have hlt := hshort r hr
  obtain ⟨k, hk⟩ := Nat.exists_eq_add_of_le hlo
  have hletter := hnone r hr k (by omega) (by omega)
  rw [← hk] at hletter
  rw [isAlphabetic, hletter] at h
  cases h

end Text

namespace FrameLexeme

theorem isNumeric_of_isDigit {c : Char} (h : isDigit c = true) : isNumeric c = true := by
  simp only [isDigit, decide_eq_true_eq, Char.le_def, UInt32.le_iff_toNat_le] at h
  have hlo : 0x30 ≤ c.toNat := h.1
  have hhi : c.toNat ≤ 0x39 := h.2
  rw [isNumeric, Text.numericRanges, inRanges, if_neg (by omega), if_pos hhi]

theorem isBlank_eq_false_of_isDigit {c : Char} (h : isDigit c = true) : isBlank c = false := by
  simp only [isDigit, decide_eq_true_eq, Char.le_def, UInt32.le_iff_toNat_le] at h
  have hlo : 0x30 ≤ c.toNat := h.1
  have hhi : c.toNat ≤ 0x39 := h.2
  simp only [isBlank, Text.blankRanges, inRanges]
  grind

theorem continuesWord_of_isDigit {c : Char} (h : isDigit c = true) : continuesWord c = true := by
  simp [continuesWord, isNumeric_of_isDigit h]

/-- A digit starts no word. -/
theorem startsWord_eq_false_of_isDigit {c : Char} (h : isDigit c = true) :
    startsWord c = false := by
  simp only [isDigit, decide_eq_true_eq, Char.le_def, UInt32.le_iff_toNat_le] at h
  have hhi : c.toNat ≤ 0x39 := h.2
  have hne : c ≠ '_' := by
    rintro rfl
    exact absurd hhi (by decide)
  rw [startsWord, isAlphabetic, Text.alphabeticRanges, inRanges, if_pos (by omega)]
  simpa using hne

/-- What stands before the text ends there: no word or number goes on with its first character. -/
def Closes (tail : List Char) : Prop := ∀ c ∈ tail.head?, continuesWord c = false

/-- No number goes on with the first character of the text either. -/
def ClosesNumber (tail : List Char) : Prop :=
  ∀ c ∈ tail.head?, continuesWord c = false ∧ c ≠ '.'

theorem ClosesNumber.closes {tail : List Char} (h : ClosesNumber tail) : Closes tail :=
  fun c hc ↦ (h c hc).1

/-! ## Numbers -/

theorem ne_of_isDigit {c d : Char} (hc : isDigit c = true) (hd : isDigit d = false) : c ≠ d := by
  rintro rfl
  rw [hd] at hc
  cases hc

theorem any_mark_digits {digits : List Char} (h : AllDigits digits) :
    digits.any (fun c ↦ c == '.' || c == 'e' || c == 'E') = false := by
  rw [List.any_eq_false]
  intro c hc
  have hdigit := h c hc
  simp [ne_of_isDigit hdigit (d := '.') (by decide), ne_of_isDigit hdigit (d := 'e') (by decide),
    ne_of_isDigit hdigit (d := 'E') (by decide)]

theorem spanNumber_digits {part : NumberPart} (hpart : part ≠ .mark) {digits : List Char}
    (hdigits : AllDigits digits) (text : List Char) :
    spanNumber part (digits ++ text)
      = (digits ++ (spanNumber part text).1, (spanNumber part text).2) := by
  induction digits with
  | nil => rfl
  | cons c digits ih =>
    have hc : isDigit c = true := hdigits c (by simp)
    have hsame : (if part = .whole then NumberPart.whole else .fraction) = part := by
      cases part <;> simp_all
    rw [List.cons_append, spanNumber]
    simp [hpart, hc, hsame, ih fun d hd ↦ hdigits d (by simp [hd])]

theorem spanNumber_of_closes {part : NumberPart} (hpart : part ≠ .mark) {tail : List Char}
    (htail : Closes tail) (hpoint : part = .whole → tail.head? ≠ some '.') :
    spanNumber part tail = ([], tail) := by
  cases tail with
  | nil => rw [spanNumber]
  | cons c tail =>
    have hc : continuesWord c = false := htail c rfl
    have hdigit : isDigit c = false := by
      by_contra hdigit
      rw [continuesWord_of_isDigit (Bool.not_eq_false _ ▸ hdigit)] at hc
      cases hc
    have hexponent : ¬(c = 'e' ∨ c = 'E') := by
      rintro (rfl | rfl)
      · exact absurd hc (by decide)
      · exact absurd hc (by decide)
    have hfraction : ¬(c = '.' ∧ part = .whole ∧ startsWithDigit tail = true) := by
      rintro ⟨rfl, hwhole, -⟩
      exact hpoint hwhole rfl
    rw [spanNumber]
    simp [hpart, hdigit, hexponent, hfraction]

theorem spanNumber_point {places : List Char} (hplaces : AllDigits places) (hne : places ≠ [])
    {tail : List Char} (htail : Closes tail) :
    spanNumber .whole ('.' :: places ++ tail) = ('.' :: places, tail) := by
  have hstart : startsWithDigit (places ++ tail) = true := by
    cases places with
    | nil => exact absurd rfl hne
    | cons c places => exact hplaces c (by simp)
  rw [List.cons_append, spanNumber]
  simp [isDigit, hstart, spanNumber_digits (by simp : NumberPart.fraction ≠ .mark) hplaces,
    spanNumber_of_closes (by simp : NumberPart.fraction ≠ .mark) htail (by simp)]

/-! ## String literals -/

theorem spanString_literalChar (c : Char) (rest : List Char) :
    spanString (literalChar c ++ rest)
      = (spanString rest).map fun s ↦ (literalChar c ++ s.1, s.2) := by
  unfold literalChar
  split
  · rfl
  · rfl
  · rfl
  · rfl
  · rename_i hfeed _ hquote hslash
    rw [List.singleton_append, spanString]
    · rfl
    · exact hfeed
    · exact hquote
    · exact fun _ _ h ↦ absurd h hslash

theorem unescape_literalChar (c : Char) (rest : List Char) :
    unescape (literalChar c ++ rest) = c :: unescape rest := by
  unfold literalChar
  split
  · rfl
  · rfl
  · rfl
  · rfl
  · rename_i hfeed _ hquote hslash
    rw [List.singleton_append, unescape]
    all_goals exact fun _ h ↦ absurd h hslash

theorem spanString_flatMap (text tail : List Char) :
    spanString (text.flatMap literalChar ++ '"' :: tail)
      = some (text.flatMap literalChar, tail) := by
  induction text with
  | nil => rfl
  | cons c text ih =>
    rw [List.flatMap_cons, List.append_assoc, spanString_literalChar, ih]
    rfl

theorem unescape_flatMap (text : List Char) : unescape (text.flatMap literalChar) = text := by
  induction text with
  | nil => rfl
  | cons c text ih => rw [List.flatMap_cons, unescape_literalChar, ih]

/-! ## What tokens are made of -/

/-- The name is an identifier and no truth value. -/
def IsWord (name : String) : Prop :=
  (match name.toList with
    | c :: rest => startsWord c && rest.all continuesWord
    | [] => false) = true ∧ name ≠ "true" ∧ name ≠ "false"

instance (name : String) : Decidable (IsWord name) := inferInstanceAs (Decidable (_ ∧ _ ∧ _))

theorem IsWord.exists_cons {name : String} (h : IsWord name) :
    ∃ c rest, name.toList = c :: rest ∧ startsWord c = true ∧
      ∀ d ∈ rest, continuesWord d = true := by
  obtain ⟨hname, -⟩ := h
  split at hname
  · rename_i c rest hcons
    rw [Bool.and_eq_true, List.all_eq_true] at hname
    exact ⟨c, rest, hcons, hname⟩
  · cases hname

theorem word_of_isWord {name : String} (h : IsWord name) : word name.toList = .word name := by
  have hname := String.ofList_toList (s := name)
  unfold word
  split
  · rename_i htrue
    exact absurd (hname.symm.trans htrue) h.2.1
  · rename_i hfalse
    exact absurd (hname.symm.trans hfalse) h.2.2
  · rw [hname]

/-- The script ends before a closing delimiter that follows it. -/
def IsScript (script : String) : Prop :=
  ∀ tail, spanTo '%' '\x7d' (script.toList ++ '%' :: '\x7d' :: tail) = some (script.toList, tail)

end FrameLexeme

namespace Text

/-- Where a span ends depends on its own characters only. -/
theorem spanTo_append_of_spanTo {a b : Char} {text body rest : List Char}
    (h : spanTo a b text = some (body, rest)) (tail : List Char) :
    spanTo a b (body ++ a :: b :: tail) = some (body, tail) := by
  induction text generalizing body with
  | nil => simp [spanTo] at h
  | cons c t ih =>
    cases t with
    | nil => simp [spanTo] at h
    | cons d t =>
      rw [spanTo] at h
      split at h
      · cases h
        simp [spanTo]
      · rename_i hcd
        rw [Option.map_eq_some_iff] at h
        obtain ⟨⟨body', rest'⟩, h, heq⟩ := h
        cases heq
        have hrest := ih h
        -- the character after `c` is the same one as in the text that was read
        have hnext : ∃ more, body' ++ a :: b :: tail = d :: more := by
          have hcons := spanTo_append h
          cases body' with
          | nil =>
            cases hcons
            exact ⟨_, rfl⟩
          | cons e body' =>
            cases hcons
            exact ⟨_, rfl⟩
        obtain ⟨more, hmore⟩ := hnext
        rw [List.cons_append, hmore, spanTo, if_neg hcd, ← hmore, hrest]
        rfl

end Text

namespace FrameToken

open FrameLexeme (IsWord IsScript)

/-- What every token that is read from a source satisfies. -/
def Lexical : FrameToken → Prop
  | .word name => IsWord name
  | .int i => Decimal.minInt64 ≤ i ∧ i ≤ Decimal.maxInt64
  | .float x => Decimal.IsNumber x
  | .text script => IsScript script
  | _ => True

end FrameToken

namespace FrameLexeme

theorem lexical_word {c : Char} {rest : List Char} (hc : startsWord c = true)
    (hrest : ∀ d ∈ rest, continuesWord d = true) : (word (c :: rest)).Lexical := by
  unfold word
  split
  · trivial
  · trivial
  · rename_i htrue hfalse
    refine ⟨?_, htrue, hfalse⟩
    simpa [hc] using hrest

theorem lexical_number? {c : Char} {rest : List Char} {token : FrameToken}
    (h : (isDigit c || (c == '-' && startsWithDigit rest)) = true)
    (hread : number? (c :: (spanNumber .whole rest).1) = some token) : token.Lexical := by
  unfold number? at hread
  split at hread
  · rw [Option.map_eq_some_iff] at hread
    obtain ⟨x, hx, rfl⟩ := hread
    rw [Bool.or_eq_true] at h
    rcases h with h | h
    · exact @Decimal.IsNumber.float? _ _ false h _ hx
    · rw [Bool.and_eq_true, beq_iff_eq] at h
      obtain ⟨rfl, h⟩ := h
      cases rest with
      | nil => cases h
      | cons d rest =>
        have hd : isDigit d = true := h
        rw [spanNumber] at hx
        simp only [hd, reduceCtorEq, false_and, if_false, if_true] at hx
        exact @Decimal.IsNumber.float? _ _ true hd _ hx
  · rw [Option.map_eq_some_iff] at hread
    obtain ⟨i, hi, rfl⟩ := hread
    exact Decimal.integer?_range hi

/-- What a lexeme is a token of is lexical. -/
theorem lexical_of_read {c : Char} {rest : List Char} {l : FrameLexeme} {token : FrameToken}
    (h : read c rest = .ok l) (htoken : l.token = some token) : token.Lexical := by
  unfold read at h
  split at h
  · cases h
    cases htoken
  split at h
  · cases h
    cases htoken
  split at h
  · unfold blockComment at h
    split at h
    · cases h
      cases htoken
    · cases h
  split at h
  · unfold scriptText at h
    split at h
    · rename_i hspan
      cases h
      cases htoken
      intro tail
      simpa using Text.spanTo_append_of_spanTo hspan tail
    · cases h
  split at h
  · unfold stringLiteral at h
    split at h
    · cases h
      cases htoken
      trivial
    · cases h
  split at h
  · rename_i hnumber
    unfold numberLiteral at h
    dsimp only at h
    split at h
    · rename_i hread
      cases h
      cases htoken
      exact lexical_number? hnumber hread
    · cases h
  split at h
  · rename_i hword
    cases h
    cases htoken
    exact lexical_word hword (List.all_eq_true.1 List.all_takeWhile)
  · unfold symbolOf at h
    split at h
    · cases h
      cases htoken
      trivial
    · cases h

end FrameLexeme

namespace FrameTokens

/-! ## Cutting -/

/-- Tokens without their positions. -/
def bare : Except ParseError FrameTokens → Option (List FrameToken)
  | .ok ts => some (ts.tokens.map (·.token))
  | .error _ => none

/-- Tokens of a text without their positions, if it can be cut into tokens. -/
def cut (text : List Char) : Option (List FrameToken) := bare (scan {} text)

/-- Puts a token before others. -/
def put : Option FrameToken → Option (List FrameToken) → Option (List FrameToken)
  | some t, some ts => some (t :: ts)
  | _, _ => none

theorem bare_scan_error {position : Position} {c : Char} {rest : List Char} {fault : FrameFault}
    (h : FrameLexeme.read c rest = .error fault) : bare (scan position (c :: rest)) = none := by
  rw [scan_error h]
  rfl

theorem bare_scan_ok {position : Position} {c : Char} {rest : List Char} {l : FrameLexeme}
    (h : FrameLexeme.read c rest = .ok l) :
    bare (scan position (c :: rest))
      = (bare (scan (position.advance l.text) l.rest)).map (l.token.toList ++ ·) := by
  rw [scan_ok h]
  cases scan (position.advance l.text) l.rest with
  | error e => rfl
  | ok following => cases htoken : l.token <;> simp [bare, Except.map]

/-- Tokens do not depend on the position of their text. -/
theorem bare_scan (position : Position) (text : List Char) :
    bare (scan position text) = cut text := by
  unfold cut
  induction text using FrameLexeme.induction generalizing position with
  | nil => simp [scan, bare]
  | error hread => rw [bare_scan_error hread, bare_scan_error hread]
  | ok hread ih => rw [bare_scan_ok hread, bare_scan_ok hread, ih, ih (Position.advance _ _)]

@[simp] theorem cut_nil : cut [] = some [] := by simp [cut, scan, bare]

theorem cut_error {c : Char} {rest : List Char} {fault : FrameFault}
    (h : FrameLexeme.read c rest = .error fault) : cut (c :: rest) = none := bare_scan_error h

theorem cut_skip {c : Char} {rest text tail : List Char}
    (h : FrameLexeme.read c rest = .ok ⟨none, text, tail⟩) : cut (c :: rest) = cut tail := by
  rw [cut, bare_scan_ok h, bare_scan]
  simp

theorem cut_token {c : Char} {rest text tail : List Char} {token : FrameToken}
    (h : FrameLexeme.read c rest = .ok ⟨some token, text, tail⟩) :
    cut (c :: rest) = put (some token) (cut tail) := by
  rw [cut, bare_scan_ok h, bare_scan]
  cases cut tail <;> rfl

/-! ## One token at the front -/

theorem cut_blank {c : Char} (h : isBlank c = true) (tail : List Char) :
    cut (c :: tail) = cut tail := cut_skip (by rw [FrameLexeme.read, if_pos h])

theorem cut_symbol (s : FrameSymbol) (c : Char) (h : s.text.toList = [c]) (tail : List Char) :
    cut (c :: tail) = put (some (.symbol s)) (cut tail) := by
  cases s with
  | arrow => cases h
  | _ =>
    cases h
    exact cut_token rfl

open FrameLexeme (Closes ClosesNumber IsWord IsScript startsWord continuesWord)

private theorem read_of_startsWord {c : Char} (h : startsWord c = true) (rest : List Char) :
    FrameLexeme.read c rest = .ok ⟨some (FrameLexeme.word (c :: rest.takeWhile continuesWord)),
      c :: rest.takeWhile continuesWord, rest.dropWhile continuesWord⟩ := by
  have hblank : isBlank c = false := by
    rw [startsWord, Bool.or_eq_true, beq_iff_eq] at h
    rcases h with h | rfl
    · exact Text.isBlank_eq_false_of_isAlphabetic h
    · rfl
  have hdigit : isDigit c = false := by
    by_contra hdigit
    rw [Bool.not_eq_false] at hdigit
    rw [FrameLexeme.startsWord_eq_false_of_isDigit hdigit] at h
    cases h
  have hne : ∀ d, startsWord d = false → c ≠ d := by
    rintro d hd rfl
    rw [hd] at h
    cases h
  simp [FrameLexeme.read, hblank, hdigit, h, hne '/' (by decide), hne '%' (by decide),
    hne '"' (by decide), hne '-' (by decide)]

private theorem cut_wordText {c : Char} {rest tail : List Char} (hc : startsWord c = true)
    (hrest : ∀ d ∈ rest, continuesWord d = true) (htail : Closes tail) :
    cut (c :: rest ++ tail) = put (some (FrameLexeme.word (c :: rest))) (cut tail) := by
  have hstop : tail.takeWhile continuesWord = [] ∧ tail.dropWhile continuesWord = tail := by
    cases tail with
    | nil => exact ⟨rfl, rfl⟩
    | cons d tail =>
      have hd := htail d rfl
      simp [hd]
  refine @cut_token _ _ (c :: rest) _ _ ?_
  change FrameLexeme.read c (rest ++ tail) = _
  rw [read_of_startsWord hc, List.takeWhile_append_of_pos hrest,
    List.dropWhile_append_of_pos hrest, hstop.1, hstop.2, List.append_nil]

theorem cut_word {name : String} (h : IsWord name) {tail : List Char} (htail : Closes tail) :
    cut (name.toList ++ tail) = put (some (.word name)) (cut tail) := by
  obtain ⟨c, rest, hname, hc, hrest⟩ := h.exists_cons
  rw [hname, cut_wordText hc hrest htail, ← hname, FrameLexeme.word_of_isWord h]

theorem cut_bool (b : Bool) {tail : List Char} (htail : Closes tail) :
    cut ((toString b).toList ++ tail) = put (some (.bool b)) (cut tail) := by
  cases b with
  | true => exact @cut_wordText 't' ['r', 'u', 'e'] _ (by decide) (List.all_eq_true.1 rfl) htail
  | false =>
    exact @cut_wordText 'f' ['a', 'l', 's', 'e'] _ (by decide) (List.all_eq_true.1 rfl) htail

private theorem cut_number {negative : Bool} {c : Char} {rest tail : List Char}
    {token : FrameToken} (hc : isDigit c = true)
    (hspan : FrameLexeme.spanNumber .whole (rest ++ tail) = (rest, tail))
    (hread : FrameLexeme.number? ((if negative then ['-'] else []) ++ c :: rest) = some token) :
    cut ((if negative then ['-'] else []) ++ c :: rest ++ tail) = put (some token) (cut tail) := by
  cases negative with
  | true =>
    have hmore : FrameLexeme.spanNumber .whole (c :: (rest ++ tail)) = (c :: rest, tail) := by
      rw [FrameLexeme.spanNumber]
      simp [hc, hspan]
    refine @cut_token '-' _ ('-' :: c :: rest) _ _ ?_
    have hnumber : FrameLexeme.read '-' (c :: (rest ++ tail))
        = FrameLexeme.numberLiteral '-' (c :: (rest ++ tail)) := by
      have hstart : FrameLexeme.startsWithDigit (c :: (rest ++ tail)) = true := hc
      have hblank : isBlank '-' = false := by decide
      simp [FrameLexeme.read, hblank, hstart]
    change FrameLexeme.read '-' (c :: (rest ++ tail)) = _
    rw [hnumber, FrameLexeme.numberLiteral, hmore]
    change FrameLexeme.number? ('-' :: c :: rest) = _ at hread
    simp only [hread]
  | false =>
    refine @cut_token _ _ (c :: rest) _ _ ?_
    have hblank : isBlank c = false := FrameLexeme.isBlank_eq_false_of_isDigit hc
    have hne : ∀ d, isDigit d = false → c ≠ d := fun d ↦ FrameLexeme.ne_of_isDigit hc
    have hnumber : FrameLexeme.read c (rest ++ tail)
        = FrameLexeme.numberLiteral c (rest ++ tail) := by
      simp [FrameLexeme.read, hblank, hc, hne '/' (by decide), hne '%' (by decide),
        hne '"' (by decide)]
    change FrameLexeme.read c (rest ++ tail) = _
    rw [hnumber, FrameLexeme.numberLiteral, hspan]
    change FrameLexeme.number? (c :: rest) = _ at hread
    simp only [hread]

theorem cut_int {i : Int} (hlow : Decimal.minInt64 ≤ i) (hhigh : i ≤ Decimal.maxInt64)
    {tail : List Char} (htail : ClosesNumber tail) :
    cut ((toString i).toList ++ tail) = put (some (.int i)) (cut tail) := by
  have hread := Decimal.integer?_toString hlow hhigh
  have hdigits := Decimal.allDigits_toDigits i.natAbs
  have hsign : (if i < 0 then ['-'] else []) = if decide (i < 0) then ['-'] else [] := by simp
  rw [Decimal.toList_toString, hsign] at hread ⊢
  obtain ⟨c, rest, hcons⟩ : ∃ c rest, Nat.toDigits 10 i.natAbs = c :: rest :=
    List.exists_cons_of_ne_nil Nat.toDigits_ne_nil
  rw [hcons] at hread hdigits ⊢
  have hrest : AllDigits rest := fun d hd ↦ hdigits d (by simp [hd])
  refine cut_number (hdigits c (by simp)) ?_ ?_
  · rw [FrameLexeme.spanNumber_digits (by simp) hrest, FrameLexeme.spanNumber_of_closes (by simp)
      htail.closes fun _ hpoint ↦ (htail '.' hpoint).2 rfl, List.append_nil]
  · rw [FrameLexeme.number?, if_neg, hread]
    · rfl
    · rw [List.any_append, FrameLexeme.any_mark_digits hdigits, Bool.or_false]
      split <;> decide

/-- A finite double is read back if its text is. -/
theorem cut_float {x : Float} {negative : Bool} {m : Nat} {e : Int}
    (hx : Decimal.Binary.ofFloat x = .finite negative m e)
    (hread : Decimal.float? (Decimal.literal x).toList = some x) {tail : List Char}
    (htail : Closes tail) :
    cut ((Decimal.literal x).toList ++ tail) = put (some (.float x)) (cut tail) := by
  obtain ⟨whole, places, hwhole, hplaces, hne, hne', htext⟩ := Decimal.exists_toList_literal hx
  obtain ⟨c, rest, rfl⟩ := List.exists_cons_of_ne_nil hne
  have hrest : AllDigits rest := fun d hd ↦ hwhole d (by simp [hd])
  have hassoc : (if negative then ['-'] else []) ++ c :: rest ++ '.' :: places
      = (if negative then ['-'] else []) ++ c :: (rest ++ '.' :: places) := by simp
  rw [htext, hassoc] at hread ⊢
  refine cut_number (hwhole c (by simp)) ?_ ?_
  · rw [List.append_assoc, FrameLexeme.spanNumber_digits (by simp) hrest,
      FrameLexeme.spanNumber_point hplaces hne' htail]
  · rw [FrameLexeme.number?, if_pos (by simp), hread]
    rfl

/-- No token starts with the minus sign of an infinity. -/
theorem cut_negativeInfinity (tail : List Char) : cut ("-inf".toList ++ tail) = none :=
  @cut_error '-' _ (.character '-') rfl

/-! ## Texts at the front -/

theorem cut_string (s : String) (tail : List Char) :
    cut ((stringLiteral s).toList ++ tail) = put (some (.string s)) (cut tail) := by
  have htext : (stringLiteral s).toList ++ tail
      = '"' :: (s.toList.flatMap literalChar ++ '"' :: tail) := by simp [stringLiteral]
  have hread : ∀ rest, FrameLexeme.read '"' rest = FrameLexeme.stringLiteral rest := fun _ ↦ rfl
  rw [htext]
  refine @cut_token _ _ ('"' :: s.toList.flatMap literalChar ++ ['"']) _ _ ?_
  rw [hread, FrameLexeme.stringLiteral, FrameLexeme.spanString_flatMap]
  simp [FrameLexeme.unescape_flatMap]

theorem cut_script {script : String} (h : IsScript script) (tail : List Char) :
    cut ('%' :: '\x7b' :: script.toList ++ '%' :: '\x7d' :: tail)
      = put (some (.text script)) (cut tail) := by
  refine @cut_token _ _ ('%' :: '\x7b' :: script.toList ++ ['%', '\x7d']) _ _ ?_
  have hread : FrameLexeme.read '%' ('\x7b' :: (script.toList ++ '%' :: '\x7d' :: tail))
      = FrameLexeme.scriptText (script.toList ++ '%' :: '\x7d' :: tail) := rfl
  change FrameLexeme.read '%' ('\x7b' :: (script.toList ++ '%' :: '\x7d' :: tail)) = _
  rw [hread, FrameLexeme.scriptText, h tail]
  simp

end FrameTokens

end ReactiveFrames
