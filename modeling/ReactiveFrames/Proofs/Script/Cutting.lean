import ReactiveFrames.Proofs.Frame.Printing
import ReactiveFrames.Script.Parser

namespace ReactiveFrames.Script

open Text (isBlank isAlphabetic isNumeric spanTo)
open Decimal (isDigit)

namespace Lexeme

/-! ## The end of a function body -/

/-- What stands behind the body of a function. -/
def closing : List Char := ['\n', '\x7d', '\n']

variable {p : Char → Bool}

theorem takeWhile_append_closing (h : p '\n' = false) (text : List Char) :
    (text ++ closing).takeWhile p = text.takeWhile p := by
  induction text with
  | nil => simp [closing, h]
  | cons c text ih =>
    rw [List.cons_append, List.takeWhile_cons, List.takeWhile_cons, ih]

theorem dropWhile_append_closing (h : p '\n' = false) (text : List Char) :
    (text ++ closing).dropWhile p = text.dropWhile p ++ closing := by
  induction text with
  | nil => simp [closing, h]
  | cons c text ih =>
    rw [List.cons_append, List.dropWhile_cons, List.dropWhile_cons, ih]
    split <;> rfl

theorem head?_append_closing {c : Char} (h : c ≠ '\n') (text : List Char) :
    (text ++ closing).head? = some c ↔ text.head? = some c := by
  cases text <;> simp [closing, h.symm]

theorem spanTo_append_closing (text : List Char) : spanTo '*' '/' (text ++ closing)
    = (spanTo '*' '/' text).map fun s ↦ (s.1, s.2 ++ closing) := by
  induction text with
  | nil => rfl
  | cons c text ih =>
    cases text with
    | nil => simp [closing, spanTo]
    | cons d text =>
      simp only [List.cons_append, spanTo] at ih ⊢
      split
      · rfl
      · rw [ih]
        cases spanTo '*' '/' (d :: text) <;> rfl

theorem spanString_cons {quote c : Char} (h : c ≠ '\\') (rest : List Char) :
    spanString quote (c :: rest) = if c = '\n' then none else if c = quote then some ([], rest)
      else (spanString quote rest).map fun s ↦ (c :: s.1, s.2) := by
  rw [spanString]
  · exact fun hc _ ↦ h hc
  · exact fun _ _ hc _ ↦ h hc

theorem spanString_append_closing {quote : Char} (h : quote ≠ '\x7d') (text : List Char) :
    spanString quote (text ++ closing)
      = (spanString quote text).map fun s ↦ (s.1, s.2 ++ closing) := by
  have ne_slash {c : Char} {rest : List Char} (hlone : c = '\\' → rest = [] → False)
      (hpair : ∀ d rest', c = '\\' → rest = d :: rest' → False) : c ≠ '\\' := by
    intro hc
    cases rest with
    | nil => exact hlone hc rfl
    | cons d rest => exact hpair d rest hc rfl
  fun_induction spanString quote text with
  | case1 => simp [closing, spanString]
  | case2 => simp [closing, spanString, h.symm]
  | case3 c rest ih =>
    rw [List.cons_append, List.cons_append, spanString, ih]
    cases spanString quote rest <;> rfl
  | case4 rest => simp [spanString]
  | case5 rest hlone hpair hfeed =>
    rw [List.cons_append, spanString_cons (ne_slash hlone hpair), if_neg hfeed, if_pos rfl]
    rfl
  | case6 c rest hlone hpair hfeed hquote ih =>
    rw [List.cons_append, spanString_cons (ne_slash hlone hpair), if_neg hfeed, if_neg hquote, ih]
    cases spanString quote rest <;> rfl

theorem spanSigned_append_closing (text : List Char) :
    spanSigned (text ++ closing) = ((spanSigned text).1, (spanSigned text).2 ++ closing) := by
  have hdigit : isDigit '\n' = false := by decide
  unfold spanSigned
  split
  · rename_i rest heq
    cases text with
    | nil => cases heq
    | cons c text =>
      cases heq
      simp [takeWhile_append_closing hdigit, dropWhile_append_closing hdigit]
  · rename_i rest heq
    cases text with
    | nil => cases heq
    | cons c text =>
      cases heq
      simp [takeWhile_append_closing hdigit, dropWhile_append_closing hdigit]
  · rename_i hplus hminus
    rw [takeWhile_append_closing hdigit, dropWhile_append_closing hdigit]
    split
    · exact absurd rfl (hplus _)
    · exact absurd rfl (hminus _)
    · rfl

theorem spanExponent_append_closing (text : List Char) :
    spanExponent (text ++ closing) = ((spanExponent text).1, (spanExponent text).2 ++ closing) := by
  unfold spanExponent
  split
  · rename_i rest heq
    cases text with
    | nil => cases heq
    | cons c text =>
      cases heq
      simp [spanSigned_append_closing]
  · rename_i rest heq
    cases text with
    | nil => cases heq
    | cons c text =>
      cases heq
      simp [spanSigned_append_closing]
  · rename_i hlower hupper
    split
    · exact absurd rfl (hlower _)
    · exact absurd rfl (hupper _)
    · rfl

theorem isPrefixOf_append_closing {front : List Char} (h : '\n' ∉ front) (text : List Char) :
    front.isPrefixOf (text ++ closing) = front.isPrefixOf text := by
  induction front generalizing text with
  | nil => rfl
  | cons c front ih =>
    rw [List.mem_cons, not_or] at h
    cases text with
    | nil =>
      have hc : (c == '\n') = false := beq_eq_false_iff_ne.2 (Ne.symm h.1)
      simp [closing, List.isPrefixOf, hc]
    | cons d text => rw [List.cons_append, List.isPrefixOf, List.isPrefixOf, ih h.2]

theorem ofFront?_append_closing (text : List Char) :
    Punct.ofFront? (text ++ closing) = Punct.ofFront? text := by
  have hfeed (p : Punct) : '\n' ∉ p.chars := by cases p <;> decide
  simp only [Punct.ofFront?, isPrefixOf_append_closing (hfeed _)]

theorem length_le_of_ofFront? {text : List Char} {p : Punct} (h : Punct.ofFront? text = some p) :
    p.chars.length ≤ text.length := by
  unfold Punct.ofFront? at h
  have hprefix := List.find?_some h
  exact (List.isPrefixOf_iff_prefix.1 hprefix).length_le

/-- A lexeme ends before the end of a function body. -/
theorem read_append_closing (c : Char) (rest : List Char) : read c (rest ++ closing)
    = (read c rest).map fun l ↦ { l with rest := l.rest ++ closing } := by
  unfold read
  by_cases hblank : isBlank c = true
  · rw [if_pos hblank, if_pos hblank]
    rfl
  rw [if_neg hblank, if_neg hblank]
  simp only [head?_append_closing (by decide : '/' ≠ '\n'),
    head?_append_closing (by decide : '*' ≠ '\n')]
  split
  · rw [takeWhile_append_closing (by decide), dropWhile_append_closing (by decide)]
    rfl
  split
  · rename_i hstar
    have htail : (rest ++ closing).tail = rest.tail ++ closing := by
      rw [Text.eq_cons_of_head? hstar.2]
      rfl
    rw [htail, blockComment, blockComment, spanTo_append_closing]
    cases spanTo '*' '/' rest.tail <;> rfl
  have hpoint : (rest ++ closing).head?.any isDigit = rest.head?.any isDigit := by
    cases rest <;> rfl
  rw [hpoint]
  split
  · have hnumber : isNumberChar '\n' = false := by decide
    unfold numberLiteral
    rw [takeWhile_append_closing hnumber, dropWhile_append_closing hnumber,
      spanExponent_append_closing]
    dsimp only
    split <;> rfl
  split
  · rename_i hquote
    have hne : c ≠ '\x7d' := by
      rintro rfl
      revert hquote
      decide
    rw [stringLiteral, stringLiteral, spanString_append_closing hne]
    cases spanString c rest <;> rfl
  split
  · have hword : continuesWord '\n' = false := by decide +kernel
    rw [takeWhile_append_closing hword, dropWhile_append_closing hword]
    rfl
  · unfold punctuator
    rw [← List.cons_append, ofFront?_append_closing]
    cases hp : Punct.ofFront? (c :: rest) with
    | none => rfl
    | some p =>
      have hlength : p.chars.length - 1 ≤ rest.length := by
        have := length_le_of_ofFront? hp
        rw [List.length_cons] at this
        omega
      simp only [List.take_append_of_le_length hlength, List.drop_append_of_le_length hlength]
      rfl

/-- The name is an identifier of scripts. -/
def IsWord (name : String) : Prop :=
  ∃ c rest, name.toList = c :: rest ∧ startsWord c = true ∧ ∀ d ∈ rest, continuesWord d = true

theorem isWord_of_all {name : String} {c : Char} {rest : List Char}
    (hname : name.toList = c :: rest) (h : (startsWord c && rest.all continuesWord) = true) :
    IsWord name := by
  rw [Bool.and_eq_true, List.all_eq_true] at h
  exact ⟨c, rest, hname, h⟩

theorem read_of_startsWord {c : Char} (h : startsWord c = true) (rest : List Char) :
    read c rest = .ok ⟨some (.word (String.ofList (c :: rest.takeWhile continuesWord))),
      c :: rest.takeWhile continuesWord, rest.dropWhile continuesWord⟩ := by
  have hblank : isBlank c = false := by
    simp only [startsWord, Bool.or_eq_true, beq_iff_eq] at h
    obtain (h | rfl) | rfl := h
    · exact Text.isBlank_eq_false_of_isAlphabetic h
    · rfl
    · rfl
  have hne : ∀ d, startsWord d = false → c ≠ d := by
    rintro d hd rfl
    rw [hd] at h
    cases h
  have hdigit : isDigit c = false := by
    rw [Bool.eq_false_iff]
    intro hdigit
    have hframe := FrameLexeme.startsWord_eq_false_of_isDigit hdigit
    rw [FrameLexeme.startsWord, Bool.or_eq_false_iff] at hframe
    simp only [startsWord, hframe.1, hframe.2, Bool.false_or, beq_iff_eq] at h
    subst h
    exact absurd hdigit (by decide)
  simp [read, hblank, hdigit, h, hne '/' (by decide +kernel), hne '.' (by decide +kernel),
    hne '"' (by decide +kernel), hne '\'' (by decide +kernel)]

end Lexeme

namespace Tokens

/-! ## Tokens of a text -/

/-- Tokens of a text without their lines, if it can be cut into tokens. -/
def cutFrom (line : Nat) (text : List Char) : Option (List Token) :=
  (scan line text).toOption.map fun ts ↦ ts.tokens.map (·.token)

/-- Tokens of a text without their lines, if it can be cut into tokens. -/
def cut (text : List Char) : Option (List Token) := cutFrom 0 text

theorem cutFrom_cons (line : Nat) (c : Char) (rest : List Char) : cutFrom line (c :: rest)
    = (Lexeme.read c rest).toOption.bind fun l ↦
      (cutFrom (line + l.lines) l.rest).map (l.token.toList ++ ·) := by
  cases hread : Lexeme.read c rest with
  | error fault =>
    rw [cutFrom, scan_error hread]
    rfl
  | ok l =>
    change (scan line (c :: rest)).toOption.map _ = (cutFrom (line + l.lines) l.rest).map _
    rw [scan_ok hread, cutFrom]
    cases scan (line + l.lines) l.rest with
    | error e => rfl
    | ok following => cases htoken : l.token <;> simp [Except.toOption, Except.map]

/-- Tokens do not depend on the line of their text. -/
theorem cutFrom_eq_cut (line : Nat) (text : List Char) : cutFrom line text = cut text := by
  induction text using Lexeme.induction generalizing line with
  | nil => simp [cut, cutFrom, scan, Except.toOption]
  | error hread => rw [cut, cutFrom_cons, cutFrom_cons, hread]; rfl
  | ok hread ih =>
    rw [cut, cutFrom_cons, cutFrom_cons, hread]
    simp only [Except.toOption, Option.bind_some, ih]

theorem cut_nil : cut [] = some [] := by simp [cut, cutFrom, scan, Except.toOption]

theorem cut_cons (c : Char) (rest : List Char) : cut (c :: rest)
    = (Lexeme.read c rest).toOption.bind fun l ↦ (cut l.rest).map (l.token.toList ++ ·) := by
  rw [cut, cutFrom_cons]
  simp only [cutFrom_eq_cut]

theorem cut_skip {c : Char} {rest text tail : List Char}
    (h : Lexeme.read c rest = .ok ⟨none, text, tail⟩) : cut (c :: rest) = cut tail := by
  rw [cut_cons, h]
  simp [Except.toOption]

theorem cut_token {c : Char} {rest text tail : List Char} {token : Token}
    (h : Lexeme.read c rest = .ok ⟨some token, text, tail⟩) :
    cut (c :: rest) = (cut tail).map (token :: ·) := by
  rw [cut_cons, h]
  rfl

theorem cut_blank {c : Char} (h : isBlank c = true) (tail : List Char) :
    cut (c :: tail) = cut tail := cut_skip (by rw [Lexeme.read, if_pos h])

/-- Punctuators that are whole words at any place. -/
def marks : List Punct := [.openBrace, .closeBrace, .openParen, .closeParen, .comma]

theorem cut_mark {p : Punct} (hp : p ∈ marks) (tail : List Char) :
    cut (p.chars ++ tail) = (cut tail).map (.punct p :: ·) := by
  simp only [marks, List.mem_cons, List.not_mem_nil, or_false] at hp
  rcases hp with rfl | rfl | rfl | rfl | rfl <;> exact cut_token rfl

theorem cut_append_closing (text : List Char) :
    cut (text ++ Lexeme.closing) = (cut text).map (· ++ [.punct .closeBrace]) := by
  induction text using Lexeme.induction with
  | nil =>
    have hfeed : isBlank '\n' = true := rfl
    have hbrace := cut_mark (p := .closeBrace) (by decide) ['\n']
    rw [cut_blank hfeed, cut_nil] at hbrace
    rw [List.nil_append, Lexeme.closing, cut_blank hfeed, cut_nil]
    exact hbrace
  | error hread =>
    rw [List.cons_append, cut_cons, cut_cons, Lexeme.read_append_closing, hread]
    rfl
  | @ok c rest l hread ih =>
    rw [List.cons_append, cut_cons, cut_cons, Lexeme.read_append_closing, hread]
    simp only [Except.map, Except.toOption, Option.bind_some, ih]
    cases cut l.rest <;> simp

open Lexeme (IsWord startsWord continuesWord)

/-- A word ends where a character follows that does not continue it. -/
theorem cut_word {name : String} (h : IsWord name) {tail : List Char}
    (htail : ∀ c ∈ tail.head?, continuesWord c = false) :
    cut (name.toList ++ tail) = (cut tail).map (.word name :: ·) := by
  obtain ⟨c, rest, hname, hc, hrest⟩ := h
  have hstop : tail.takeWhile continuesWord = [] ∧ tail.dropWhile continuesWord = tail := by
    cases tail with
    | nil => exact ⟨rfl, rfl⟩
    | cons d tail => simp [htail d rfl]
  have hread := Lexeme.read_of_startsWord hc (rest ++ tail)
  rw [List.takeWhile_append_of_pos hrest, List.dropWhile_append_of_pos hrest, hstop.1, hstop.2,
    List.append_nil, ← hname, String.ofList_toList] at hread
  rw [hname, List.cons_append, cut_token hread]

/-! ## Function expressions -/

/-- Tokens of names between commas. -/
def nameTokens : List String → List Token
  | [] => []
  | name :: names => .word name :: names.flatMap fun more ↦ [.punct .comma, .word more]

/-- Tokens of a function expression. -/
def functionTokens (names : List String) (body : List Token) : List Token :=
  .word "function" :: .punct .openParen :: nameTokens names ++
    .punct .closeParen :: .punct .openBrace :: body ++ [.punct .closeBrace]

theorem cut_names {names : List String} (h : ∀ name ∈ names, IsWord name) {tail : List Char}
    (htail : ∀ c ∈ tail.head?, continuesWord c = false) :
    cut ((", ".intercalate names).toList ++ tail) = (cut tail).map (nameTokens names ++ ·) := by
  have hcomma : continuesWord ',' = false := by decide +kernel
  cases names with
  | nil => simp [nameTokens]
  | cons name names =>
    rw [List.forall_mem_cons] at h
    have hmore : ∀ names : List String, (∀ name ∈ names, IsWord name) →
        (∀ c ∈ (names.flatMap (fun more ↦ ", ".toList ++ more.toList) ++ tail).head?,
          continuesWord c = false) ∧
        cut (names.flatMap (fun more ↦ ", ".toList ++ more.toList) ++ tail)
          = (cut tail).map ((names.flatMap fun more ↦ [.punct .comma, .word more]) ++ ·) := by
      intro names hnames
      induction names with
      | nil => simpa using htail
      | cons name names ih =>
        rw [List.forall_mem_cons] at hnames
        obtain ⟨hhead, hcut⟩ := ih hnames.2
        refine ⟨?_, ?_⟩
        · rintro c hc
          cases hc
          exact hcomma
        · have hmark := cut_mark (p := .comma) (by decide)
            (' ' :: (name.toList ++
              (names.flatMap (fun more ↦ ", ".toList ++ more.toList) ++ tail)))
          rw [cut_blank rfl, cut_word hnames.1 hhead, hcut] at hmark
          rw [List.flatMap_cons, List.flatMap_cons, List.append_assoc, List.append_assoc]
          refine hmark.trans ?_
          cases cut tail <;> rfl
    obtain ⟨hhead, hcut⟩ := hmore names h.2
    rw [toList_intercalate_cons, List.append_assoc, cut_word h.1 hhead, hcut, nameTokens]
    cases cut tail <;> rfl

theorem isWord_function : IsWord "function" :=
  Lexeme.isWord_of_all (show _ = 'f' :: ['u', 'n', 'c', 't', 'i', 'o', 'n'] from rfl)
    (by decide +kernel)

/-- A function expression is cut into the tokens of its body and those around it. -/
theorem cut_function {names : List String} (h : ∀ name ∈ names, IsWord name) (script : String) :
    cut ("function(" ++ ", ".intercalate names ++ ") \x7b\n" ++ script ++ "\n\x7d\n").toList
      = (cut script.toList).map (functionTokens names) := by
  have hclose : continuesWord ')' = false := by decide +kernel
  have htext : ("function(" ++ ", ".intercalate names ++ ") \x7b\n" ++ script ++ "\n\x7d\n").toList
      = "function".toList ++ (Punct.openParen.chars ++ ((", ".intercalate names).toList ++
        (Punct.closeParen.chars ++ ' ' :: (Punct.openBrace.chars ++ '\n' ::
          (script.toList ++ Lexeme.closing))))) := by
    simp [Punct.chars, Lexeme.closing]
  rw [htext, cut_word isWord_function, cut_mark (by decide), cut_names h, cut_mark (by decide),
    cut_blank rfl, cut_mark (by decide), cut_blank rfl, cut_append_closing]
  · cases cut script.toList <;> simp [functionTokens]
  · rintro c hc
    cases hc
    exact hclose
  · rintro c hc
    cases hc
    decide +kernel

theorem cut_assigned {name : String} (h : IsWord name) (text : String) :
    cut (name ++ " = " ++ text).toList
      = (cut text.toList).map fun ws ↦ .word name :: .punct .assign :: ws := by
  have hassign (tail : List Char) :
      cut ('=' :: ' ' :: tail) = (cut (' ' :: tail)).map (.punct .assign :: ·) := cut_token rfl
  have htext : (name ++ " = " ++ text).toList
      = name.toList ++ ' ' :: '=' :: ' ' :: text.toList := by
    simp
  rw [htext, cut_word h, cut_blank rfl, hassign, cut_blank rfl, Option.map_map]
  · rfl
  · rintro c hc
    cases hc
    decide +kernel

end Tokens

end ReactiveFrames.Script
