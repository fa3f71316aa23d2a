import ReactiveFrames.Proofs.Script.Answers

/-!
# What readers of scripts take in

A reader looks one token ahead, and what it takes in leaves as many braces open as it found. So it
answers in the same way wherever the tokens that it took in stand, on whatever lines and whatever
follows them, as long as the token after them is the same one. The end of a script counts as a
closing brace here, which is what makes a function body and a program the same thing.

## Main definitions

* `Nests`: how many braces tokens leave open.
* `Parser.Local`: the answer of a reader depends on the tokens that it takes in and on the next one.
* `Parser.Balanced`, `Parser.Closing`: local readers, by what they do to braces.

## Main statements

* `Parser.readersLocal`: the readers of expressions and statements are local, those of blocks and
  object literals close one brace, and all others close the braces that they open.
-/

namespace ReactiveFrames.Script

/-! ## Braces -/

/-- Braces that are open after a token, if `n` were open before it. A brace that is not open cannot
be closed. -/
def Token.braces? : Token → Nat → Option Nat
  | .punct .openBrace, n => some (n + 1)
  | .punct .closeBrace, n + 1 => some n
  | .punct .closeBrace, 0 => none
  | _, n => some n

/-- Whether a token is a brace. -/
def Token.isBrace : Token → Bool
  | .punct .openBrace => true
  | .punct .closeBrace => true
  | _ => false

/-- Braces that are open after tokens, if `n` were open before them. -/
def openBraces? : Nat → List Token → Option Nat
  | n, [] => some n
  | n, t :: ts => (t.braces? n).bind fun n ↦ openBraces? n ts

/-- At whatever depth the tokens start, `i` of the braces around them are closed or left and `j`
braces are open in their place. -/
def Nests (i j : Nat) (ts : List Token) : Prop := ∀ n, openBraces? (n + i) ts = some (n + j)

theorem openBraces?_append (n : Nat) (ts us : List Token) :
    openBraces? n (ts ++ us) = (openBraces? n ts).bind fun n ↦ openBraces? n us := by
  induction ts generalizing n with
  | nil => rfl
  | cons t ts ih => simp [openBraces?, ih, Option.bind_assoc]

/-- A token that something is made of, unlike a brace. -/
theorem Token.isBrace_of_eq_some {α : Type} {f : Token → Option α}
    (hopen : f (.punct .openBrace) = none) (hclose : f (.punct .closeBrace) = none) {t : Token}
    {a : α} (h : f t = some a) : t.isBrace = false := by
  unfold Token.isBrace
  split
  · rw [hopen] at h
    cases h
  · rw [hclose] at h
    cases h
  · rfl

/-- A punctuator that something is made of, unlike a brace. -/
theorem Punct.isBrace_of_eq_some {α : Type} {f : Punct → Option α} (hopen : f .openBrace = none)
    (hclose : f .closeBrace = none) {p : Punct} {a : α} (h : f p = some a) :
    (Token.punct p).isBrace = false := by
  cases p with
  | openBrace =>
    rw [hopen] at h
    cases h
  | closeBrace =>
    rw [hclose] at h
    cases h
  | _ => rfl

namespace Nests

variable {i j k : Nat} {ts us : List Token}

theorem nil : Nests i i [] := fun _ ↦ rfl

theorem append (h : Nests i j ts) (h' : Nests j k us) : Nests i k (ts ++ us) := by
  intro n
  rw [openBraces?_append, h n, Option.bind_some, h' n]

theorem openBrace : Nests i (i + 1) [.punct .openBrace] := fun _ ↦ rfl

theorem closeBrace : Nests (i + 1) i [.punct .closeBrace] := fun _ ↦ rfl

/-- A token that is no brace. -/
theorem plain {t : Token} (ht : t.isBrace = false) : Nests i i [t] := by
  intro n
  have hopen : t ≠ .punct .openBrace := ne_of_apply_ne Token.isBrace (by rw [ht]; decide)
  have hclose : t ≠ .punct .closeBrace := ne_of_apply_ne Token.isBrace (by rw [ht]; decide)
  simp only [openBraces?, Token.braces?]
  split
  · exact absurd rfl hopen
  · exact absurd rfl hclose
  · exact absurd rfl hclose
  · rfl

end Nests

/-- The word that a token is. -/
def Token.word? : Token → Option String
  | .word name => some name
  | _ => none

/-- The property that a token names in an object literal. -/
def Token.propertyName? : Token → Option String
  | .word name => some name
  | .string name => some name
  | .number x => some (Decimal.ofScript x)
  | .punct _ => none

namespace Parser

variable {α β : Type}

/-! ## Locality -/

/-- Where the reader answers, it takes tokens off the front that nest as given, and it answers in
the same way wherever these tokens stand and the same token comes next. -/
def Local (i j : Nat) (r : List LocatedToken → Option (α × List LocatedToken))
    (ts : List LocatedToken) : Prop :=
  ∀ a rest, r ts = some (a, rest) → ∃ front, ts = front ++ rest ∧ Nests i j (words front) ∧
    ∀ us tail, words us = words front → lookahead tail = lookahead rest →
      r (us ++ tail) = some (a, tail)

namespace Local

variable {i j k : Nat} {ts : List LocatedToken}
  {r s : List LocatedToken → Option (α × List LocatedToken)}

theorem done (a : α) : Local i i (fun us ↦ some (a, us)) ts := by
  intro b rest h
  cases h
  refine ⟨[], rfl, .nil, fun us tail hus _ ↦ ?_⟩
  rw [List.map_eq_nil_iff.1 hus, List.nil_append]

theorem of_eq_none (h : r ts = none) : Local i j r ts := by
  intro a rest hr
  rw [h] at hr
  cases hr

/-- The reader looks at the next token first. -/
theorem congr (h : Local i j s ts) (heq : ∀ us, lookahead us = lookahead ts → r us = s us) :
    Local i j r ts := by
  intro a rest hr
  rw [heq ts rfl] at hr
  obtain ⟨front, rfl, hnests, hagain⟩ := h a rest hr
  refine ⟨front, rfl, hnests, fun us tail hus htail ↦ ?_⟩
  rw [heq _ (lookahead_append hus htail), hagain us tail hus htail]

/-- The reader passes the next token. -/
theorem token {t : LocatedToken} (h : Local j k s ts) (ht : Nests i j [t.token])
    (heq : ∀ line us, lookahead us = lookahead ts → r (⟨t.token, line⟩ :: us) = s us) :
    Local i k r (t :: ts) := by
  intro a rest hr
  rw [heq t.line ts rfl] at hr
  obtain ⟨front, rfl, hnests, hagain⟩ := h a rest hr
  refine ⟨t :: front, rfl, ht.append hnests, fun us tail hus htail ↦ ?_⟩
  cases us with
  | nil => cases hus
  | cons u us =>
    obtain ⟨token, line⟩ := u
    obtain ⟨rfl, htaken⟩ := List.cons.inj hus
    rw [List.cons_append, heq _ _ (lookahead_append htaken htail)]
    exact hagain us tail htaken htail

/-- The reader looks at the next two tokens first. -/
theorem congr_tail (h : Local i j s ts)
    (hlt : ∀ a rest, s ts = some (a, rest) → rest.length < ts.length)
    (heq : ∀ us, lookahead us = lookahead ts → lookahead us.tail = lookahead ts.tail →
      r us = s us) : Local i j r ts := by
  intro a rest hr
  rw [heq ts rfl rfl] at hr
  obtain ⟨front, rfl, hnests, hagain⟩ := h a rest hr
  refine ⟨front, rfl, hnests, fun us tail hus htail ↦ ?_⟩
  have hnonempty := hlt a rest hr
  cases front with
  | nil => exact absurd hnonempty (Nat.lt_irrefl _)
  | cons t front =>
    cases us with
    | nil => cases hus
    | cons u us =>
      have htaken : words us = words front := (List.cons.inj hus).2
      rw [heq _ (lookahead_append hus htail) (lookahead_append htaken htail)]
      exact hagain _ tail hus htail

/-- One reader after another one. -/
theorem bind {s : α → List LocatedToken → Option (β × List LocatedToken)} (h : Local i j r ts)
    (hs : ∀ a rest, r ts = some (a, rest) → Local j k (s a) rest) :
    Local i k (fun us ↦ (r us).bind fun p ↦ s p.1 p.2) ts := by
  intro b rest hr
  obtain ⟨⟨a, middle⟩, ha, hb⟩ := Option.bind_eq_some_iff.1 hr
  obtain ⟨front, rfl, hfront, hagain⟩ := h a middle ha
  obtain ⟨back, rfl, hback, hagain'⟩ := hs a middle ha b rest hb
  refine ⟨front ++ back, by simp, ?_, fun us tail hus htail ↦ ?_⟩
  · rw [words, List.map_append]
    exact hfront.append hback
  · obtain ⟨us, vs, rfl, hus, hvs⟩ := exists_append_of_words hus
    have hfirst := hagain us (vs ++ tail) hus (lookahead_append hvs htail)
    simp only [List.append_assoc, hfirst, Option.bind_some]
    exact hagain' vs tail hvs htail

theorem ite (c : Bool) (h : c = true → Local i j r ts) (h' : c = false → Local i j s ts) :
    Local i j (fun us ↦ if c then r us else s us) ts := by
  cases c
  · exact h' rfl
  · exact h rfl

/-- The next token is one that the reader passes. -/
theorem passing {t : Token} (hnext : lookahead ts = t) (hne : t ≠ .punct .closeBrace)
    (ht : Nests i j [t])
    (h : ∀ rest : List LocatedToken, rest.length < ts.length → Local j k s rest)
    (heq : ∀ line us, r (⟨t, line⟩ :: us) = s us) : Local i k r ts := by
  cases ts with
  | nil => exact absurd hnext.symm hne
  | cons u rest =>
    subst hnext
    exact .token (h rest (by simp)) ht fun line us _ ↦ heq line us

theorem passing_plain {t : Token} (hnext : lookahead ts = t) (ht : t.isBrace = false)
    (h : ∀ rest : List LocatedToken, rest.length < ts.length → Local i k s rest)
    (heq : ∀ line us, r (⟨t, line⟩ :: us) = s us) : Local i k r ts :=
  .passing hnext (ne_of_apply_ne Token.isBrace (by rw [ht]; decide)) (.plain ht) h heq

end Local

/-- The reader is local, and the braces that it takes in are balanced. -/
def Balanced {b : List LocatedToken → Nat}
    (r : (ts : List LocatedToken) → Except Stops (Reads (b ts) α)) (ts : List LocatedToken) :
    Prop :=
  ∀ i, Local i i (fun us ↦ answer (r us)) ts

/-- The reader is local, and closes a brace that was open before. -/
def Closing {b : List LocatedToken → Nat}
    (r : (ts : List LocatedToken) → Except Stops (Reads (b ts) α)) (ts : List LocatedToken) :
    Prop :=
  ∀ i, Local (i + 1) i (fun us ↦ answer (r us)) ts

/-! ## Single tokens -/

section Tokens

variable {i j : Nat} (ts : List LocatedToken)

theorem local_punct (p : Punct) (hp : Nests i j [.punct p]) :
    Local i j (fun us ↦ answer (punct p us)) ts := by
  by_cases h : lookahead ts = .punct p ∧ ts ≠ []
  · obtain ⟨hnext, hne⟩ := h
    cases ts with
    | nil => exact absurd rfl hne
    | cons t ts =>
      refine .token (.done ()) (t := t) (by rw [show t.token = .punct p from hnext]; exact hp) ?_
      intro line us _
      rw [show t.token = .punct p from hnext]
      simp [punct, answer, Except.toOption]
  · refine .of_eq_none ?_
    unfold punct
    split
    · rename_i q line rest
      rw [if_neg]
      · rfl
      · rintro rfl
        exact h ⟨rfl, by simp⟩
    · rfl

theorem local_punct? (p : Punct) (hp : (Token.punct p).isBrace = false) :
    Local i i (fun us ↦ answer (.ok (punct? p us))) ts := by
  by_cases hnext : lookahead ts = .punct p
  · refine .passing_plain hnext hp (fun _ _ ↦ .done true) fun line us ↦ ?_
    simp [punct?, answer, Except.toOption]
  · exact .congr (.done false) fun us hus ↦ punct?_of_ne (by rwa [hus])

/-- A required punctuator that is no brace. -/
theorem local_mark (p : Punct) (hp : (Token.punct p).isBrace = false) :
    Local i i (fun us ↦ answer (punct p us)) ts :=
  local_punct ts p (.plain hp)

theorem local_targetOf {s : Target → List LocatedToken → Option (α × List LocatedToken)} (e : Expr)
    (h : ∀ target, Local i j (s target) ts) :
    Local i j (fun us ↦ (targetOf e us).toOption.bind fun target ↦ s target us) ts := by
  unfold targetOf
  split
  · exact h _
  · exact h _
  · exact h _
  · exact .of_eq_none rfl

/-- A reader of one token that is no brace. -/
theorem local_single {r : List LocatedToken → Option (α × List LocatedToken)} (f : Token → Option α)
    (hopen : f (.punct .openBrace) = none) (hclose : f (.punct .closeBrace) = none)
    (hnil : r [] = none) (hcons : ∀ t us, r (t :: us) = (f t.token).map (·, us)) :
    Local i i r ts := by
  cases ts with
  | nil => exact .of_eq_none hnil
  | cons t us =>
    cases ha : f t.token with
    | none => exact .of_eq_none (by rw [hcons, ha]; rfl)
    | some a =>
      have hbrace : t.token.isBrace = false := Token.isBrace_of_eq_some hopen hclose ha
      exact .token (.done a) (.plain hbrace) fun line us _ ↦ by rw [hcons, ha]; rfl

theorem atPunct_iff {p : Punct} (hclose : p ≠ .closeBrace) (ts : List LocatedToken) :
    atPunct p ts = true ↔ lookahead ts = .punct p := by
  unfold atPunct
  split
  · simp [lookahead]
  · rename_i hpunct
    cases ts with
    | nil => simpa [lookahead] using hclose.symm
    | cons t ts => simpa using fun h ↦ hpunct p t.line ts (by rw [← show t.token = .punct p from h])

/-- The reader stops at a closing brace, and otherwise goes on as another one that fails at the end
of the script. -/
theorem Local.closing {ts : List LocatedToken}
    {r s : List LocatedToken → Option (α × List LocatedToken)} (a : α)
    (h : lookahead ts ≠ .punct .closeBrace → Local (i + 1) i s ts) (hnil : r [] = none)
    (hclose : ∀ line us, r (⟨.punct .closeBrace, line⟩ :: us) = some (a, us))
    (heq : ∀ us, lookahead us ≠ .punct .closeBrace → r us = s us) : Local (i + 1) i r ts := by
  by_cases hnext : lookahead ts = .punct .closeBrace
  · cases ts with
    | nil => exact .of_eq_none hnil
    | cons t rest =>
      obtain ⟨token, line⟩ := t
      cases hnext
      exact .token (.done a) .closeBrace fun line us _ ↦ hclose line us
  · exact (h hnext).congr fun us hus ↦ heq us (by rwa [hus])

/-- The choice of a reader that may stop at a closing brace. -/
theorem local_atCloseBrace {ts : List LocatedToken}
    {s : List LocatedToken → Option (α × List LocatedToken)} (a : α)
    (h : lookahead ts ≠ .punct .closeBrace → Local (i + 1) i s ts) (hnil : s [] = none) :
    Local (i + 1) i (fun us ↦ if atPunct .closeBrace us then
      (answer (punct .closeBrace us)).bind fun p ↦ some (a, p.2) else s us) ts := by
  refine .closing a h hnil (fun line us ↦ ?_) fun us hus ↦ ?_
  · simp [atPunct, punct, answer, Except.toOption]
  · rw [if_neg]
    unfold atPunct
    split
    · rw [beq_iff_eq]
      rintro rfl
      exact hus rfl
    · simp

theorem endsReturn_iff (ts : List LocatedToken) :
    (ts.isEmpty || atPunct .semicolon ts || atPunct .closeBrace ts) = true ↔
      lookahead ts = .punct .semicolon ∨ lookahead ts = .punct .closeBrace := by
  cases ts with
  | nil => simp [lookahead]
  | cons t ts =>
    obtain ⟨token, line⟩ := t
    cases token <;> simp [atPunct, lookahead]

/-- A choice that the next token makes. -/
theorem local_atPunct {r s : List LocatedToken → Option (α × List LocatedToken)} (p : Punct)
    (hclose : p ≠ .closeBrace) (h : atPunct p ts = true → Local i j r ts)
    (h' : atPunct p ts = false → Local i j s ts) :
    Local i j (fun us ↦ if atPunct p us then r us else s us) ts := by
  refine .congr (.ite (atPunct p ts) h h') fun us hus ↦ ?_
  have hsame : atPunct p us = atPunct p ts := by
    rw [Bool.eq_iff_iff, atPunct_iff hclose, atPunct_iff hclose, hus]
  rw [hsame]

theorem local_word : Local i i (fun us ↦ answer (word us)) ts := by
  refine local_single ts Token.word? rfl rfl rfl ?_
  rintro ⟨token, line⟩ us
  cases token <;> rfl

theorem local_propertyName : Local i i (fun us ↦ answer (propertyName us)) ts := by
  refine local_single ts Token.propertyName? rfl rfl rfl ?_
  rintro ⟨token, line⟩ us
  cases token <;> rfl

theorem local_word? : Local i i (fun us ↦ answer (.ok (word? us))) ts := by
  by_cases hnext : ∃ name, lookahead ts = .word name
  · obtain ⟨name, hnext⟩ := hnext
    exact .passing_plain hnext rfl (fun _ _ ↦ .done (some name)) fun _ _ ↦ rfl
  · refine .congr (.done none) fun us hus ↦ ?_
    unfold word?
    split
    · exact absurd ⟨_, hus.symm⟩ hnext
    · rfl

theorem local_keyword? (keywords : List String) :
    Local i i (fun us ↦ answer (.ok (keyword? keywords us))) ts := by
  by_cases hnext : ∃ name ∈ keywords, lookahead ts = .word name
  · obtain ⟨name, hname, hnext⟩ := hnext
    refine .passing_plain hnext rfl (fun _ _ ↦ .done true) fun line us ↦ ?_
    simp [keyword?, hname, answer, Except.toOption]
  · refine .congr (.done false) fun us hus ↦ ?_
    unfold keyword?
    split
    · rename_i name line rest
      rw [if_neg fun hname ↦ hnext ⟨name, hname, hus.symm⟩]
      rfl
    · rfl

end Tokens


/-! ## Parameters -/

theorem balanced_moreParameters (ts : List LocatedToken) : Balanced moreParameters ts := by
  induction hn : ts.length using Nat.strongRecOn generalizing ts with
  | ind n ih =>
    intro i
    by_cases hnext : lookahead ts = .punct .closeParen
    · exact .passing_plain hnext rfl (fun _ _ ↦ .done [])
        moreParameters_closeParen
    · refine .congr (.bind (local_mark ts .comma rfl) fun _ rest h ↦
        .bind (local_word rest) fun name rest' h' ↦
          .bind (ih _ ?_ rest' rfl i) fun more _ _ ↦ .done (name :: more))
        fun us hus ↦ answer_moreParameters (by rwa [hus])
      have := length_lt_of_answer h
      have := length_lt_of_answer h'
      omega

theorem balanced_parameters (ts : List LocatedToken) : Balanced parameters ts := by
  intro i
  by_cases hnext : lookahead ts = .punct .closeParen
  · exact .passing_plain hnext rfl (fun _ _ ↦ .done []) fun _ _ ↦ rfl
  · exact .congr (.bind (local_word ts) fun name rest _ ↦
      .bind (balanced_moreParameters rest i) fun more _ _ ↦ .done (name :: more))
      fun us hus ↦ answer_parameters (by rwa [hus])

/-! ## Expressions -/

/-- The readers that are called on fewer tokens than their callers. -/
structure ReadersLocal (ts : List LocatedToken) : Prop where
  assignment : Balanced assignment ts
  arrayItems : Balanced arrayItems ts
  objectEntries : Closing objectEntries ts
  arguments : Balanced arguments ts
  moreArguments : Balanced moreArguments ts
  postfixRest (left : Expr) : Balanced (postfixRest left) ts
  unary : Balanced unary ts
  binary (least : Nat) : Balanced (binary least) ts
  binaryRest (least : Nat) (left : Expr) : Balanced (binaryRest least left) ts
  conjunction : Balanced conjunction ts
  conjunctionRest (left : Expr) : Balanced (conjunctionRest left) ts
  disjunctionRest (left : Expr) : Balanced (disjunctionRest left) ts
  assignmentRest (left : Expr) : Balanced (assignmentRest left) ts
  functionRest : Balanced functionRest ts
  blockBody : Closing blockBody ts
  declarations : Balanced declarations ts
  initializer : Balanced initializer ts
  optional (p : Punct) (hp : p ≠ .closeBrace) : Balanced (optional p) ts
  loopInit : Balanced loopInit ts
  alternative : Balanced alternative ts
  keywordStatement (keyword : String) : Balanced (keywordStatement keyword) ts
  statement : Balanced statement ts

section Step

variable {ts : List LocatedToken}
  (ih : ∀ us : List LocatedToken, us.length < ts.length → ReadersLocal us)
include ih

theorem balanced_conjunctionRest (left : Expr) : Balanced (conjunctionRest left) ts := by
  intro i
  by_cases hnext : lookahead ts = .punct .and
  · refine .passing_plain hnext rfl (fun rest hlt ↦
      .bind ((ih rest hlt).binary 0 i) fun right rest' h ↦
        (ih rest' ?_).conjunctionRest (.logical .and left right) i) fun line us ↦ ?_
    · exact Nat.lt_trans (length_lt_of_answer h) hlt
    · rw [conjunctionRest]
      exact answer_bind fun _ _ _ ↦ answer_bind_pure fun _ _ _ ↦ rfl
  · exact .congr (.done left) fun us hus ↦ conjunctionRest_stop (by rwa [hus]) left

theorem balanced_disjunctionRest (left : Expr) : Balanced (disjunctionRest left) ts := by
  intro i
  by_cases hnext : lookahead ts = .punct .or
  · refine .passing_plain hnext rfl (fun rest hlt ↦
      .bind ((ih rest hlt).conjunction i) fun right rest' h ↦
        (ih rest' ?_).disjunctionRest (.logical .or left right) i) fun line us ↦ ?_
    · exact Nat.lt_trans (length_lt_of_answer h) hlt
    · rw [disjunctionRest]
      exact answer_bind fun _ _ _ ↦ answer_bind_pure fun _ _ _ ↦ rfl
  · exact .congr (.done left) fun us hus ↦ disjunctionRest_stop (by rwa [hus]) left

theorem balanced_postfixRest (left : Expr) : Balanced (postfixRest left) ts := by
  intro i
  by_cases hdot : lookahead ts = .punct .dot
  · refine .passing_plain hdot rfl (fun rest hlt ↦
      .bind (local_word rest) fun property rest' h ↦
        (ih rest' ?_).postfixRest (.member left property) i) fun line us ↦ ?_
    · exact Nat.lt_trans (length_lt_of_answer h) hlt
    · rw [postfixRest]
      exact answer_bind fun _ _ _ ↦ answer_bind_pure fun _ _ _ ↦ rfl
  by_cases hbracket : lookahead ts = .punct .openBracket
  · refine .passing_plain hbracket rfl (fun rest hlt ↦
      .bind ((ih rest hlt).assignment i) fun index rest' h ↦
        .bind (local_mark rest' .closeBracket rfl) fun _ rest'' h' ↦
          (ih rest'' ?_).postfixRest (.index left index) i) fun line us ↦ ?_
    · exact Nat.lt_trans (length_lt_of_answer h') (Nat.lt_trans (length_lt_of_answer h) hlt)
    · rw [postfixRest]
      exact answer_bind fun _ _ _ ↦ answer_bind fun _ _ _ ↦ answer_bind_pure fun _ _ _ ↦ rfl
  by_cases hparen : lookahead ts = .punct .openParen
  · refine .passing_plain hparen rfl (fun rest hlt ↦
      .bind ((ih rest hlt).arguments i) fun es rest' h ↦
        (ih rest' ?_).postfixRest (.call left es) i) fun line us ↦ ?_
    · exact Nat.lt_trans (length_lt_of_answer h) hlt
    · rw [postfixRest]
      exact answer_bind fun _ _ _ ↦ answer_bind_pure fun _ _ _ ↦ rfl
  by_cases hincrement : lookahead ts = .punct .increment
  · refine .passing_plain hincrement rfl (fun rest hlt ↦
      local_targetOf rest left fun target ↦
        (ih rest hlt).postfixRest (.update true false target) i) fun line us ↦ ?_
    rw [postfixRest]
    exact answer_check.trans (congrArg _ (funext fun _ ↦ answer_bind_pure fun _ _ _ ↦ rfl))
  by_cases hdecrement : lookahead ts = .punct .decrement
  · refine .passing_plain hdecrement rfl (fun rest hlt ↦
      local_targetOf rest left fun target ↦
        (ih rest hlt).postfixRest (.update false false target) i) fun line us ↦ ?_
    rw [postfixRest]
    exact answer_check.trans (congrArg _ (funext fun _ ↦ answer_bind_pure fun _ _ _ ↦ rfl))
  refine .congr (.done left) fun us hus ↦ postfixRest_stop ?_ left
  simp [postfixes, hus, hdot, hbracket, hparen, hincrement, hdecrement]

theorem balanced_primary : Balanced primary ts := by
  intro i
  cases ts with
  | nil => exact .of_eq_none (by rw [primary]; rfl)
  | cons t rest =>
    obtain ⟨token, line⟩ := t
    have hlt : rest.length < (⟨token, line⟩ :: rest : List LocatedToken).length := by simp
    cases token with
    | number x =>
      exact .token (.done (.number x)) (.plain rfl) fun _ _ _ ↦ by
        rw [primary]
        rfl
    | string s =>
      exact .token (.done (.string s)) (.plain rfl) fun _ _ _ ↦ by
        rw [primary]
        rfl
    | word name =>
      by_cases hname : name = "function"
      · subst hname
        refine .token (.bind ((ih rest hlt).functionRest i) fun f _ _ ↦ .done (Expr.function f))
          (.plain rfl) fun _ us _ ↦ ?_
        rw [primary]
        exact answer_bind fun _ _ _ ↦ rfl
      · refine .token (.done (wordExpr name)) (.plain rfl) fun _ us _ ↦ ?_
        rw [primary]
        · rfl
        · exact hname
    | punct p =>
      by_cases hparen : p = .openParen
      · subst hparen
        refine .token (.bind ((ih rest hlt).assignment i) fun e rest' _ ↦
          .bind (local_mark rest' .closeParen rfl) fun _ _ _ ↦ .done e)
          (.plain rfl) fun _ us _ ↦ ?_
        rw [primary]
        exact answer_bind fun _ _ _ ↦ answer_bind fun _ _ _ ↦ rfl
      by_cases hbracket : p = .openBracket
      · subst hbracket
        refine .token (.bind ((ih rest hlt).arrayItems i) fun items _ _ ↦ .done (Expr.array items))
          (.plain rfl) fun _ us _ ↦ ?_
        rw [primary]
        exact answer_bind fun _ _ _ ↦ rfl
      by_cases hbrace : p = .openBrace
      · subst hbrace
        refine .token (.bind ((ih rest hlt).objectEntries i) fun entries _ _ ↦
          .done (Expr.object entries)) .openBrace fun _ us _ ↦ ?_
        rw [primary]
        exact answer_bind fun _ _ _ ↦ rfl
      refine .of_eq_none ?_
      rw [primary]
      · rfl
      · exact hparen
      · exact hbracket
      · exact hbrace

theorem balanced_postfixExpr : Balanced postfixExpr ts := fun i ↦
  .congr (.bind (balanced_primary ih i) fun e rest h ↦
    (ih rest (length_lt_of_answer h)).postfixRest e i) fun us _ ↦ answer_postfixExpr us

theorem balanced_unary : Balanced unary ts := by
  intro i
  cases hop : unaryOp? (lookahead ts) with
  | some op =>
    refine .passing_plain rfl (Token.isBrace_of_eq_some rfl rfl hop) (fun rest hlt ↦
      .bind ((ih rest hlt).unary i) fun e _ _ ↦ .done (Expr.unary op e)) fun _ us ↦ ?_
    simp only [unary, hop]
    exact answer_bind fun _ _ _ ↦ rfl
  | none =>
    cases hupdate : updateOp? (lookahead ts) with
    | some increment =>
      refine .passing_plain rfl (Token.isBrace_of_eq_some rfl rfl hupdate)
        (fun rest hlt ↦ .bind ((ih rest hlt).unary i) fun e rest' _ ↦
          local_targetOf rest' e fun target ↦ .done (Expr.update increment true target))
        fun _ us ↦ ?_
      simp only [unary, hop, hupdate]
      exact answer_bind fun _ _ _ ↦ answer_check
    | none =>
      exact .congr (balanced_postfixExpr ih i) fun us hus ↦
        unary_eq_postfixExpr (hus ▸ hop) (hus ▸ hupdate)

theorem balanced_binary (least : Nat) : Balanced (binary least) ts := fun i ↦
  .congr (.bind (balanced_unary ih i) fun left rest h ↦
    (ih rest (length_lt_of_answer h)).binaryRest least left i) fun us _ ↦ answer_binary least us

theorem balanced_binaryRest (least : Nat) (left : Expr) : Balanced (binaryRest least left) ts := by
  intro i
  by_cases hnext : ∃ p op, lookahead ts = .punct p ∧ binaryOp? p = some op ∧ least ≤ op.precedence
  · obtain ⟨p, op, hnext, hop, hleast⟩ := hnext
    refine .passing_plain hnext (Punct.isBrace_of_eq_some rfl rfl hop) (fun rest hlt ↦
      .bind ((ih rest hlt).binary (op.precedence + 1) i) fun right rest' h ↦
        (ih rest' (Nat.lt_trans (length_lt_of_answer h) hlt)).binaryRest least
          (.binary op left right) i) fun line us ↦ ?_
    simp only [binaryRest, hop, if_neg (Nat.not_lt.2 hleast)]
    exact answer_bind fun _ _ _ ↦ answer_bind_pure fun _ _ _ ↦ rfl
  · refine .congr (.done left) fun us hus ↦ binaryRest_stop (fun p op hp hop ↦ ?_) left
    exact Nat.lt_of_not_le fun hleast ↦ hnext ⟨p, op, hus ▸ hp, hop, hleast⟩

theorem balanced_conjunction : Balanced conjunction ts := fun i ↦
  .congr (.bind (balanced_binary ih 0 i) fun left rest h ↦
    (ih rest (length_lt_of_answer h)).conjunctionRest left i) fun us _ ↦ answer_conjunction us

theorem balanced_disjunction : Balanced disjunction ts := fun i ↦
  .congr (.bind (balanced_conjunction ih i) fun left rest h ↦
    (ih rest (length_lt_of_answer h)).disjunctionRest left i) fun us _ ↦ answer_disjunction us

theorem balanced_conditional : Balanced conditional ts := by
  intro i
  refine .congr (.bind (balanced_disjunction ih i) fun test rest h ↦
    .bind (local_punct? rest .question rfl) fun question rest' h' ↦
      .ite question (fun _ ↦ .bind ((ih rest' ?_).assignment i) fun consequent rest'' h'' ↦
        .bind (local_mark rest'' .colon rfl) fun _ rest''' h''' ↦
          .bind ((ih rest''' ?_).assignment i) fun alternate _ _ ↦
            .done (Expr.conditional test consequent alternate)) fun _ ↦ .done test)
    fun us _ ↦ answer_conditional us
  · have := length_lt_of_answer h
    have := length_le_of_answer h'
    omega
  · have := length_lt_of_answer h
    have := length_le_of_answer h'
    have := length_lt_of_answer h''
    have := length_lt_of_answer h'''
    omega

theorem balanced_assignment : Balanced assignment ts := fun i ↦
  .congr (.bind (balanced_conditional ih i) fun e rest h ↦
    (ih rest (length_lt_of_answer h)).assignmentRest e i) fun us _ ↦ answer_assignment us

theorem balanced_assignmentRest (left : Expr) : Balanced (assignmentRest left) ts := by
  intro i
  by_cases hnext : ∃ p op, lookahead ts = .punct p ∧ assignOp? p = some op
  · obtain ⟨p, op, hnext, hop⟩ := hnext
    refine .passing_plain hnext (Punct.isBrace_of_eq_some rfl rfl hop) (fun rest hlt ↦
      local_targetOf rest left fun target ↦
        .bind ((ih rest hlt).assignment i) fun value _ _ ↦ .done (Expr.assign op target value))
      fun line us ↦ ?_
    simp only [assignmentRest, hop]
    exact answer_check.trans (congrArg _ (funext fun _ ↦ answer_bind fun _ _ _ ↦ rfl))
  · refine .congr (.done left) fun us hus ↦ assignmentRest_stop (fun p hp ↦ ?_) left
    rw [Option.eq_none_iff_forall_ne_some]
    exact fun op hop ↦ hnext ⟨p, op, hus ▸ hp, hop⟩

theorem balanced_arrayItems : Balanced arrayItems ts := by
  intro i
  by_cases hnext : lookahead ts = .punct .closeBracket
  · refine .passing_plain hnext rfl (fun _ _ ↦ .done []) fun line us ↦ ?_
    rw [arrayItems]
    rfl
  · refine .congr (.bind (balanced_assignment ih i) fun item rest h ↦
      local_atPunct rest .closeBracket (by decide)
      (fun _ ↦ .bind (local_mark rest .closeBracket rfl) fun _ _ _ ↦ .done [item])
      fun _ ↦ .bind (local_mark rest .comma rfl) fun _ rest' h' ↦
        .bind ((ih rest' ?_).arrayItems i) fun more _ _ ↦ .done (item :: more)) fun us hus ↦ ?_
    · exact Nat.lt_trans (length_lt_of_answer h') (length_lt_of_answer h)
    · rw [arrayItems.eq_def]
      split
      · exact absurd hus.symm hnext
      · refine answer_bind fun item rest _ ↦ ?_
        dsimp only
        split
        · exact answer_bind fun _ _ _ ↦ rfl
        · exact answer_bind fun _ _ _ ↦ answer_bind fun _ _ _ ↦ rfl

theorem closing_objectEntries : Closing objectEntries ts := by
  intro i
  refine .closing [] (fun _ ↦ .bind (local_propertyName ts) fun name rest h ↦
    .bind (local_mark rest .colon rfl) fun _ rest' h' ↦
      .bind ((ih rest' ?_).assignment (i + 1)) fun value rest'' h'' ↦
        local_atCloseBrace [(name, value)] (fun _ ↦
          .bind (local_mark rest'' .comma rfl) fun _ next h₃ ↦
            .bind ((ih next ?_).objectEntries i) fun more _ _ ↦ .done ((name, value) :: more)) rfl)
    ?_ ?_ fun us hus ↦ ?_
  · exact Nat.lt_trans (length_lt_of_answer h') (length_lt_of_answer h)
  · have := length_lt_of_answer h
    have := length_lt_of_answer h'
    have := length_lt_of_answer h''
    have := length_lt_of_answer h₃
    omega
  · rw [objectEntries.eq_def]
    rfl
  · intro line us
    rw [objectEntries]
    rfl
  · rw [objectEntries.eq_def]
    split
    · exact absurd rfl hus
    · refine answer_bind fun name rest _ ↦ answer_bind fun _ rest' _ ↦
        answer_bind fun value rest'' _ ↦ ?_
      dsimp only
      split
      · exact answer_bind fun _ _ _ ↦ rfl
      · exact answer_bind fun _ _ _ ↦ answer_bind fun _ _ _ ↦ rfl

theorem balanced_moreArguments : Balanced moreArguments ts := by
  intro i
  by_cases hnext : lookahead ts = .punct .closeParen
  · refine .passing_plain hnext rfl (fun _ _ ↦ .done []) fun line us ↦ ?_
    rw [moreArguments]
    rfl
  · refine .congr (.bind (local_mark ts .comma rfl) fun _ rest h ↦
      .bind ((ih rest (length_lt_of_answer h)).assignment i) fun e rest' h' ↦
        .bind ((ih rest' ?_).moreArguments i) fun more _ _ ↦ .done (e :: more)) fun us hus ↦ ?_
    · exact Nat.lt_trans (length_lt_of_answer h') (length_lt_of_answer h)
    · rw [moreArguments.eq_def]
      split
      · exact absurd hus.symm hnext
      · exact answer_bind fun _ _ _ ↦ answer_bind fun _ _ _ ↦ answer_bind fun _ _ _ ↦ rfl

theorem balanced_arguments : Balanced arguments ts := by
  intro i
  by_cases hnext : lookahead ts = .punct .closeParen
  · refine .passing_plain hnext rfl (fun _ _ ↦ .done []) fun line us ↦ ?_
    rw [arguments]
    rfl
  · refine .congr (.bind (balanced_assignment ih i) fun e rest h ↦
      .bind ((ih rest (length_lt_of_answer h)).moreArguments i) fun more _ _ ↦ .done (e :: more))
      fun us hus ↦ ?_
    rw [arguments.eq_def]
    split
    · exact absurd hus.symm hnext
    · exact answer_bind fun _ _ _ ↦ answer_bind fun _ _ _ ↦ rfl

/-! ## Statements -/

theorem balanced_functionRest : Balanced functionRest ts := by
  intro i
  refine .congr (.bind (local_word? ts) fun name rest h ↦
    .bind (local_mark rest .openParen rfl) fun _ rest' h' ↦
      .bind (balanced_parameters rest' i) fun names rest'' h'' ↦
        .bind (local_punct rest'' .openBrace .openBrace) fun _ rest''' h''' ↦
          .bind ((ih rest''' ?_).blockBody i) fun body _ _ ↦
            .done (FunctionDecl.mk name names body)) fun us _ ↦ answer_functionRest us
  have := length_le_of_answer h
  have := length_lt_of_answer h'
  have := length_lt_of_answer h''
  have := length_lt_of_answer h'''
  omega

theorem balanced_initializer : Balanced initializer ts := by
  intro i
  by_cases hnext : lookahead ts = .punct .assign
  · refine .passing_plain hnext rfl (fun rest hlt ↦
      .bind ((ih rest hlt).assignment i) fun e _ _ ↦ .done (some e)) fun line us ↦ ?_
    rw [initializer]
    exact answer_bind fun _ _ _ ↦ rfl
  · refine .congr (.done none) fun us hus ↦ ?_
    unfold initializer
    split
    · exact absurd hus.symm hnext
    · rfl

theorem balanced_declarations : Balanced declarations ts := by
  intro i
  refine .congr (.bind (local_word ts) fun name rest h ↦
    .bind ((ih rest (length_lt_of_answer h)).initializer i) fun initial rest' h' ↦
      .bind (local_punct? rest' .comma rfl) fun comma rest'' h'' ↦
        .ite comma (fun _ ↦ .bind ((ih rest'' ?_).declarations i) fun more _ _ ↦
          .done ((name, initial) :: more)) fun _ ↦ .done [(name, initial)]) fun us _ ↦ ?_
  · have := length_lt_of_answer h
    have := length_le_of_answer h'
    have := length_le_of_answer h''
    omega
  · rw [declarations]
    refine answer_bind fun name rest _ ↦ answer_bind fun initial rest' _ ↦ ?_
    dsimp only
    obtain ⟨comma, rest'', _⟩ := punct? .comma rest'
    cases comma
    · rfl
    · exact answer_bind fun _ _ _ ↦ rfl

theorem balanced_test : Balanced test ts := by
  intro i
  refine .congr (.bind (local_mark ts .openParen rfl) fun _ rest h ↦
    .bind ((ih rest (length_lt_of_answer h)).assignment i) fun e rest' _ ↦
      .bind (local_mark rest' .closeParen rfl) fun _ _ _ ↦ .done e) fun us _ ↦ ?_
  rw [test]
  exact answer_bind fun _ _ _ ↦ answer_bind fun _ _ _ ↦ answer_bind fun _ _ _ ↦ rfl

theorem balanced_optional {p : Punct} (hp : p ≠ .closeBrace) : Balanced (optional p) ts := by
  intro i
  refine .congr (local_atPunct ts p hp (fun _ ↦ .done none) fun _ ↦
    .bind (balanced_assignment ih i) fun e _ _ ↦ .done (some e)) fun us _ ↦ ?_
  rw [optional]
  split
  · rfl
  · exact answer_bind fun _ _ _ ↦ rfl

theorem balanced_loopInit : Balanced loopInit ts := by
  intro i
  by_cases hnext : lookahead ts = .punct .semicolon
  · refine .passing_plain hnext rfl (fun _ _ ↦ .done none) fun line us ↦ ?_
    rw [loopInit]
    rfl
  · refine .congr (.bind (local_keyword? ts declarators) fun declares rest h ↦ .ite declares
      (fun _ ↦ .bind (balanced_declarations (fun us hus ↦ ih us ?_) i) fun declared rest' _ ↦
        .bind (local_mark rest' .semicolon rfl) fun _ _ _ ↦
          .done (some (Stmt.declare declared)))
      fun _ ↦ .bind (balanced_assignment (fun us hus ↦ ih us ?_) i) fun e rest' _ ↦
        .bind (local_mark rest' .semicolon rfl) fun _ _ _ ↦
          .done (some (Stmt.expression e))) fun us hus ↦ ?_
    · exact Nat.lt_of_lt_of_le hus (length_le_of_answer h)
    · exact Nat.lt_of_lt_of_le hus (length_le_of_answer h)
    · rw [loopInit.eq_def]
      split
      · exact absurd hus.symm hnext
      · obtain ⟨declares, rest, _⟩ := keyword? declarators us
        cases declares
        · exact answer_bind fun _ _ _ ↦ answer_bind fun _ _ _ ↦ rfl
        · exact answer_bind fun _ _ _ ↦ answer_bind fun _ _ _ ↦ rfl

theorem balanced_forRest : Balanced forRest ts := by
  intro i
  refine .congr (.bind (local_mark ts .openParen rfl) fun _ rest h ↦
    .bind ((ih rest ?_).loopInit i) fun init rest' h' ↦
      .bind ((ih rest' ?_).optional .semicolon (by decide) i) fun test rest'' h'' ↦
        .bind (local_mark rest'' .semicolon rfl) fun _ rest₃ h₃ ↦
          .bind ((ih rest₃ ?_).optional .closeParen (by decide) i) fun update rest₄ h₄ ↦
            .bind (local_mark rest₄ .closeParen rfl) fun _ rest₅ h₅ ↦
              .bind ((ih rest₅ ?_).statement i) fun body _ _ ↦
                .done (Stmt.forLoop init test update body)) fun us _ ↦ ?_
  · exact length_lt_of_answer h
  · exact Nat.lt_trans (length_lt_of_answer h') (length_lt_of_answer h)
  · have := length_lt_of_answer h
    have := length_lt_of_answer h'
    have := length_le_of_answer h''
    have := length_lt_of_answer h₃
    omega
  · have := length_lt_of_answer h
    have := length_lt_of_answer h'
    have := length_le_of_answer h''
    have := length_lt_of_answer h₃
    have := length_le_of_answer h₄
    have := length_lt_of_answer h₅
    omega
  · rw [forRest]
    exact answer_bind fun _ _ _ ↦ answer_bind fun _ _ _ ↦ answer_bind fun _ _ _ ↦
      answer_bind fun _ _ _ ↦ answer_bind fun _ _ _ ↦ answer_bind fun _ _ _ ↦
        answer_bind fun _ _ _ ↦ rfl

theorem balanced_alternative : Balanced alternative ts := by
  intro i
  by_cases hnext : lookahead ts = .word "else"
  · refine .passing_plain hnext rfl (fun rest hlt ↦
      .bind ((ih rest hlt).statement i) fun s _ _ ↦ .done (some s)) fun line us ↦ ?_
    rw [alternative]
    exact answer_bind fun _ _ _ ↦ rfl
  · refine .congr (.done none) fun us hus ↦ ?_
    unfold alternative
    split
    · exact absurd hus.symm hnext
    · rfl

theorem balanced_returned : Balanced returned ts := by
  intro i
  by_cases hnext : lookahead ts = .punct .semicolon ∨ lookahead ts = .punct .closeBrace
  · refine .congr (.done none) fun us hus ↦ ?_
    rw [returned, if_pos ((endsReturn_iff us).2 (by rwa [hus]))]
    rfl
  · refine .congr (.bind (balanced_assignment ih i) fun e _ _ ↦ .done (some e)) fun us hus ↦ ?_
    rw [returned, if_neg (mt (endsReturn_iff us).1 (by rwa [hus]))]
    exact answer_bind fun _ _ _ ↦ rfl

theorem balanced_expressionStatement : Balanced expressionStatement ts := fun i ↦
  .congr (.bind (balanced_assignment ih i) fun e rest _ ↦
    .bind (local_punct? rest .semicolon rfl) fun _ _ _ ↦ .done (Stmt.expression e))
    fun us _ ↦ answer_expressionStatement us

theorem balanced_keywordStatement (keyword : String) : Balanced (keywordStatement keyword) ts := by
  intro i
  by_cases hreturn : keyword = "return"
  · subst hreturn
    refine .congr (.bind (balanced_returned ih i) fun value rest _ ↦
      .bind (local_punct? rest .semicolon rfl) fun _ _ _ ↦ .done (Stmt.returnValue value))
      fun us _ ↦ ?_
    rw [keywordStatement]
    exact answer_bind fun _ _ _ ↦ rfl
  by_cases hif : keyword = "if"
  · subst hif
    refine .congr (.bind (balanced_test ih i) fun test rest h ↦
      .bind ((ih rest (length_lt_of_answer h)).statement i) fun consequent rest' h' ↦
        .bind ((ih rest' ?_).alternative i) fun alternate _ _ ↦
          .done (Stmt.branch test consequent alternate)) fun us _ ↦ ?_
    · exact Nat.lt_trans (length_lt_of_answer h') (length_lt_of_answer h)
    · rw [keywordStatement]
      exact answer_bind fun _ _ _ ↦ answer_bind fun _ _ _ ↦ answer_bind fun _ _ _ ↦ rfl
  by_cases hwhile : keyword = "while"
  · subst hwhile
    refine .congr (.bind (balanced_test ih i) fun test rest h ↦
      .bind ((ih rest (length_lt_of_answer h)).statement i) fun body _ _ ↦
        .done (Stmt.whileLoop test body)) fun us _ ↦ ?_
    rw [keywordStatement]
    exact answer_bind fun _ _ _ ↦ answer_bind fun _ _ _ ↦ rfl
  by_cases hfor : keyword = "for"
  · subst hfor
    refine .congr (balanced_forRest ih i) fun us _ ↦ ?_
    rw [keywordStatement]
    exact answer_bind_pure fun _ _ _ ↦ rfl
  by_cases hbreak : keyword = "break"
  · subst hbreak
    refine .congr (.bind (local_punct? ts .semicolon rfl) fun _ _ _ ↦ .done Stmt.breakLoop)
      fun us _ ↦ ?_
    rw [keywordStatement]
    rfl
  by_cases hcontinue : keyword = "continue"
  · subst hcontinue
    refine .congr (.bind (local_punct? ts .semicolon rfl) fun _ _ _ ↦
      .done Stmt.continueLoop) fun us _ ↦ ?_
    rw [keywordStatement]
    rfl
  by_cases hthrow : keyword = "throw"
  · subst hthrow
    refine .congr (.bind (balanced_assignment ih i) fun e rest _ ↦
      .bind (local_punct? rest .semicolon rfl) fun _ _ _ ↦ .done (Stmt.throwValue e))
      fun us _ ↦ ?_
    rw [keywordStatement]
    exact answer_bind fun _ _ _ ↦ rfl
  refine .congr (.bind (balanced_declarations ih i) fun declared rest _ ↦
    .bind (local_punct? rest .semicolon rfl) fun _ _ _ ↦ .done (Stmt.declare declared))
    fun us _ ↦ ?_
  rw [keywordStatement]
  · exact answer_bind fun _ _ _ ↦ rfl
  all_goals assumption

theorem closing_blockBody (hstatement : Balanced statement ts) : Closing blockBody ts := fun i ↦
  .closing [] (fun _ ↦ .bind (hstatement (i + 1)) fun s rest h ↦
    .bind ((ih rest (length_lt_of_answer h)).blockBody i) fun more _ _ ↦ .done (s :: more))
    blockBody_nil blockBody_closeBrace fun _ hus ↦ answer_blockBody hus

theorem balanced_statement : Balanced statement ts := by
  intro i
  by_cases hsemicolon : lookahead ts = .punct .semicolon
  · refine .passing_plain hsemicolon rfl (fun _ _ ↦ .done Stmt.empty)
      fun line us ↦ ?_
    rw [statement]
    rfl
  by_cases hbrace : lookahead ts = .punct .openBrace
  · refine .passing hbrace (by simp) .openBrace (fun rest hlt ↦
      .bind ((ih rest hlt).blockBody i) fun body _ _ ↦ .done (Stmt.block body)) fun line us ↦ ?_
    rw [statement]
    exact answer_bind fun _ _ _ ↦ rfl
  by_cases hfunction : lookahead ts = .word "function" ∧ ∃ name, lookahead ts.tail = .word name
  · obtain ⟨hnext, name, hname⟩ := hfunction
    cases ts with
    | nil => cases hnext
    | cons t rest =>
      refine .token (.bind ((ih rest (by simp)).functionRest i) fun f _ _ ↦ .done (Stmt.function f))
        (by rw [show t.token = _ from hnext]; exact .plain rfl) fun line us hus ↦ ?_
      rw [show t.token = _ from hnext]
      cases us with
      | nil => cases hus.trans hname
      | cons u us =>
        obtain ⟨token, line'⟩ := u
        cases (show token = _ from hus.trans hname)
        rw [statement]
        exact answer_bind fun _ _ _ ↦ rfl
  by_cases hkeyword : ∃ name ∈ statementKeywords, lookahead ts = .word name
  · obtain ⟨name, hname, hnext⟩ := hkeyword
    refine .passing_plain hnext rfl (fun rest hlt ↦
      (ih rest hlt).keywordStatement name i) fun line us ↦ ?_
    rw [statement]
    · rw [if_pos (List.mem_append.1 hname)]
      exact answer_bind_pure fun _ _ _ ↦ rfl
    · rintro _ _ _ - rfl
      exact absurd hname (by decide)
  refine .congr_tail (balanced_expressionStatement ih i) (fun _ _ h ↦ length_lt_of_answer h)
    fun us hus htail ↦ ?_
  refine congrArg answer (statement_eq_expressionStatement ?_ ?_ ?_ ?_)
  · rwa [hus]
  · rwa [hus]
  · rwa [hus, htail]
  · exact fun name hname h ↦ hkeyword ⟨name, hname, hus ▸ h⟩

theorem readersLocal_step : ReadersLocal ts where
  assignment := balanced_assignment ih
  arrayItems := balanced_arrayItems ih
  objectEntries := closing_objectEntries ih
  arguments := balanced_arguments ih
  moreArguments := balanced_moreArguments ih
  postfixRest := balanced_postfixRest ih
  unary := balanced_unary ih
  binary := balanced_binary ih
  binaryRest := balanced_binaryRest ih
  conjunction := balanced_conjunction ih
  conjunctionRest := balanced_conjunctionRest ih
  disjunctionRest := balanced_disjunctionRest ih
  assignmentRest := balanced_assignmentRest ih
  functionRest := balanced_functionRest ih
  blockBody := closing_blockBody ih (balanced_statement ih)
  declarations := balanced_declarations ih
  initializer := balanced_initializer ih
  optional _ := balanced_optional ih
  loopInit := balanced_loopInit ih
  alternative := balanced_alternative ih
  keywordStatement := balanced_keywordStatement ih
  statement := balanced_statement ih

end Step

/-- All readers are local. -/
theorem readersLocal (ts : List LocatedToken) : ReadersLocal ts := by
  induction hn : ts.length using Nat.strongRecOn generalizing ts with
  | ind n ih => exact readersLocal_step fun us hlt ↦ ih us.length (hn ▸ hlt) us rfl

end Parser

end ReactiveFrames.Script
