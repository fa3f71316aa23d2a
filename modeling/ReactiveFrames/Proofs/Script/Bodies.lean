import ReactiveFrames.Proofs.Script.Cutting
import ReactiveFrames.Proofs.Script.Locality

/-!
# Bodies of functions

A block is a program before a closing brace. So a text between the braces of a function expression
is the body of that function if and only if it is a program, unless it closes the brace of the
function expression itself: then the expression ends early, and the rest of the text stands behind
it.

## Main definitions

* `closesOuterBrace`: a text closes a brace that it did not open.

## Main statements

* `Parser.program_assigned_iff`: when a function expression that is assigned to a variable is a
  program, in tokens.
* `parse_assigned_iff`: the same, in texts.
-/

namespace ReactiveFrames.Script

namespace Parser

/-! ## Programs -/

theorem program_nil : program [] = .ok [] := by rw [program]

theorem program_cons_iff {t : LocatedToken} {rest : List LocatedToken} {body : List Stmt} :
    program (t :: rest) = .ok body ↔ ∃ s rest' more,
      answer (statement (t :: rest)) = some (s, rest') ∧ program rest' = .ok more ∧
        body = s :: more := by
  rw [program]
  constructor
  · intro h
    obtain ⟨⟨s, rest', hlt⟩, hs, h⟩ := Except.bind_eq_ok.1 h
    obtain ⟨more, hmore, h⟩ := Except.bind_eq_ok.1 h
    cases h
    exact ⟨s, rest', more, answer_eq_some_iff.2 ⟨hlt, hs⟩, hmore, rfl⟩
  · rintro ⟨s, rest', more, hs, hmore, rfl⟩
    obtain ⟨hlt, hs⟩ := answer_eq_some_iff.1 hs
    exact Except.bind_eq_ok.2 ⟨_, hs, Except.bind_eq_ok.2 ⟨more, hmore, rfl⟩⟩

/-- The tokens that a statement takes in. They are at least one, and the first one is no closing
brace. -/
theorem exists_front_of_statement {ts rest : List LocatedToken} {s : Stmt}
    (h : answer (statement ts) = some (s, rest)) : ∃ t front, ts = t :: front ++ rest ∧
      t.token ≠ .punct .closeBrace ∧ (∀ i, Nests i i (words (t :: front))) ∧
      ∀ us tail, words us = words (t :: front) → lookahead tail = lookahead rest →
        answer (statement (us ++ tail)) = some (s, tail) := by
  have hlocal := (readersLocal ts).statement
  obtain ⟨front, hfront, hnests, hagain⟩ := hlocal 0 s rest h
  cases front with
  | nil =>
    have hlt := length_lt_of_answer h
    rw [hfront] at hlt
    exact absurd hlt (Nat.lt_irrefl _)
  | cons t front =>
    refine ⟨t, front, hfront, ?_, fun i ↦ ?_, hagain⟩
    · intro ht
      have := hnests 0
      rw [words, List.map_cons, ht] at this
      cases this
    · obtain ⟨front', hfront', hnests', -⟩ := hlocal i s rest h
      rwa [← List.append_cancel_right (hfront.symm.trans hfront')] at hnests'

/-- The statements of a program do not depend on the lines of its tokens. -/
theorem program_of_words {ts us : List LocatedToken} {body : List Stmt} (h : program ts = .ok body)
    (hwords : words us = words ts) : program us = .ok body := by
  induction hn : ts.length using Nat.strongRecOn generalizing ts us body with
  | ind n ih =>
    cases ts with
    | nil => rwa [List.map_eq_nil_iff.1 hwords]
    | cons t rest =>
      obtain ⟨s, rest', more, hs, hmore, rfl⟩ := program_cons_iff.1 h
      have hlt : rest'.length < n := hn ▸ length_lt_of_answer hs
      obtain ⟨t', front, hfront, -, -, hagain⟩ := exists_front_of_statement hs
      rw [hfront] at hwords
      obtain ⟨us, vs, rfl, hus, hvs⟩ := exists_append_of_words hwords
      cases us with
      | nil => cases hus
      | cons u us =>
        exact program_cons_iff.2 ⟨s, vs, more, hagain _ vs hus (lookahead_of_words hvs),
          ih _ hlt hmore hvs rfl, rfl⟩

/-- The braces of a program are balanced. -/
theorem nests_of_program {ts : List LocatedToken} {body : List Stmt} (h : program ts = .ok body)
    (i : Nat) : Nests i i (words ts) := by
  induction hn : ts.length using Nat.strongRecOn generalizing ts body with
  | ind n ih =>
    cases ts with
    | nil => exact .nil
    | cons t rest =>
      obtain ⟨s, rest', more, hs, hmore, rfl⟩ := program_cons_iff.1 h
      have hlt : rest'.length < n := hn ▸ length_lt_of_answer hs
      obtain ⟨t', front, hfront, -, hnests, -⟩ := exists_front_of_statement hs
      rw [hfront, words_append]
      exact (hnests i).append (ih _ hlt hmore rfl)

/-- A block is a program before a closing brace. -/
theorem blockBody_iff {ts rest : List LocatedToken} {body : List Stmt} :
    answer (blockBody ts) = some (body, rest) ↔ ∃ inner line,
      ts = inner ++ ⟨.punct .closeBrace, line⟩ :: rest ∧ program inner = .ok body := by
  constructor
  · intro h
    induction hn : ts.length using Nat.strongRecOn generalizing ts body with
    | ind n ih =>
      by_cases hclose : lookahead ts = .punct .closeBrace
      · cases ts with
        | nil =>
          rw [blockBody_nil] at h
          cases h
        | cons t us =>
          obtain ⟨token, line⟩ := t
          cases hclose
          rw [blockBody_closeBrace] at h
          cases h
          exact ⟨[], line, rfl, program_nil⟩
      · rw [answer_blockBody hclose] at h
        obtain ⟨⟨s, middle⟩, hs, h⟩ := Option.bind_eq_some_iff.1 h
        obtain ⟨⟨more, rest⟩, hmore, h⟩ := Option.bind_eq_some_iff.1 h
        cases h
        have hlt : middle.length < n := hn ▸ length_lt_of_answer hs
        obtain ⟨t, front, rfl, -, -, hagain⟩ := exists_front_of_statement hs
        obtain ⟨inner, line, rfl, hinner⟩ := ih _ hlt hmore rfl
        refine ⟨t :: front ++ inner, line, by simp,
          program_cons_iff.2 ⟨s, inner, more, ?_, hinner, rfl⟩⟩
        refine hagain (t :: front) inner rfl ?_
        -- the end of the tokens counts as the closing brace
        cases inner <;> rfl
  · rintro ⟨inner, line, rfl, hinner⟩
    induction hn : inner.length using Nat.strongRecOn generalizing inner body with
    | ind n ih =>
      cases inner with
      | nil =>
        rw [program_nil] at hinner
        cases hinner
        exact blockBody_closeBrace line rest
      | cons t us =>
        obtain ⟨s, inner, more, hs, hmore, rfl⟩ := program_cons_iff.1 hinner
        have hlt : inner.length < n := hn ▸ length_lt_of_answer hs
        obtain ⟨t', front, hfront, hne, -, hagain⟩ := exists_front_of_statement hs
        have hnext : lookahead (inner ++ ⟨.punct .closeBrace, line⟩ :: rest) = lookahead inner := by
          cases inner <;> rfl
        have hgoes (tail : List LocatedToken) :
            lookahead (t' :: front ++ tail) ≠ .punct .closeBrace := hne
        rw [hfront, List.append_assoc, answer_blockBody (hgoes _), hagain _ _ rfl hnext,
          Option.bind_some, ih _ hlt _ hmore rfl]
        rfl

/-- A closing brace after tokens that close no brace but their own ends the block that they are. -/
theorem blockBody_append_closeBrace {ts rest : List LocatedToken} {body : List Stmt} {line : Nat}
    (hclosed : openBraces? 0 (words ts) ≠ none) :
    answer (blockBody (ts ++ [⟨.punct .closeBrace, line⟩])) = some (body, rest) ↔
      rest = [] ∧ program ts = .ok body := by
  rw [blockBody_iff]
  constructor
  · rintro ⟨inner, line', heq, hinner⟩
    rcases List.eq_nil_or_concat rest with rfl | ⟨rest, t, rfl⟩
    · obtain ⟨rfl, -⟩ := List.append_inj' heq rfl
      exact ⟨rfl, hinner⟩
    · rw [List.concat_eq_append, ← List.cons_append, ← List.append_assoc] at heq
      obtain ⟨rfl, -⟩ := List.append_inj' heq rfl
      have hopen : openBraces? 0 (words inner) = some 0 := nests_of_program hinner 0 0
      refine absurd ?_ hclosed
      rw [words_append, openBraces?_append, hopen]
      rfl
  · rintro ⟨rfl, hbody⟩
    exact ⟨ts, line, rfl, hbody⟩

/-! ## Expressions with one operand -/

/-- An operand that nothing goes on with is an expression. -/
theorem conditional_of_primary {ts rest : List LocatedToken} {e : Expr}
    (hop : unaryOp? (lookahead ts) = none) (hupdate : updateOp? (lookahead ts) = none)
    (hrest : lookahead rest = .punct .assign ∨ lookahead rest = .punct .closeBrace)
    (h : answer (primary ts) = some (e, rest)) : answer (conditional ts) = some (e, rest) := by
  have hpostfix : answer (postfixRest e rest) = some (e, rest) :=
    postfixRest_stop (by rcases hrest with h | h <;> simp [h, postfixes]) e
  have hbinary : answer (binaryRest 0 e rest) = some (e, rest) := by
    refine binaryRest_stop (fun p op hp hop ↦ ?_) e
    rcases hrest with h | h <;> rw [h] at hp <;> cases hp <;> cases hop
  have hconjunction : answer (conjunctionRest e rest) = some (e, rest) :=
    conjunctionRest_stop (by rcases hrest with h | h <;> simp [h]) e
  have hdisjunction : answer (disjunctionRest e rest) = some (e, rest) :=
    disjunctionRest_stop (by rcases hrest with h | h <;> simp [h]) e
  have hquestion : answer (.ok (punct? .question rest)) = some (false, rest) :=
    punct?_of_ne (by rcases hrest with h | h <;> simp [h])
  simp [answer_conditional, answer_disjunction, answer_conjunction, answer_binary,
    unary_eq_postfixExpr hop hupdate, answer_postfixExpr, h, hpostfix, hbinary, hconjunction,
    hdisjunction, hquestion]

/-- Without an operand there is no expression. -/
theorem assignment_eq_none {ts : List LocatedToken} (hop : unaryOp? (lookahead ts) = none)
    (hupdate : updateOp? (lookahead ts) = none) (h : answer (primary ts) = none) :
    answer (assignment ts) = none := by
  rw [answer_assignment, answer_conditional, answer_disjunction, answer_conjunction, answer_binary,
    unary_eq_postfixExpr hop hupdate, answer_postfixExpr, h]
  rfl

/-! ## Functions -/

/-- Tokens on the first line. -/
def locate (ws : List Token) : List LocatedToken := ws.map (⟨·, 0⟩)

@[simp] theorem words_locate (ws : List Token) : words (locate ws) = ws := by
  simp [words, locate, Function.comp_def]

theorem moreParameters_locate (names : List String) (rest : List LocatedToken) :
    answer (moreParameters (locate (names.flatMap fun more ↦ [.punct .comma, .word more]) ++
      ⟨.punct .closeParen, 0⟩ :: rest)) = some (names, rest) := by
  induction names with
  | nil => exact moreParameters_closeParen 0 rest
  | cons name names ih =>
    have hsplit : locate ((name :: names).flatMap fun more ↦ [.punct .comma, .word more]) ++
        ⟨.punct .closeParen, 0⟩ :: rest = ⟨.punct .comma, 0⟩ :: ⟨.word name, 0⟩ ::
          (locate (names.flatMap fun more ↦ [.punct .comma, .word more]) ++
            ⟨.punct .closeParen, 0⟩ :: rest) := rfl
    rw [hsplit, answer_moreParameters (by simp [lookahead])]
    simp [ih]

theorem parameters_locate (names : List String) (rest : List LocatedToken) :
    answer (parameters (locate (Tokens.nameTokens names) ++ ⟨.punct .closeParen, 0⟩ :: rest))
      = some (names, rest) := by
  cases names with
  | nil => rfl
  | cons name names =>
    have hsplit : locate (Tokens.nameTokens (name :: names)) ++ ⟨.punct .closeParen, 0⟩ :: rest
        = ⟨.word name, 0⟩ :: (locate (names.flatMap fun more ↦ [.punct .comma, .word more]) ++
          ⟨.punct .closeParen, 0⟩ :: rest) := rfl
    rw [hsplit, answer_parameters (by simp [lookahead])]
    simp [moreParameters_locate]

/-- Tokens of a function expression, of whose body the lines are known. -/
def functionTokens (names : List String) (body : List LocatedToken) : List LocatedToken :=
  locate (.word "function" :: .punct .openParen :: Tokens.nameTokens names ++
    [.punct .closeParen, .punct .openBrace]) ++ body ++ [⟨.punct .closeBrace, 0⟩]

@[simp] theorem words_functionTokens (names : List String) (ts : List LocatedToken) :
    words (functionTokens names ts) = Tokens.functionTokens names (words ts) := by
  simp [functionTokens, Tokens.functionTokens]

theorem primary_functionTokens (names : List String) (ts : List LocatedToken) :
    answer (primary (functionTokens names ts))
      = (answer (blockBody (ts ++ [⟨.punct .closeBrace, 0⟩]))).map fun body ↦
        (.function (.mk none names body.1), body.2) := by
  have hsplit : functionTokens names ts = ⟨.word "function", 0⟩ :: ⟨.punct .openParen, 0⟩ ::
      (locate (Tokens.nameTokens names) ++ ⟨.punct .closeParen, 0⟩ :: ⟨.punct .openBrace, 0⟩ ::
        (ts ++ [⟨.punct .closeBrace, 0⟩])) := by
    simp [functionTokens, locate]
  have hfunction (us : List LocatedToken) : answer (primary (⟨.word "function", 0⟩ :: us))
      = (answer (functionRest us)).bind fun f ↦ some (.function f.1, f.2) := by
    rw [primary]
    exact answer_bind fun _ _ _ ↦ rfl
  have hnone (us : List LocatedToken) :
      answer (.ok (word? (⟨.punct .openParen, 0⟩ :: us)))
        = some (none, ⟨.punct .openParen, 0⟩ :: us) := rfl
  rw [hsplit, hfunction, answer_functionRest]
  simp only [hnone, Option.bind_some, answer_punct, parameters_locate]
  cases answer (blockBody (ts ++ [⟨.punct .closeBrace, 0⟩])) <;> rfl

/-- Words that are no variables, and those that statements start with. -/
def reservedWords : List String :=
  ["function", "typeof", "true", "false", "null", "undefined"] ++ statementKeywords

theorem wordExpr_of_not_reserved {name : String} (h : name ∉ reservedWords) :
    wordExpr name = .variable name := by
  unfold wordExpr
  split
  all_goals first | rfl | exact absurd (by decide) h

theorem unaryOp?_word {name : String} (h : name ≠ "typeof") : unaryOp? (.word name) = none := by
  unfold unaryOp?
  split
  all_goals first | rfl | (rename_i heq; cases heq; exact absurd rfl h) | (rename_i heq; cases heq)

/-- An assignment to a variable is an expression if what is assigned is one. -/
theorem assignment_variable {name : String} (h : name ∉ reservedWords) (ts : List LocatedToken) :
    answer (assignment (⟨.word name, 0⟩ :: ⟨.punct .assign, 0⟩ :: ts))
      = (answer (assignment ts)).bind fun value ↦
        some (.assign none (.variable name) value.1, value.2) := by
  have hne : ∀ word ∈ reservedWords, name ≠ word := fun word hword heq ↦ h (heq ▸ hword)
  have hprimary : answer (primary (⟨.word name, 0⟩ :: ⟨.punct .assign, 0⟩ :: ts))
      = some (.variable name, ⟨.punct .assign, 0⟩ :: ts) := by
    rw [primary, wordExpr_of_not_reserved h]
    · rfl
    · exact hne "function" (by decide)
  have hconditional : answer (conditional (⟨.word name, 0⟩ :: ⟨.punct .assign, 0⟩ :: ts))
      = some (.variable name, ⟨.punct .assign, 0⟩ :: ts) :=
    conditional_of_primary (unaryOp?_word (hne "typeof" (by decide))) rfl (.inl rfl) hprimary
  rw [answer_assignment, hconditional, Option.bind_some]
  simp only [assignmentRest, assignOp?, targetOf]
  exact answer_bind fun _ _ _ ↦ rfl

/-- A function that is assigned to a variable is a statement, and may be followed by a semicolon. -/
theorem statement_assigned {name : String} (hname : name ∉ reservedWords) (names : List String)
    (ts : List LocatedToken) :
    answer (statement (⟨.word name, 0⟩ :: ⟨.punct .assign, 0⟩ :: functionTokens names ts))
      = (answer (assignment (functionTokens names ts))).bind fun value ↦
        (answer (.ok (punct? .semicolon value.2))).bind fun q ↦
          some (.expression (.assign none (.variable name) value.1), q.2) := by
  rw [statement_eq_expressionStatement, answer_expressionStatement, assignment_variable hname,
    Option.bind_assoc]
  · rfl
  · simp [lookahead]
  · simp [lookahead]
  · rintro ⟨-, other, hother⟩
    cases hother
  · rintro word hword heq
    cases heq
    exact hname (List.mem_append_right _ hword)

/-- A function expression that closes no brace but its own is assigned to a variable if and only if
its body is a program of its own. -/
theorem program_assigned_iff {name : String} (hname : name ∉ reservedWords) (names : List String)
    {ts : List LocatedToken} (hclosed : openBraces? 0 (words ts) ≠ none) {all : List Stmt} :
    program (⟨.word name, 0⟩ :: ⟨.punct .assign, 0⟩ :: functionTokens names ts) = .ok all ↔
      ∃ body, program ts = .ok body ∧
        all = [.expression (.assign none (.variable name) (.function (.mk none names body)))] := by
  have hop : unaryOp? (lookahead (functionTokens names ts)) = none :=
    unaryOp?_word (by decide)
  cases hbody : program ts with
  | error stop =>
    have hblock : answer (blockBody (ts ++ [⟨.punct .closeBrace, 0⟩])) = none := by
      rw [Option.eq_none_iff_forall_ne_some]
      rintro ⟨body, rest⟩ h
      rw [((blockBody_append_closeBrace hclosed).1 h).2] at hbody
      cases hbody
    have hprimary : answer (primary (functionTokens names ts)) = none := by
      rw [primary_functionTokens, hblock]
      rfl
    rw [program_cons_iff, statement_assigned hname, assignment_eq_none hop rfl hprimary]
    simp
  | ok body =>
    have hblock : answer (blockBody (ts ++ [⟨.punct .closeBrace, 0⟩])) = some (body, []) :=
      (blockBody_append_closeBrace hclosed).2 ⟨rfl, hbody⟩
    have hprimary : answer (primary (functionTokens names ts))
        = some (.function (.mk none names body), []) := by
      rw [primary_functionTokens, hblock]
      rfl
    have hassignment : answer (assignment (functionTokens names ts))
        = some (.function (.mk none names body), []) := by
      rw [answer_assignment, conditional_of_primary hop rfl (.inr rfl) hprimary]
      exact assignmentRest_stop (by simp [lookahead]; rfl) _
    have hstop : answer (.ok (punct? .semicolon [])) = some (false, []) := rfl
    rw [program_cons_iff, statement_assigned hname, hassignment, Option.bind_some, hstop,
      Option.bind_some]
    constructor
    · rintro ⟨s, rest, more, heq, hmore, rfl⟩
      cases heq
      rw [program_nil] at hmore
      cases hmore
      exact ⟨body, rfl, rfl⟩
    · rintro ⟨body', heq, rfl⟩
      cases heq
      exact ⟨_, [], [], rfl, program_nil, rfl⟩

end Parser

/-! ## Texts -/

/-- A text is a program if its tokens are one, on whatever lines. -/
theorem parse_eq_ok_iff {source : String} {body : List Stmt} :
    parse source = .ok body ↔ ∃ ts, Tokens.cut source.toList = some (Parser.words ts) ∧
      Parser.program ts = .ok body := by
  unfold parse ofTokens Tokens.cut Tokens.cutFrom
  change Tokens.scan 0 source.toList >>= _ = _ ↔ _
  cases Tokens.scan 0 source.toList with
  | error e => exact ⟨fun h ↦ (nomatch h), fun ⟨_, h, _⟩ ↦ (nomatch h)⟩
  | ok tokens =>
    change (Parser.program tokens.tokens).mapError _ = _ ↔ _
    constructor
    · intro h
      refine ⟨tokens.tokens, rfl, ?_⟩
      cases hbody : Parser.program tokens.tokens with
      | error stop =>
        rw [hbody] at h
        cases h
      | ok body' =>
        rw [hbody] at h
        cases h
        rfl
    · rintro ⟨ts, hts, hbody⟩
      rw [Parser.program_of_words hbody (Option.some.inj hts)]
      rfl

/-- The text closes a brace that it did not open. -/
def closesOuterBrace (script : String) : Bool :=
  (Tokens.cut script.toList).any fun ws ↦ (openBraces? 0 ws).isNone

/-- A program closes no brace but its own. -/
theorem closesOuterBrace_of_parse {script : String} {body : List Stmt}
    (h : parse script = .ok body) : closesOuterBrace script = false := by
  obtain ⟨ts, hcut, hbody⟩ := parse_eq_ok_iff.1 h
  have hopen : openBraces? 0 (Parser.words ts) = some 0 := Parser.nests_of_program hbody 0 0
  rw [closesOuterBrace, hcut, Option.any_some, hopen]
  rfl

/-- A function expression whose body closes no brace but its own is assigned to a variable if and
only if the body is a program of its own. -/
theorem parse_assigned_iff {name : String} (hname : Lexeme.IsWord name)
    (hreserved : name ∉ Parser.reservedWords) {names : List String}
    (hnames : ∀ name ∈ names, Lexeme.IsWord name) {script : String}
    (hclosed : closesOuterBrace script = false) {all : List Stmt} :
    parse (name ++ " = " ++
        ("function(" ++ ", ".intercalate names ++ ") \x7b\n" ++ script ++ "\n\x7d\n")) = .ok all ↔
      ∃ body, parse script = .ok body ∧
        all = [.expression (.assign none (.variable name) (.function (.mk none names body)))] := by
  have hcut := (Tokens.cut_assigned hname _).trans
    (congrArg _ (Tokens.cut_function hnames script))
  simp only [parse_eq_ok_iff, hcut]
  cases hscript : Tokens.cut script.toList with
  | none => simp
  | some ws =>
    rw [closesOuterBrace, hscript, Option.any_some, Option.isNone_eq_false_iff,
      Option.isSome_iff_ne_none] at hclosed
    rw [← Parser.words_locate ws] at hclosed
    have hiff := @Parser.program_assigned_iff name hreserved names (Parser.locate ws) hclosed all
    have hwords : Parser.words (⟨.word name, 0⟩ :: ⟨.punct .assign, 0⟩ ::
        Parser.functionTokens names (Parser.locate ws))
        = .word name :: .punct .assign :: Tokens.functionTokens names ws := by
      simp
    constructor
    · rintro ⟨ts, hts, hall⟩
      have hlines := Parser.program_of_words hall (hwords.trans (Option.some.inj hts))
      obtain ⟨body, hbody, rfl⟩ := hiff.1 hlines
      exact ⟨body, ⟨_, congrArg some (Parser.words_locate ws).symm, hbody⟩, rfl⟩
    · rintro ⟨body, ⟨ts, hts, hbody⟩, rfl⟩
      refine ⟨_, congrArg some hwords.symm, hiff.2 ⟨body, ?_, rfl⟩⟩
      exact Parser.program_of_words hbody ((Parser.words_locate ws).trans (Option.some.inj hts))

end ReactiveFrames.Script
