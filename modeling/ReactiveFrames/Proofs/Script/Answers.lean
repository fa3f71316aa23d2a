import ReactiveFrames.Proofs.Basic
import ReactiveFrames.Script.Parser

/-!
# Answers of readers

What the readers of scripts answer, without the bounds that their recursion is on and without their
faults. A reader that stops where it may go on looks at the next token, and the end of a script then
counts as a closing brace: no reader goes on at either of them.

## Main definitions

* `Parser.answer`: value and remaining tokens of a reader.
* `Parser.lookahead`: the next token.

## Main statements

* `Parser.answer_bind`: one reader after another one.
* `Parser.answer_assignment`, `Parser.answer_statement`: an expression starts with an operand, and a
  statement without a keyword is an expression.
-/

namespace ReactiveFrames.Script.Parser

variable {α β : Type} {n m : Nat}

/-- The tokens without their lines. -/
def words (ts : List LocatedToken) : List Token := ts.map (·.token)

/-- The next token. The end of a script counts as a closing brace. -/
def lookahead : List LocatedToken → Token
  | [] => .punct .closeBrace
  | t :: _ => t.token

/-- Value and remaining tokens of a reader that answers. -/
def answer (x : Except Stops (Reads n α)) : Option (α × List LocatedToken) :=
  x.toOption.map fun r ↦ (r.value, r.rest)

@[simp] theorem words_nil : words [] = [] := rfl

@[simp] theorem words_cons (t : LocatedToken) (ts : List LocatedToken) :
    words (t :: ts) = t.token :: words ts := rfl

@[simp] theorem words_append (ts us : List LocatedToken) :
    words (ts ++ us) = words ts ++ words us := List.map_append

theorem lookahead_append {ts us rest tail : List LocatedToken} (hwords : words us = words ts)
    (hnext : lookahead tail = lookahead rest) :
    lookahead (us ++ tail) = lookahead (ts ++ rest) := by
  cases ts <;> cases us <;> simp_all [words, lookahead]

theorem lookahead_of_words {ts us : List LocatedToken} (h : words us = words ts) :
    lookahead us = lookahead ts := by
  have hnext : lookahead (us ++ []) = lookahead (ts ++ []) := lookahead_append h rfl
  simpa using hnext

theorem exists_append_of_words {ts us vs : List LocatedToken} (h : words us = words (ts ++ vs)) :
    ∃ ts' vs', us = ts' ++ vs' ∧ words ts' = words ts ∧ words vs' = words vs := by
  rw [words_append, words, List.map_eq_append_iff] at h
  exact h

theorem answer_eq_some_iff {x : Except Stops (Reads n α)} {a : α} {rest : List LocatedToken} :
    answer x = some (a, rest) ↔ ∃ hlt, x = .ok ⟨a, rest, hlt⟩ := by
  constructor
  · intro h
    cases x with
    | error stop => cases h
    | ok r =>
      cases h
      exact ⟨r.length_lt, rfl⟩
  · rintro ⟨hlt, rfl⟩
    rfl

theorem length_lt_of_answer {x : Except Stops (Reads n α)} {a : α} {rest : List LocatedToken}
    (h : answer x = some (a, rest)) : rest.length < n := by
  obtain ⟨hlt, -⟩ := answer_eq_some_iff.1 h
  exact hlt

theorem length_le_of_answer {x : Except Stops (Reads (n + 1) α)} {a : α} {rest : List LocatedToken}
    (h : answer x = some (a, rest)) : rest.length ≤ n :=
  Nat.le_of_lt_succ (length_lt_of_answer h)

/-! ## Readers in a row -/

theorem answer_bind {x : Except Stops (Reads n α)} {next : Reads n α → Except Stops (Reads m β)}
    {s : α × List LocatedToken → Option (β × List LocatedToken)}
    (h : ∀ a rest hlt, answer (next ⟨a, rest, hlt⟩) = s (a, rest)) :
    answer (x >>= next) = (answer x).bind s := by
  cases x with
  | error stop => rfl
  | ok r => exact h r.value r.rest r.length_lt

/-- The last reader in a row gives the value. -/
theorem answer_bind_pure {x : Except Stops (Reads n α)}
    {next : Reads n α → Except Stops (Reads m α)}
    (h : ∀ a rest hlt, answer (next ⟨a, rest, hlt⟩) = some (a, rest)) :
    answer (x >>= next) = answer x := by
  cases x with
  | error stop => rfl
  | ok r => exact h r.value r.rest r.length_lt

/-- A check that reads no token. -/
theorem answer_check {x : Except Stops α} {next : α → Except Stops (Reads m β)} :
    answer (x >>= next) = x.toOption.bind fun a ↦ answer (next a) := by
  cases x <;> rfl

/-! ## Single tokens -/

@[simp] theorem answer_punct (p : Punct) (line : Nat) (rest : List LocatedToken) :
    answer (punct p (⟨.punct p, line⟩ :: rest)) = some ((), rest) := by
  simp [punct, answer, Except.toOption]

@[simp] theorem answer_word (name : String) (line : Nat) (rest : List LocatedToken) :
    answer (word (⟨.word name, line⟩ :: rest)) = some (name, rest) := rfl

theorem punct?_of_ne {p : Punct} {ts : List LocatedToken} (h : lookahead ts ≠ .punct p) :
    answer (.ok (punct? p ts)) = some (false, ts) := by
  unfold punct?
  split
  · rename_i q line rest
    rw [if_neg]
    · rfl
    · rintro rfl
      exact h rfl
  · rfl

/-! ## Operands -/

theorem answer_postfixExpr (ts : List LocatedToken) :
    answer (postfixExpr ts) = (answer (primary ts)).bind fun p ↦ answer (postfixRest p.1 p.2) := by
  rw [postfixExpr]
  exact answer_bind fun _ _ _ ↦ answer_bind_pure fun _ _ _ ↦ rfl

theorem unary_eq_postfixExpr {ts : List LocatedToken} (hop : unaryOp? (lookahead ts) = none)
    (hupdate : updateOp? (lookahead ts) = none) : answer (unary ts) = answer (postfixExpr ts) := by
  cases ts with
  | nil => rw [unary]
  | cons t rest =>
    simp only [lookahead] at hop hupdate
    simp only [unary, hop, hupdate]

theorem answer_binary (least : Nat) (ts : List LocatedToken) : answer (binary least ts)
    = (answer (unary ts)).bind fun p ↦ answer (binaryRest least p.1 p.2) := by
  rw [binary]
  exact answer_bind fun _ _ _ ↦ answer_bind_pure fun _ _ _ ↦ rfl

theorem answer_conjunction (ts : List LocatedToken) : answer (conjunction ts)
    = (answer (binary 0 ts)).bind fun p ↦ answer (conjunctionRest p.1 p.2) := by
  rw [conjunction]
  exact answer_bind fun _ _ _ ↦ answer_bind_pure fun _ _ _ ↦ rfl

theorem answer_disjunction (ts : List LocatedToken) : answer (disjunction ts)
    = (answer (conjunction ts)).bind fun p ↦ answer (disjunctionRest p.1 p.2) := by
  rw [disjunction]
  exact answer_bind fun _ _ _ ↦ answer_bind_pure fun _ _ _ ↦ rfl

theorem answer_conditional (ts : List LocatedToken) : answer (conditional ts)
    = (answer (disjunction ts)).bind fun p ↦ (answer (.ok (punct? .question p.2))).bind fun q ↦
      if q.1 then
        (answer (assignment q.2)).bind fun consequent ↦
          (answer (punct .colon consequent.2)).bind fun r ↦
            (answer (assignment r.2)).bind fun alternate ↦
              some (.conditional p.1 consequent.1 alternate.1, alternate.2)
      else some (p.1, q.2) := by
  rw [conditional]
  refine answer_bind fun test rest _ ↦ ?_
  dsimp only
  obtain ⟨question, rest', _⟩ := punct? .question rest
  cases question
  · rfl
  · exact answer_bind fun _ _ _ ↦ answer_bind fun _ _ _ ↦ answer_bind fun _ _ _ ↦ rfl

theorem answer_assignment (ts : List LocatedToken) : answer (assignment ts)
    = (answer (conditional ts)).bind fun p ↦ answer (assignmentRest p.1 p.2) := by
  rw [assignment]
  exact answer_bind fun _ _ _ ↦ answer_bind_pure fun _ _ _ ↦ rfl

/-! ## Where readers stop -/

/-- Punctuators that go on with an operand. -/
def postfixes : List Punct := [.dot, .openBracket, .openParen, .increment, .decrement]

theorem postfixRest_stop {ts : List LocatedToken} (h : ∀ p ∈ postfixes, lookahead ts ≠ .punct p)
    (left : Expr) : answer (postfixRest left ts) = some (left, ts) := by
  unfold postfixRest
  split
  · exact absurd rfl (h .dot (by decide))
  · exact absurd rfl (h .openBracket (by decide))
  · exact absurd rfl (h .openParen (by decide))
  · exact absurd rfl (h .increment (by decide))
  · exact absurd rfl (h .decrement (by decide))
  · rfl

theorem binaryRest_stop {least : Nat} {ts : List LocatedToken}
    (h : ∀ p op, lookahead ts = .punct p → binaryOp? p = some op → op.precedence < least)
    (left : Expr) : answer (binaryRest least left ts) = some (left, ts) := by
  unfold binaryRest
  split
  · rename_i p line rest
    split
    · rename_i op hop
      rw [if_pos (h p op rfl hop)]
      rfl
    · rfl
  · rfl

theorem conjunctionRest_stop {ts : List LocatedToken} (h : lookahead ts ≠ .punct .and)
    (left : Expr) : answer (conjunctionRest left ts) = some (left, ts) := by
  unfold conjunctionRest
  split
  · exact absurd rfl h
  · rfl

theorem disjunctionRest_stop {ts : List LocatedToken} (h : lookahead ts ≠ .punct .or)
    (left : Expr) : answer (disjunctionRest left ts) = some (left, ts) := by
  unfold disjunctionRest
  split
  · exact absurd rfl h
  · rfl

theorem assignmentRest_stop {ts : List LocatedToken}
    (h : ∀ p, lookahead ts = .punct p → assignOp? p = none) (left : Expr) :
    answer (assignmentRest left ts) = some (left, ts) := by
  unfold assignmentRest
  split
  · rename_i p line rest
    split
    · rename_i op hop
      rw [h p rfl] at hop
      cases hop
    · rfl
  · rfl

/-! ## Statements -/

/-- Words that a statement of another kind than an expression starts with. -/
def statementKeywords : List String :=
  ["return", "if", "while", "for", "break", "continue", "throw"] ++ declarators

/-- A statement is an expression, unless the next two tokens say otherwise. -/
theorem statement_eq_expressionStatement {ts : List LocatedToken}
    (hsemicolon : lookahead ts ≠ .punct .semicolon) (hbrace : lookahead ts ≠ .punct .openBrace)
    (hfunction : ¬(lookahead ts = .word "function" ∧ ∃ name, lookahead ts.tail = .word name))
    (hkeyword : ∀ name ∈ statementKeywords, lookahead ts ≠ .word name) :
    statement ts = expressionStatement ts := by
  rw [statement.eq_def]
  split
  · exact absurd rfl hsemicolon
  · exact absurd rfl hbrace
  · exact absurd ⟨rfl, _, rfl⟩ hfunction
  · rename_i name line rest _
    rw [if_neg]
    rw [← List.mem_append]
    exact fun hname ↦ hkeyword name hname rfl
  · rfl

theorem answer_expressionStatement (ts : List LocatedToken) : answer (expressionStatement ts)
    = (answer (assignment ts)).bind fun p ↦ (answer (.ok (punct? .semicolon p.2))).bind fun q ↦
      some (.expression p.1, q.2) := by
  rw [expressionStatement]
  exact answer_bind fun _ _ _ ↦ rfl

theorem answer_moreParameters {ts : List LocatedToken} (h : lookahead ts ≠ .punct .closeParen) :
    answer (moreParameters ts) = (answer (punct .comma ts)).bind fun p ↦
      (answer (word p.2)).bind fun name ↦ (answer (moreParameters name.2)).bind fun more ↦
        some (name.1 :: more.1, more.2) := by
  rw [moreParameters.eq_def]
  split
  · exact absurd rfl h
  · exact answer_bind fun _ _ _ ↦ answer_bind fun _ _ _ ↦ answer_bind fun _ _ _ ↦ rfl

theorem moreParameters_closeParen (line : Nat) (rest : List LocatedToken) :
    answer (moreParameters (⟨.punct .closeParen, line⟩ :: rest)) = some ([], rest) := by
  rw [moreParameters]
  rfl

theorem answer_parameters {ts : List LocatedToken} (h : lookahead ts ≠ .punct .closeParen) :
    answer (parameters ts) = (answer (word ts)).bind fun name ↦
      (answer (moreParameters name.2)).bind fun more ↦ some (name.1 :: more.1, more.2) := by
  unfold parameters
  split
  · exact absurd rfl h
  · exact answer_bind fun _ _ _ ↦ answer_bind fun _ _ _ ↦ rfl

theorem answer_functionRest (ts : List LocatedToken) : answer (functionRest ts)
    = (answer (.ok (word? ts))).bind fun name ↦ (answer (punct .openParen name.2)).bind fun p ↦
      (answer (parameters p.2)).bind fun names ↦ (answer (punct .openBrace names.2)).bind fun q ↦
        (answer (blockBody q.2)).bind fun body ↦ some (.mk name.1 names.1 body.1, body.2) := by
  rw [functionRest]
  obtain ⟨name, rest, _⟩ := word? ts
  exact answer_bind fun _ _ _ ↦ answer_bind fun _ _ _ ↦ answer_bind fun _ _ _ ↦
    answer_bind fun _ _ _ ↦ rfl

theorem answer_blockBody {ts : List LocatedToken} (h : lookahead ts ≠ .punct .closeBrace) :
    answer (blockBody ts) = (answer (statement ts)).bind fun p ↦
      (answer (blockBody p.2)).bind fun q ↦ some (p.1 :: q.1, q.2) := by
  rw [blockBody.eq_def]
  split
  · exact absurd rfl h
  · exact absurd rfl h
  · exact answer_bind fun _ _ _ ↦ answer_bind fun _ _ _ ↦ rfl

theorem blockBody_closeBrace (line : Nat) (rest : List LocatedToken) :
    answer (blockBody (⟨.punct .closeBrace, line⟩ :: rest)) = some ([], rest) := by
  rw [blockBody]
  rfl

theorem blockBody_nil : answer (blockBody []) = none := by
  rw [blockBody.eq_def]
  rfl

end ReactiveFrames.Script.Parser
