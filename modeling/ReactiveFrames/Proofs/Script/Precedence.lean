import Mathlib.Tactic.IntervalCases
import ReactiveFrames.Proofs.Script.Answers

/-!
# Levels of binary operators

A grammar with one loop for each level of operators, and the reader that climbs precedences instead.
In the grammar an operand of a level is an expression of the next stronger level, and the operators
of one level are read from left to right by a loop that knows no other operator. The climbing reader
has a single loop, which takes every operator from a given precedence on and starts itself again for
the right operand. The two agree on every list of tokens: they answer with the same tree before the
same token, or stop with the same fault at the same place.

## Main definitions

* `Parser.chain`: operands joined to the left by operators of one level.
* `Parser.equality`, `Parser.relational`, `Parser.additive`, `Parser.multiplicative`: the levels.
* `Parser.layer`: the level that holds the operators of a given precedence and of all stronger ones.

## Main statements

* `Parser.ended_of_binaryRest`: the loop of the climbing reader leaves no operator that it may read.
* `Parser.binaryRest_eq_bind`: one loop that reads the stronger operators, then one that reads those
  of the precedence itself.
* `Parser.binary_eq_layer`: climbing precedences reads the grammar of levels.
-/

namespace ReactiveFrames.Script.Parser

variable {α β : Type} {n m : Nat}

/-! ## The grammar -/

/-- A reader of operands. -/
abbrev OperandReader := (ts : List LocatedToken) → Except Stops (Reads ts.length Expr)

theorem length_lt_of_loop {ts rest rest' : List LocatedToken} (h : rest.length < ts.length)
    (hloop : rest'.length < rest.length + 1) : rest'.length < ts.length :=
  Nat.lt_of_le_of_lt (Nat.le_of_lt_succ hloop) h

/-- Reads the operators of one level that follow an operand, each with its right operand. -/
def chainRest (operator? : Punct → Option BinaryOp) (operand : OperandReader) (left : Expr)
    (ts : List LocatedToken) : Except Stops (Reads (ts.length + 1) Expr) :=
  match ts with
  | ⟨.punct p, line⟩ :: rest =>
    match operator? p with
    | some op => do
      let ⟨right, rest', h⟩ ← operand rest
      let ⟨e, rest'', h'⟩ ← chainRest operator? operand (.binary op left right) rest'
      pure ⟨e, rest'', Nat.lt_add_right 2 (length_lt_of_loop h h')⟩
    | none => .ok ⟨left, ⟨.punct p, line⟩ :: rest, Nat.lt_succ_self _⟩
  | ts => .ok ⟨left, ts, Nat.lt_succ_self _⟩
  termination_by ts.length
  decreasing_by exact Nat.lt_succ_of_lt h

/-- Reads operands joined to the left by operators of one level. -/
def chain (operator? : Punct → Option BinaryOp) (operand : OperandReader) : OperandReader :=
  fun ts ↦ do
    let ⟨left, rest, h⟩ ← operand ts
    let ⟨e, rest', h'⟩ ← chainRest operator? operand left rest
    pure ⟨e, rest', length_lt_of_loop h h'⟩

/-- Operators that compare for being equal. -/
def equalityOp? : Punct → Option BinaryOp
  | .eq => some .eq
  | .notEq => some .notEq
  | .strictEq => some .strictEq
  | .strictNotEq => some .strictNotEq
  | _ => none

/-- Operators that compare for order. -/
def relationalOp? : Punct → Option BinaryOp
  | .less => some .less
  | .lessEq => some .lessEq
  | .greater => some .greater
  | .greaterEq => some .greaterEq
  | _ => none

/-- Sum and difference. -/
def additiveOp? : Punct → Option BinaryOp
  | .plus => some .add
  | .minus => some .sub
  | _ => none

/-- Product, quotient and remainder. -/
def multiplicativeOp? : Punct → Option BinaryOp
  | .star => some .mul
  | .slash => some .div
  | .percent => some .rem
  | _ => none

/-- Reads a product of operands. -/
def multiplicative : OperandReader := chain multiplicativeOp? unary

/-- Reads a sum of products. -/
def additive : OperandReader := chain additiveOp? multiplicative

/-- Reads a comparison of sums. -/
def relational : OperandReader := chain relationalOp? additive

/-- Reads whether comparisons are equal. -/
def equality : OperandReader := chain equalityOp? relational

/-- The level that holds the operators of precedence at least `least`. -/
def layer (least : Nat) : OperandReader :=
  match least with
  | 0 | 1 => equality
  | 2 => relational
  | 3 => additive
  | 4 => multiplicative
  | _ => unary

/-- The operators of a level are those of one precedence. -/
def OperatorsAt (precedence : Nat) (operator? : Punct → Option BinaryOp) : Prop :=
  ∀ p op, operator? p = some op ↔ binaryOp? p = some op ∧ op.precedence = precedence

theorem operatorsAt_equalityOp? : OperatorsAt 1 equalityOp? := by
  intro p op
  cases p <;> cases op <;> decide

theorem operatorsAt_relationalOp? : OperatorsAt 2 relationalOp? := by
  intro p op
  cases p <;> cases op <;> decide

theorem operatorsAt_additiveOp? : OperatorsAt 3 additiveOp? := by
  intro p op
  cases p <;> cases op <;> decide

theorem operatorsAt_multiplicativeOp? : OperatorsAt 4 multiplicativeOp? := by
  intro p op
  cases p <;> cases op <;> decide

theorem one_le_precedence (op : BinaryOp) : 1 ≤ op.precedence := by
  cases op <;> decide

theorem precedence_le_four (op : BinaryOp) : op.precedence ≤ 4 := by
  cases op <;> decide

/-! ## Results without bounds -/

/-- What a reader gives, without the bound that its recursion is on: a value and the tokens that
remain, or where it stopped. -/
def plain (x : Except Stops (Reads n α)) : Except Stops (α × List LocatedToken) :=
  x.map fun r ↦ (r.value, r.rest)

theorem plain_injective {x y : Except Stops (Reads n α)} (h : plain x = plain y) : x = y := by
  obtain stop | ⟨a, rest, hlt⟩ := x <;> obtain stop' | ⟨b, rest', hlt'⟩ := y <;>
    simp_all [plain, Except.map]

theorem plain_bind {x : Except Stops (Reads n α)} {next : Reads n α → Except Stops (Reads m β)}
    {s : α × List LocatedToken → Except Stops (β × List LocatedToken)}
    (h : ∀ a rest hlt, plain (next ⟨a, rest, hlt⟩) = s (a, rest)) :
    plain (x >>= next) = plain x >>= s := by
  cases x with
  | error stop => rfl
  | ok r => exact h r.value r.rest r.length_lt

theorem plain_bind_pure {x : Except Stops (Reads n α)}
    {next : Reads n α → Except Stops (Reads m α)}
    (h : ∀ a rest hlt, plain (next ⟨a, rest, hlt⟩) = .ok (a, rest)) :
    plain (x >>= next) = plain x := by
  cases x with
  | error stop => rfl
  | ok r => exact h r.value r.rest r.length_lt

/-- What comes next matters only for the tokens that a reader can leave. -/
theorem plain_bind_congr {x : Except Stops (Reads n α)}
    {s t : α × List LocatedToken → Except Stops (β × List LocatedToken)}
    (h : ∀ a rest, plain x = .ok (a, rest) → rest.length < n → s (a, rest) = t (a, rest)) :
    plain x >>= s = plain x >>= t := by
  cases x with
  | error stop => rfl
  | ok r => exact h r.value r.rest rfl r.length_lt

theorem length_lt_of_plain {x : Except Stops (Reads n α)} {a : α} {rest : List LocatedToken}
    (h : plain x = .ok (a, rest)) : rest.length < n := by
  cases x with
  | error stop => cases h
  | ok r =>
    cases h
    exact r.length_lt

theorem plain_of_answer {x : Except Stops (Reads n α)} {r : α × List LocatedToken}
    (h : answer x = some r) : plain x = .ok r := by
  obtain ⟨hlt, rfl⟩ := answer_eq_some_iff.1 h
  rfl

theorem plain_binary (least : Nat) (ts : List LocatedToken) :
    plain (binary least ts) = plain (unary ts) >>= fun r ↦ plain (binaryRest least r.1 r.2) := by
  rw [binary]
  exact plain_bind fun _ _ _ ↦ plain_bind_pure fun _ _ _ ↦ rfl

theorem plain_chain (operator? : Punct → Option BinaryOp) (operand : OperandReader)
    (ts : List LocatedToken) : plain (chain operator? operand ts)
    = plain (operand ts) >>= fun r ↦ plain (chainRest operator? operand r.1 r.2) := by
  rw [chain]
  exact plain_bind fun _ _ _ ↦ plain_bind_pure fun _ _ _ ↦ rfl

/-! ## Where the loops stop -/

/-- The next token is no operator of precedence at least `least`. -/
def Ended (least : Nat) (ts : List LocatedToken) : Prop :=
  ∀ p op, lookahead ts = .punct p → binaryOp? p = some op → op.precedence < least

theorem Ended.mono {least : Nat} {ts : List LocatedToken} (h : Ended n ts) (hle : n ≤ least) :
    Ended least ts :=
  fun p op hp hop ↦ Nat.lt_of_lt_of_le (h p op hp hop) hle

theorem ended_of_four_lt {least : Nat} (h : 4 < least) (ts : List LocatedToken) : Ended least ts :=
  fun _ op _ _ ↦ Nat.lt_of_le_of_lt (precedence_le_four op) h

/-- Either a loop stops before the next token, or that is an operator for it to read. -/
theorem ended_or_exists_operator (least : Nat) (ts : List LocatedToken) :
    Ended least ts ∨ ∃ p line rest op, ts = ⟨.punct p, line⟩ :: rest ∧ binaryOp? p = some op
      ∧ least ≤ op.precedence := by
  by_cases h : Ended least ts
  · exact .inl h
  · simp only [Ended, not_forall, Nat.not_lt] at h
    obtain ⟨p, op, hp, hop, hle⟩ := h
    cases ts with
    | nil =>
      cases hp
      cases hop
    | cons t rest =>
      obtain ⟨token, line⟩ := t
      cases hp
      exact .inr ⟨p, line, rest, op, rfl, hop, hle⟩

theorem plain_binaryRest_stop {least : Nat} {ts : List LocatedToken} (h : Ended least ts)
    (left : Expr) : plain (binaryRest least left ts) = .ok (left, ts) :=
  plain_of_answer (binaryRest_stop h left)

theorem plain_binaryRest_operator {least : Nat} {p : Punct} {op : BinaryOp} {line : Nat}
    {rest : List LocatedToken} (hop : binaryOp? p = some op) (hle : least ≤ op.precedence)
    (left : Expr) : plain (binaryRest least left (⟨.punct p, line⟩ :: rest))
    = plain (binary (op.precedence + 1) rest) >>= fun r ↦
        plain (binaryRest least (.binary op left r.1) r.2) := by
  rw [binaryRest]
  simp only [hop, if_neg (Nat.not_lt.2 hle)]
  exact plain_bind fun _ _ _ ↦ plain_bind_pure fun _ _ _ ↦ rfl

theorem plain_chainRest_operator {operator? : Punct → Option BinaryOp} {p : Punct} {op : BinaryOp}
    {line : Nat} {rest : List LocatedToken} (hop : operator? p = some op) (operand : OperandReader)
    (left : Expr) : plain (chainRest operator? operand left (⟨.punct p, line⟩ :: rest))
    = plain (operand rest) >>= fun r ↦
        plain (chainRest operator? operand (.binary op left r.1) r.2) := by
  rw [chainRest]
  simp only [hop]
  exact plain_bind fun _ _ _ ↦ plain_bind_pure fun _ _ _ ↦ rfl

theorem plain_chainRest_stop {operator? : Punct → Option BinaryOp} {ts : List LocatedToken}
    (h : ∀ p, lookahead ts = .punct p → operator? p = none) (operand : OperandReader)
    (left : Expr) : plain (chainRest operator? operand left ts) = .ok (left, ts) := by
  rw [chainRest.eq_def]
  split
  · rename_i p line rest
    rw [h p rfl]
    rfl
  · rfl

/-- After its loop has ended, the next token is no operator that the loop may read. -/
theorem ended_of_binaryRest {least : Nat} {left e : Expr} {ts rest : List LocatedToken}
    (h : plain (binaryRest least left ts) = .ok (e, rest)) : Ended least rest := by
  -- The operand after an operator uses up tokens, so the loop goes on with fewer of them.
  obtain ⟨n, hn⟩ : ∃ n, ts.length < n := ⟨_, Nat.lt_succ_self _⟩
  induction n generalizing left ts with
  | zero => exact absurd hn (Nat.not_lt_zero _)
  | succ n ih =>
    obtain hended | ⟨p, line, us, op, rfl, hop, hle⟩ := ended_or_exists_operator least ts
    · rw [plain_binaryRest_stop hended] at h
      cases h
      exact hended
    · rw [plain_binaryRest_operator hop hle] at h
      obtain ⟨⟨right, vs⟩, hright, hmore⟩ := Except.bind_eq_ok.1 h
      exact ih hmore (Nat.lt_trans (length_lt_of_plain hright) (Nat.lt_of_succ_lt_succ hn))

theorem ended_of_binary {least : Nat} {e : Expr} {ts rest : List LocatedToken}
    (h : plain (binary least ts) = .ok (e, rest)) : Ended least rest := by
  rw [plain_binary] at h
  obtain ⟨_, _, hloop⟩ := Except.bind_eq_ok.1 h
  exact ended_of_binaryRest hloop

/-! ## Climbing -/

theorem operator?_of_ended {least : Nat} {operator? : Punct → Option BinaryOp}
    {ts : List LocatedToken} (hops : OperatorsAt least operator?) (h : Ended least ts) (p : Punct)
    (hp : lookahead ts = .punct p) : operator? p = none := by
  by_contra hsome
  obtain ⟨op, hop⟩ := Option.ne_none_iff_exists'.1 hsome
  obtain ⟨hop, heq⟩ := (hops p op).1 hop
  exact (h p op hp hop).ne heq

/-- The loop of a climbing reader is the loop for the stronger operators, and then the loop of the
level. -/
theorem binaryRest_eq_bind {least : Nat} {operator? : Punct → Option BinaryOp}
    (hops : OperatorsAt least operator?) (left : Expr) (ts : List LocatedToken) :
    plain (binaryRest least left ts) = plain (binaryRest (least + 1) left ts) >>= fun r ↦
      plain (chainRest operator? (binary (least + 1)) r.1 r.2) := by
  obtain ⟨n, hn⟩ : ∃ n, ts.length < n := ⟨_, Nat.lt_succ_self _⟩
  induction n generalizing left ts with
  | zero => exact absurd hn (Nat.not_lt_zero _)
  | succ n ih =>
    obtain hended | ⟨p, line, us, op, rfl, hop, hle⟩ := ended_or_exists_operator least ts
    · rw [plain_binaryRest_stop hended, plain_binaryRest_stop (hended.mono (Nat.le_succ least))]
      exact (plain_chainRest_stop (operator?_of_ended hops hended) _ left).symm
    have hless : us.length < n := Nat.lt_of_succ_lt_succ hn
    rw [plain_binaryRest_operator hop hle]
    obtain hlt | heq := Nat.lt_or_eq_of_le hle
    · -- The operator is a stronger one: both readers take it first.
      rw [plain_binaryRest_operator hop hlt, bind_assoc]
      apply plain_bind_congr
      intro right vs _ hvs
      exact ih _ vs (Nat.lt_trans hvs hless)
    · -- The operator is one of the level. What its right operand leaves has no stronger operator in
      -- front, so the loop for the stronger ones stops there at once.
      have hstop : Ended (least + 1) (⟨.punct p, line⟩ :: us) := by
        intro q op' hq hop'
        cases hq
        cases hop.symm.trans hop'
        exact Nat.lt_succ_of_le (Nat.le_of_eq heq.symm)
      rw [plain_binaryRest_stop hstop, ← heq]
      change _ = plain (chainRest operator? (binary (least + 1)) left (⟨.punct p, line⟩ :: us))
      rw [plain_chainRest_operator ((hops p op).2 ⟨hop, heq.symm⟩)]
      apply plain_bind_congr
      intro right vs hright hvs
      rw [ih _ vs (Nat.lt_trans hvs hless), plain_binaryRest_stop (ended_of_binary hright)]
      rfl

/-- Above a precedence stands one more loop, for the operators of that precedence. -/
theorem binary_eq_chain {least : Nat} {operator? : Punct → Option BinaryOp}
    (hops : OperatorsAt least operator?) :
    binary least = chain operator? (binary (least + 1)) := by
  funext ts
  apply plain_injective
  rw [plain_chain, plain_binary, plain_binary, bind_assoc]
  congr 1
  funext r
  exact binaryRest_eq_bind hops r.1 r.2

/-- Without operators to read only an operand is left. -/
theorem binary_of_four_lt {least : Nat} (h : 4 < least) : binary least = unary := by
  funext ts
  apply plain_injective
  rw [plain_binary]
  cases hoperand : plain (unary ts) with
  | error stop => rfl
  | ok r => exact plain_binaryRest_stop (ended_of_four_lt h r.2) r.1

/-- A level without operators is its operands. -/
theorem chain_none (operand : OperandReader) : chain (fun _ ↦ none) operand = operand := by
  funext ts
  apply plain_injective
  rw [plain_chain]
  cases plain (operand ts) with
  | error stop => rfl
  | ok r => exact plain_chainRest_stop (fun _ _ ↦ rfl) operand r.1

theorem operatorsAt_zero : OperatorsAt 0 fun _ ↦ none := by
  intro p op
  have hpos : op.precedence ≠ 0 := Nat.one_le_iff_ne_zero.1 (one_le_precedence op)
  simp [hpos]

theorem binary_zero : binary 0 = binary 1 := by
  rw [binary_eq_chain operatorsAt_zero, chain_none]

/-- **Climbing precedences reads the grammar of levels**: for every precedence, on every list of
tokens, with the same tree and the same remaining tokens, or the same fault before the same
token. -/
theorem binary_eq_layer (least : Nat) (ts : List LocatedToken) :
    binary least ts = layer least ts := by
  have hfour : binary 4 = multiplicative := by
    rw [binary_eq_chain operatorsAt_multiplicativeOp?, binary_of_four_lt (Nat.lt_succ_self 4)]
    rfl
  have hthree : binary 3 = additive := by
    rw [binary_eq_chain operatorsAt_additiveOp?, hfour]
    rfl
  have htwo : binary 2 = relational := by
    rw [binary_eq_chain operatorsAt_relationalOp?, hthree]
    rfl
  have hone : binary 1 = equality := by
    rw [binary_eq_chain operatorsAt_equalityOp?, htwo]
    rfl
  obtain hlt | hle := Nat.lt_or_ge 4 least
  · obtain ⟨k, rfl⟩ := Nat.exists_eq_add_of_le' hlt
    rw [binary_of_four_lt hlt]
    rfl
  · interval_cases least
    · rw [binary_zero, hone]
      rfl
    · rw [hone]
      rfl
    · rw [htwo]
      rfl
    · rw [hthree]
      rfl
    · rw [hfour]
      rfl

end ReactiveFrames.Script.Parser
