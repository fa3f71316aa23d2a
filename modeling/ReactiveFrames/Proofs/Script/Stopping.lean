import ReactiveFrames.Proofs.Script.Locality

/-!
# Where readers of scripts stop

A reader that fails leaves the tokens before which it stopped. They are the end of the tokens that
it was given, the fault is about the first of them, and the reader has looked at nothing behind that
one: it fails in the same way, at the same place, whatever follows there. Values are found in the
same way, so a reader that goes on after another one keeps this.

A reader decides by the next token, with one exception: the word `function` starts a declaration
only before a name. Where none follows, an expression is read, and it has taken the word in when it
stops. For this the number of tokens that a reader takes in at least is carried along.

## Main definitions

* `Parser.outcome`: value or fault of a reader, and the tokens that it has reached.
* `Fault.Concerns`: what a fault says about the next token.
* `Parser.Heeds`: the outcome of a reader depends on the tokens that it takes in and on the next
  one.

## Main statements

* `Parser.readersHeed`: all readers do.
* `Parser.program_stops`: so does the reader of programs.
-/

namespace ReactiveFrames.Script

/-- What a fault that stops a reader says about the next token, which is `none` at the end of the
script. A target that cannot be assigned to stands before it. -/
def Fault.Concerns (next : Option Token) : Fault → Prop
  | .punct p => next ≠ some (.punct p)
  | .identifier => ∀ name, next ≠ some (.word name)
  | .propertyName => next = none ∨ ∃ p, next = some (.punct p)
  | .openBlock => next = none
  | .endOfScript => next = none
  | .token p => next = some (.punct p)
  | .target => True
  | .openComment | .openString | .number _ | .character _ => False

namespace Parser

variable {α β : Type} {n m k : Nat}

/-! ## Outcomes -/

/-- The next token, unless the script ends. -/
def next? (ts : List LocatedToken) : Option Token := ts.head?.map (·.token)

/-- What a reader finds and the tokens that it has reached then. -/
abbrev Outcome (α : Type) := Except Fault α × List LocatedToken

/-- Value or fault of a reader, and the tokens that it has reached. -/
def outcome : Except Stops (Reads n α) → Outcome α
  | .ok r => (.ok r.value, r.rest)
  | .error stop => (.error stop.fault, stop.rest)

/-- Goes on after a value. -/
def Outcome.andThen (p : Outcome α) (s : α → List LocatedToken → Outcome β) : Outcome β :=
  match p with
  | (.ok a, rest) => s a rest
  | (.error fault, rest) => (.error fault, rest)

/-- The place that an expression names is found before the next token. -/
def placed (e : Expr) (ts : List LocatedToken) : Outcome Target :=
  match targetOf e ts with
  | .ok target => (.ok target, ts)
  | .error stop => (.error stop.fault, stop.rest)

theorem length_lt_of_outcome {x : Except Stops (Reads n α)} {a : α} {rest : List LocatedToken}
    (h : outcome x = (.ok a, rest)) : rest.length < n := by
  cases x with
  | error stop => cases h
  | ok r =>
    cases h
    exact r.length_lt

theorem length_le_of_outcome {x : Except Stops (Reads (n + 1) α)} {a : α}
    {rest : List LocatedToken} (h : outcome x = (.ok a, rest)) : rest.length ≤ n :=
  Nat.le_of_lt_succ (length_lt_of_outcome h)

theorem eq_of_placed {e : Expr} {ts rest : List LocatedToken} {target : Target}
    (h : placed e ts = (.ok target, rest)) : rest = ts := by
  unfold placed at h
  split at h
  · cases h
    rfl
  · cases h

theorem outcome_bind {x : Except Stops (Reads n α)} {next : Reads n α → Except Stops (Reads m β)}
    {s : α → List LocatedToken → Outcome β}
    (h : ∀ a rest hlt, outcome (next ⟨a, rest, hlt⟩) = s a rest) :
    outcome (x >>= next) = (outcome x).andThen s := by
  cases x with
  | error stop => rfl
  | ok r => exact h r.value r.rest r.length_lt

/-- The last reader in a row gives the value. -/
theorem outcome_bind_pure {x : Except Stops (Reads n α)}
    {next : Reads n α → Except Stops (Reads m α)}
    (h : ∀ a rest hlt, outcome (next ⟨a, rest, hlt⟩) = (.ok a, rest)) :
    outcome (x >>= next) = outcome x := by
  cases x with
  | error stop => rfl
  | ok r => exact h r.value r.rest r.length_lt

theorem outcome_targetOf {e : Expr} {ts : List LocatedToken}
    {next : Target → Except Stops (Reads m β)} {s : Target → List LocatedToken → Outcome β}
    (h : ∀ target, outcome (next target) = s target ts) :
    outcome (targetOf e ts >>= next) = (placed e ts).andThen s := by
  unfold placed
  cases targetOf e ts with
  | error stop => rfl
  | ok target => exact h target

theorem next?_append {front ts us : List LocatedToken} (h : next? us = next? ts) :
    next? (front ++ us) = next? (front ++ ts) := by
  cases front with
  | nil => exact h
  | cons t front => rfl

/-- Readers that do not ask for a closing brace need not tell it from the end of the script. -/
theorem lookahead_eq_iff {t : Token} (ht : t ≠ .punct .closeBrace) (ts : List LocatedToken) :
    lookahead ts = t ↔ next? ts = some t := by
  cases ts with
  | nil => simpa [lookahead, next?] using ht.symm
  | cons u ts => simp [lookahead, next?]

theorem exists_of_next? {t : Token} {ts : List LocatedToken} (h : next? ts = some t) :
    ∃ line rest, ts = ⟨t, line⟩ :: rest := by
  cases ts with
  | nil => cases h
  | cons u rest =>
    obtain ⟨token, line⟩ := u
    cases h
    exact ⟨line, rest, rfl⟩

/-! ## Readers that heed the next token -/

/-- The reader takes in at least `k` tokens and stops before the others. A fault is about the next
one, and the outcome is the same whatever stands behind it. -/
def Heeds (k : Nat) (r : List LocatedToken → Outcome α) (ts : List LocatedToken) : Prop :=
  ∃ found front rest, ts = front ++ rest ∧ k ≤ front.length ∧
    (∀ fault, found = .error fault → fault.Concerns (next? rest)) ∧
    ∀ tail, next? tail = next? rest → r (front ++ tail) = (found, tail)

namespace Heeds

variable {j : Nat} {ts : List LocatedToken} {r s : List LocatedToken → Outcome α}

theorem of_le (h : Heeds j r ts) (hk : k ≤ j) : Heeds k r ts := by
  obtain ⟨found, front, rest, hts, hfront, hstop⟩ := h
  exact ⟨found, front, rest, hts, Nat.le_trans hk hfront, hstop⟩

theorem done (a : α) : Heeds 0 (fun us ↦ (.ok a, us)) ts := by
  refine ⟨.ok a, [], ts, rfl, Nat.le_refl 0, ?_, fun tail _ ↦ rfl⟩
  intro fault h
  cases h

theorem fail {fault : Fault} (h : fault.Concerns (next? ts)) :
    Heeds 0 (fun us ↦ ((.error fault, us) : Outcome α)) ts := by
  refine ⟨.error fault, [], ts, rfl, Nat.le_refl 0, ?_, fun tail _ ↦ rfl⟩
  rintro fault' ⟨rfl⟩
  exact h

/-- The reader looks at the next token first. -/
theorem congr (h : Heeds k s ts) (heq : ∀ us, next? us = next? ts → r us = s us) :
    Heeds k r ts := by
  obtain ⟨found, front, rest, rfl, hfront, hfault, hagain⟩ := h
  refine ⟨found, front, rest, rfl, hfront, hfault, fun tail htail ↦ ?_⟩
  rw [heq _ (next?_append htail), hagain tail htail]

/-- The reader passes the next token. -/
theorem token {t : LocatedToken} (h : Heeds k s ts)
    (heq : ∀ us, next? us = next? ts → r (t :: us) = s us) : Heeds (k + 1) r (t :: ts) := by
  obtain ⟨found, front, rest, rfl, hfront, hfault, hagain⟩ := h
  refine ⟨found, t :: front, rest, rfl, Nat.succ_le_succ hfront, hfault, fun tail htail ↦ ?_⟩
  rw [List.cons_append, heq _ (next?_append htail), hagain tail htail]

/-- The reader looks at the next two tokens first, of which it takes in one. -/
theorem congr_tail (h : Heeds 1 s ts)
    (heq : ∀ us, next? us = next? ts → next? us.tail = next? ts.tail → r us = s us) :
    Heeds 1 r ts := by
  obtain ⟨found, front, rest, rfl, hfront, hfault, hagain⟩ := h
  refine ⟨found, front, rest, rfl, hfront, hfault, fun tail htail ↦ ?_⟩
  cases front with
  | nil => cases hfront
  | cons t front =>
    rw [heq _ (next?_append htail) (@next?_append front rest tail htail), hagain tail htail]

/-- One reader after another one. -/
theorem bind {s : α → List LocatedToken → Outcome β} (h : Heeds k r ts)
    (hs : ∀ a rest, r ts = (.ok a, rest) → Heeds 0 (s a) rest) :
    Heeds k (fun us ↦ (r us).andThen s) ts := by
  obtain ⟨found, front, rest, rfl, hfront, hfault, hagain⟩ := h
  cases found with
  | error fault =>
    refine ⟨.error fault, front, rest, rfl, hfront, ?_, fun tail htail ↦ ?_⟩
    · rintro fault' ⟨rfl⟩
      exact hfault fault rfl
    · simp only [hagain tail htail]
      rfl
  | ok a =>
    obtain ⟨found, back, rest, rfl, -, hfault', hagain'⟩ := hs a rest (hagain rest rfl)
    refine ⟨found, front ++ back, rest, (List.append_assoc ..).symm, ?_, hfault',
      fun tail htail ↦ ?_⟩
    · rw [List.length_append]
      exact Nat.le_trans hfront (Nat.le_add_right _ _)
    · simp only [List.append_assoc, hagain (back ++ tail) (next?_append htail)]
      exact hagain' tail htail

theorem ite (c : Bool) (h : c = true → Heeds k r ts) (h' : c = false → Heeds k s ts) :
    Heeds k (fun us ↦ if c then r us else s us) ts := by
  cases c
  · exact h' rfl
  · exact h rfl

/-- The next token is one that the reader passes. -/
theorem passing {t : Token} (hnext : next? ts = some t)
    (h : ∀ rest : List LocatedToken, rest.length < ts.length → Heeds 0 s rest)
    (heq : ∀ line us, r (⟨t, line⟩ :: us) = s us) : Heeds 1 r ts := by
  obtain ⟨line, rest, rfl⟩ := exists_of_next? hnext
  exact token (h rest (by simp)) fun us _ ↦ heq line us

theorem passed {t : Token} (hnext : next? ts = some t)
    (h : ∀ rest : List LocatedToken, rest.length < ts.length → Heeds 0 s rest)
    (heq : ∀ line us, r (⟨t, line⟩ :: us) = s us) : Heeds 0 r ts :=
  (passing hnext h heq).of_le (Nat.zero_le 1)

end Heeds

/-- The reader heeds the next token. -/
def Heeding {b : List LocatedToken → Nat} (k : Nat)
    (r : (ts : List LocatedToken) → Except Stops (Reads (b ts) α)) (ts : List LocatedToken) :
    Prop :=
  Heeds k (fun us ↦ outcome (r us)) ts

/-! ## Single tokens -/

section Tokens

variable (ts : List LocatedToken)

/-- A reader that takes in the next token if something is made of it, and has another outcome before
it otherwise. -/
theorem heeds_first {r : List LocatedToken → Outcome α} (f : Token → Option α)
    (otherwise : Except Fault α) (hnil : r [] = (otherwise, []))
    (hcons : ∀ t us, r (t :: us) = (f t.token).elim (otherwise, t :: us) fun a ↦ (.ok a, us))
    (hfault : ∀ fault, otherwise = .error fault →
      ∀ next : Option Token, (∀ t, next = some t → f t = none) → fault.Concerns next) :
    Heeds 0 r ts := by
  have hstop : (∀ t, next? ts = some t → f t = none) →
      ∀ us, next? us = next? ts → r us = (otherwise, us) := by
    intro hnone us hus
    cases us with
    | nil => exact hnil
    | cons u us => rw [hcons, hnone u.token hus.symm, Option.elim_none]
  cases ts with
  | nil =>
    have hnone : ∀ t, next? [] = some t → f t = none := by
      rintro t ⟨⟩
    exact ⟨otherwise, [], [], rfl, Nat.le_refl 0, fun fault h ↦ hfault fault h _ hnone,
      hstop hnone⟩
  | cons t rest =>
    cases ha : f t.token with
    | none =>
      have hnone : ∀ u, next? (t :: rest) = some u → f u = none := by
        rintro u ⟨⟩
        exact ha
      exact ⟨otherwise, [], t :: rest, rfl, Nat.le_refl 0, fun fault h ↦ hfault fault h _ hnone,
        hstop hnone⟩
    | some a =>
      refine (Heeds.token (.done a) fun us _ ↦ ?_).of_le (Nat.zero_le 1)
      rw [hcons, ha, Option.elim_some]

/-- The token is the punctuator. -/
def mark? (p : Punct) : Token → Option Unit
  | .punct q => if q = p then some () else none
  | _ => none

theorem heeding_punct (p : Punct) : Heeding 0 (punct p) ts := by
  refine heeds_first ts (mark? p) (.error (.punct p)) rfl ?_ ?_
  · rintro ⟨token, line⟩ us
    cases token with
    | punct q => by_cases h : q = p <;> simp [punct, mark?, h, outcome]
    | _ => rfl
  · rintro fault ⟨rfl⟩ next hnext rfl
    have hmark := hnext (.punct p) rfl
    rw [mark?, if_pos rfl] at hmark
    cases hmark

theorem heeds_punct? (p : Punct) : Heeds 0 (fun us ↦ outcome (.ok (punct? p us))) ts := by
  refine heeds_first ts (fun t ↦ (mark? p t).map fun _ ↦ true) (.ok false) rfl ?_ ?_
  · rintro ⟨token, line⟩ us
    cases token with
    | punct q => by_cases h : q = p <;> simp [punct?, mark?, h, outcome]
    | _ => rfl
  · rintro fault ⟨⟩

theorem heeding_word : Heeding 0 word ts := by
  refine heeds_first ts Token.word? (.error .identifier) rfl ?_ ?_
  · rintro ⟨token, line⟩ us
    cases token <;> rfl
  · rintro fault ⟨rfl⟩ next hnext name rfl
    cases hnext (.word name) rfl

theorem heeds_word? : Heeds 0 (fun us ↦ outcome (.ok (word? us))) ts := by
  refine heeds_first ts (fun t ↦ t.word?.map some) (.ok none) rfl ?_ ?_
  · rintro ⟨token, line⟩ us
    cases token <;> rfl
  · rintro fault ⟨⟩

theorem heeds_keyword? (keywords : List String) :
    Heeds 0 (fun us ↦ outcome (.ok (keyword? keywords us))) ts := by
  refine heeds_first ts
    (fun t ↦ t.word?.bind fun name ↦ if name ∈ keywords then some true else none)
    (.ok false) rfl ?_ ?_
  · rintro ⟨token, line⟩ us
    cases token with
    | word name => by_cases h : name ∈ keywords <;> simp [keyword?, Token.word?, h, outcome]
    | _ => rfl
  · rintro fault ⟨⟩

theorem heeding_propertyName : Heeding 0 propertyName ts := by
  refine heeds_first ts Token.propertyName? (.error .propertyName) rfl ?_ ?_
  · rintro ⟨token, line⟩ us
    cases token <;> rfl
  · rintro fault ⟨rfl⟩ next hnext
    cases next with
    | none => exact Or.inl rfl
    | some t =>
      cases t with
      | punct p => exact Or.inr ⟨p, rfl⟩
      | _ => cases hnext _ rfl

theorem heeds_placed (e : Expr) : Heeds 0 (placed e) ts := by
  unfold placed targetOf
  split
  · exact .done _
  · exact .done _
  · exact .done _
  · exact .fail trivial

/-- The choice of a reader by something that depends on the next token. -/
theorem heeds_choice {r s : List LocatedToken → Outcome α} {c : List LocatedToken → Bool}
    (hc : ∀ us, next? us = next? ts → c us = c ts) (h : c ts = true → Heeds k r ts)
    (h' : c ts = false → Heeds k s ts) : Heeds k (fun us ↦ if c us then r us else s us) ts := by
  refine .congr (.ite (c ts) h h') fun us hus ↦ ?_
  rw [hc us hus]

variable {ts} in
theorem atPunct_congr {us : List LocatedToken} (p : Punct) (h : next? us = next? ts) :
    atPunct p us = atPunct p ts := by
  cases ts with
  | nil =>
    cases us with
    | nil => rfl
    | cons u us => cases h
  | cons t ts =>
    obtain ⟨line, rest, rfl⟩ := exists_of_next? h
    obtain ⟨token, line'⟩ := t
    cases token <;> rfl

theorem heeds_atPunct {r s : List LocatedToken → Outcome α} (p : Punct)
    (h : atPunct p ts = true → Heeds k r ts) (h' : atPunct p ts = false → Heeds k s ts) :
    Heeds k (fun us ↦ if atPunct p us then r us else s us) ts :=
  heeds_choice ts (fun _ hus ↦ atPunct_congr p hus) h h'

end Tokens

/-! ## Parameters -/

theorem heeding_moreParameters (ts : List LocatedToken) : Heeding 0 moreParameters ts := by
  induction hn : ts.length using Nat.strongRecOn generalizing ts with
  | ind n ih =>
    by_cases hnext : next? ts = some (.punct .closeParen)
    · refine .passed hnext (fun _ _ ↦ .done []) fun line us ↦ ?_
      rw [moreParameters]
      rfl
    · refine .congr (.bind (heeding_punct ts .comma) fun _ rest h ↦
        .bind (heeding_word rest) fun name rest' h' ↦
          .bind (ih _ ?_ rest' rfl) fun more _ _ ↦ .done (name :: more)) fun us hus ↦ ?_
      · have := length_lt_of_outcome h
        have := length_lt_of_outcome h'
        omega
      · rw [moreParameters.eq_def]
        split
        · exact absurd hus.symm hnext
        · exact outcome_bind fun _ _ _ ↦ outcome_bind fun _ _ _ ↦ outcome_bind fun _ _ _ ↦ rfl

theorem heeding_parameters (ts : List LocatedToken) : Heeding 0 parameters ts := by
  by_cases hnext : next? ts = some (.punct .closeParen)
  · exact .passed hnext (fun _ _ ↦ .done []) fun _ _ ↦ rfl
  · refine .congr (.bind (heeding_word ts) fun name rest _ ↦
      .bind (heeding_moreParameters rest) fun more _ _ ↦ .done (name :: more)) fun us hus ↦ ?_
    unfold parameters
    split
    · exact absurd hus.symm hnext
    · exact outcome_bind fun _ _ _ ↦ outcome_bind fun _ _ _ ↦ rfl

/-! ## Expressions -/

/-- The readers that are called on fewer tokens than their callers. -/
structure ReadersHeed (ts : List LocatedToken) : Prop where
  assignment : Heeding 0 assignment ts
  arrayItems : Heeding 0 arrayItems ts
  objectEntries : Heeding 0 objectEntries ts
  arguments : Heeding 0 arguments ts
  moreArguments : Heeding 0 moreArguments ts
  postfixRest (left : Expr) : Heeding 0 (postfixRest left) ts
  unary : Heeding 0 unary ts
  binary (least : Nat) : Heeding 0 (binary least) ts
  binaryRest (least : Nat) (left : Expr) : Heeding 0 (binaryRest least left) ts
  conjunction : Heeding 0 conjunction ts
  conjunctionRest (left : Expr) : Heeding 0 (conjunctionRest left) ts
  disjunctionRest (left : Expr) : Heeding 0 (disjunctionRest left) ts
  assignmentRest (left : Expr) : Heeding 0 (assignmentRest left) ts
  functionRest : Heeding 0 functionRest ts
  blockBody : Heeding 0 blockBody ts
  declarations : Heeding 0 declarations ts
  initializer : Heeding 0 initializer ts
  optional (p : Punct) : Heeding 0 (optional p) ts
  loopInit : Heeding 0 loopInit ts
  alternative : Heeding 0 alternative ts
  keywordStatement (keyword : String) : Heeding 0 (keywordStatement keyword) ts
  statement : Heeding 0 statement ts

section Step

variable {ts : List LocatedToken}
  (ih : ∀ us : List LocatedToken, us.length < ts.length → ReadersHeed us)
include ih

theorem heeding_conjunctionRest (left : Expr) : Heeding 0 (conjunctionRest left) ts := by
  by_cases hnext : next? ts = some (.punct .and)
  · refine .passed hnext (fun rest hlt ↦
      .bind ((ih rest hlt).binary 0) fun right rest' h ↦
        (ih rest' ?_).conjunctionRest (.logical .and left right)) fun line us ↦ ?_
    · exact Nat.lt_trans (length_lt_of_outcome h) hlt
    · rw [conjunctionRest]
      exact outcome_bind fun _ _ _ ↦ outcome_bind_pure fun _ _ _ ↦ rfl
  · refine .congr (.done left) fun us hus ↦ ?_
    unfold conjunctionRest
    split
    · exact absurd hus.symm hnext
    · rfl

theorem heeding_disjunctionRest (left : Expr) : Heeding 0 (disjunctionRest left) ts := by
  by_cases hnext : next? ts = some (.punct .or)
  · refine .passed hnext (fun rest hlt ↦
      .bind ((ih rest hlt).conjunction) fun right rest' h ↦
        (ih rest' ?_).disjunctionRest (.logical .or left right)) fun line us ↦ ?_
    · exact Nat.lt_trans (length_lt_of_outcome h) hlt
    · rw [disjunctionRest]
      exact outcome_bind fun _ _ _ ↦ outcome_bind_pure fun _ _ _ ↦ rfl
  · refine .congr (.done left) fun us hus ↦ ?_
    unfold disjunctionRest
    split
    · exact absurd hus.symm hnext
    · rfl

theorem heeding_postfixRest (left : Expr) : Heeding 0 (postfixRest left) ts := by
  by_cases hdot : next? ts = some (.punct .dot)
  · refine .passed hdot (fun rest hlt ↦
      .bind (heeding_word rest) fun property rest' h ↦
        (ih rest' ?_).postfixRest (.member left property)) fun line us ↦ ?_
    · exact Nat.lt_trans (length_lt_of_outcome h) hlt
    · rw [postfixRest]
      exact outcome_bind fun _ _ _ ↦ outcome_bind_pure fun _ _ _ ↦ rfl
  by_cases hbracket : next? ts = some (.punct .openBracket)
  · refine .passed hbracket (fun rest hlt ↦
      .bind ((ih rest hlt).assignment) fun index rest' h ↦
        .bind (heeding_punct rest' .closeBracket) fun _ rest'' h' ↦
          (ih rest'' ?_).postfixRest (.index left index)) fun line us ↦ ?_
    · exact Nat.lt_trans (length_lt_of_outcome h') (Nat.lt_trans (length_lt_of_outcome h) hlt)
    · rw [postfixRest]
      exact outcome_bind fun _ _ _ ↦ outcome_bind fun _ _ _ ↦ outcome_bind_pure fun _ _ _ ↦ rfl
  by_cases hparen : next? ts = some (.punct .openParen)
  · refine .passed hparen (fun rest hlt ↦
      .bind ((ih rest hlt).arguments) fun es rest' h ↦
        (ih rest' ?_).postfixRest (.call left es)) fun line us ↦ ?_
    · exact Nat.lt_trans (length_lt_of_outcome h) hlt
    · rw [postfixRest]
      exact outcome_bind fun _ _ _ ↦ outcome_bind_pure fun _ _ _ ↦ rfl
  by_cases hincrement : next? ts = some (.punct .increment)
  · refine .passed hincrement (fun rest hlt ↦
      .bind (heeds_placed rest left) fun target rest' h ↦
        (ih rest' ?_).postfixRest (.update true false target)) fun line us ↦ ?_
    · rwa [eq_of_placed h]
    · rw [postfixRest]
      exact outcome_targetOf fun _ ↦ outcome_bind_pure fun _ _ _ ↦ rfl
  by_cases hdecrement : next? ts = some (.punct .decrement)
  · refine .passed hdecrement (fun rest hlt ↦
      .bind (heeds_placed rest left) fun target rest' h ↦
        (ih rest' ?_).postfixRest (.update false false target)) fun line us ↦ ?_
    · rwa [eq_of_placed h]
    · rw [postfixRest]
      exact outcome_targetOf fun _ ↦ outcome_bind_pure fun _ _ _ ↦ rfl
  refine .congr (.done left) fun us hus ↦ ?_
  unfold postfixRest
  split
  · exact absurd hus.symm hdot
  · exact absurd hus.symm hbracket
  · exact absurd hus.symm hparen
  · exact absurd hus.symm hincrement
  · exact absurd hus.symm hdecrement
  · rfl

/-- The keyword of a function is taken in. -/
theorem heeding_primary_function (hnext : next? ts = some (.word "function")) :
    Heeding 1 primary ts := by
  refine .passing hnext (fun rest hlt ↦ .bind (ih rest hlt).functionRest fun f _ _ ↦
    .done (Expr.function f)) fun line us ↦ ?_
  rw [primary]
  exact outcome_bind fun _ _ _ ↦ rfl

theorem heeding_primary : Heeding 0 primary ts := by
  cases hnext : next? ts with
  | none =>
    refine .congr (.fail (show Fault.endOfScript.Concerns (next? ts) from hnext)) fun us hus ↦ ?_
    rw [hnext] at hus
    cases us with
    | nil => rw [primary]; rfl
    | cons u us => cases hus
  | some t =>
    cases t with
    | number x =>
      refine .passed hnext (fun _ _ ↦ .done (Expr.number x)) fun _ _ ↦ ?_
      rw [primary]
      rfl
    | string s =>
      refine .passed hnext (fun _ _ ↦ .done (Expr.string s)) fun _ _ ↦ ?_
      rw [primary]
      rfl
    | word name =>
      by_cases hname : name = "function"
      · subst hname
        exact (heeding_primary_function ih hnext).of_le (Nat.zero_le 1)
      · refine .passed hnext (fun _ _ ↦ .done (wordExpr name)) fun _ _ ↦ ?_
        rw [primary]
        · rfl
        · exact hname
    | punct p =>
      by_cases hparen : p = .openParen
      · subst hparen
        refine .passed hnext (fun rest hlt ↦ .bind (ih rest hlt).assignment fun e rest' _ ↦
          .bind (heeding_punct rest' .closeParen) fun _ _ _ ↦ .done e) fun _ us ↦ ?_
        rw [primary]
        exact outcome_bind fun _ _ _ ↦ outcome_bind fun _ _ _ ↦ rfl
      by_cases hbracket : p = .openBracket
      · subst hbracket
        refine .passed hnext (fun rest hlt ↦ .bind (ih rest hlt).arrayItems fun items _ _ ↦
          .done (Expr.array items)) fun _ us ↦ ?_
        rw [primary]
        exact outcome_bind fun _ _ _ ↦ rfl
      by_cases hbrace : p = .openBrace
      · subst hbrace
        refine .passed hnext (fun rest hlt ↦ .bind (ih rest hlt).objectEntries fun entries _ _ ↦
          .done (Expr.object entries)) fun _ us ↦ ?_
        rw [primary]
        exact outcome_bind fun _ _ _ ↦ rfl
      refine .congr (.fail (show (Fault.token p).Concerns (next? ts) from hnext)) fun us hus ↦ ?_
      obtain ⟨line, rest, rfl⟩ := exists_of_next? (hus.trans hnext)
      rw [primary]
      · rfl
      · exact hparen
      · exact hbracket
      · exact hbrace

theorem heeding_postfixExpr (h : Heeding k primary ts) : Heeding k postfixExpr ts := by
  refine .congr (.bind h fun e rest hrest ↦
    (ih rest (length_lt_of_outcome hrest)).postfixRest e) fun us _ ↦ ?_
  rw [postfixExpr]
  exact outcome_bind fun _ _ _ ↦ outcome_bind_pure fun _ _ _ ↦ rfl

theorem heeding_unary (hk : k ≤ 1) (h : Heeding k primary ts) : Heeding k unary ts := by
  cases hnext : next? ts with
  | none =>
    refine .congr (heeding_postfixExpr ih h) fun us hus ↦ ?_
    rw [hnext] at hus
    cases us with
    | nil => rw [unary]
    | cons u us => cases hus
  | some t =>
    cases hop : unaryOp? t with
    | some op =>
      refine Heeds.of_le (.passing hnext (fun rest hlt ↦
        .bind (ih rest hlt).unary fun e _ _ ↦ .done (Expr.unary op e)) fun _ us ↦ ?_) hk
      simp only [unary, hop]
      exact outcome_bind fun _ _ _ ↦ rfl
    | none =>
      cases hupdate : updateOp? t with
      | some increment =>
        refine Heeds.of_le (.passing hnext (fun rest hlt ↦
          .bind (ih rest hlt).unary fun e rest' _ ↦ .bind (heeds_placed rest' e) fun target _ _ ↦
            .done (Expr.update increment true target)) fun _ us ↦ ?_) hk
        simp only [unary, hop, hupdate]
        exact outcome_bind fun _ _ _ ↦ outcome_targetOf fun _ ↦ rfl
      | none =>
        refine .congr (heeding_postfixExpr ih h) fun us hus ↦ ?_
        obtain ⟨line, rest, rfl⟩ := exists_of_next? (hus.trans hnext)
        simp only [unary, hop, hupdate]

theorem heeding_binary (hk : k ≤ 1) (least : Nat) (h : Heeding k primary ts) :
    Heeding k (binary least) ts := by
  refine .congr (.bind (heeding_unary ih hk h) fun left rest hrest ↦
    (ih rest (length_lt_of_outcome hrest)).binaryRest least left) fun us _ ↦ ?_
  rw [binary]
  exact outcome_bind fun _ _ _ ↦ outcome_bind_pure fun _ _ _ ↦ rfl

theorem heeding_binaryRest (least : Nat) (left : Expr) :
    Heeding 0 (binaryRest least left) ts := by
  by_cases hnext : ∃ p op, next? ts = some (.punct p) ∧ binaryOp? p = some op ∧
      least ≤ op.precedence
  · obtain ⟨p, op, hnext, hop, hleast⟩ := hnext
    refine .passed hnext (fun rest hlt ↦
      .bind ((ih rest hlt).binary (op.precedence + 1)) fun right rest' h ↦
        (ih rest' (Nat.lt_trans (length_lt_of_outcome h) hlt)).binaryRest least
          (.binary op left right)) fun line us ↦ ?_
    simp only [binaryRest, hop, if_neg (Nat.not_lt.2 hleast)]
    exact outcome_bind fun _ _ _ ↦ outcome_bind_pure fun _ _ _ ↦ rfl
  · refine .congr (.done left) fun us hus ↦ ?_
    unfold binaryRest
    split
    · rename_i p line rest
      split
      · rename_i op hop
        rw [if_pos (Nat.lt_of_not_le fun hleast ↦ hnext ⟨p, op, hus.symm, hop, hleast⟩)]
        rfl
      · rfl
    · rfl

theorem heeding_conjunction (hk : k ≤ 1) (h : Heeding k primary ts) :
    Heeding k conjunction ts := by
  refine .congr (.bind (heeding_binary ih hk 0 h) fun left rest hrest ↦
    (ih rest (length_lt_of_outcome hrest)).conjunctionRest left) fun us _ ↦ ?_
  rw [conjunction]
  exact outcome_bind fun _ _ _ ↦ outcome_bind_pure fun _ _ _ ↦ rfl

theorem heeding_disjunction (hk : k ≤ 1) (h : Heeding k primary ts) :
    Heeding k disjunction ts := by
  refine .congr (.bind (heeding_conjunction ih hk h) fun left rest hrest ↦
    (ih rest (length_lt_of_outcome hrest)).disjunctionRest left) fun us _ ↦ ?_
  rw [disjunction]
  exact outcome_bind fun _ _ _ ↦ outcome_bind_pure fun _ _ _ ↦ rfl

theorem heeding_conditional (hk : k ≤ 1) (h : Heeding k primary ts) :
    Heeding k conditional ts := by
  refine .congr (.bind (heeding_disjunction ih hk h) fun test rest hrest ↦
    .bind (heeds_punct? rest .question) fun question rest' h' ↦
      .ite question (fun _ ↦ .bind (ih rest' ?_).assignment fun consequent rest'' h'' ↦
        .bind (heeding_punct rest'' .colon) fun _ rest₃ h₃ ↦
          .bind (ih rest₃ ?_).assignment fun alternate _ _ ↦
            .done (Expr.conditional test consequent alternate)) fun _ ↦ .done test)
    fun us _ ↦ ?_
  · have := length_lt_of_outcome hrest
    have := length_le_of_outcome h'
    omega
  · have := length_lt_of_outcome hrest
    have := length_le_of_outcome h'
    have := length_lt_of_outcome h''
    have := length_lt_of_outcome h₃
    omega
  · rw [conditional]
    refine outcome_bind fun test rest _ ↦ ?_
    dsimp only
    obtain ⟨question, rest', _⟩ := punct? .question rest
    cases question
    · rfl
    · exact outcome_bind fun _ _ _ ↦ outcome_bind fun _ _ _ ↦ outcome_bind fun _ _ _ ↦ rfl

theorem heeding_assignment_of_primary (hk : k ≤ 1) (h : Heeding k primary ts) :
    Heeding k assignment ts := by
  refine .congr (.bind (heeding_conditional ih hk h) fun e rest hrest ↦
    (ih rest (length_lt_of_outcome hrest)).assignmentRest e) fun us _ ↦ ?_
  rw [assignment]
  exact outcome_bind fun _ _ _ ↦ outcome_bind_pure fun _ _ _ ↦ rfl

theorem heeding_assignment : Heeding 0 assignment ts :=
  heeding_assignment_of_primary ih (Nat.zero_le 1) (heeding_primary ih)

theorem heeding_assignmentRest (left : Expr) : Heeding 0 (assignmentRest left) ts := by
  by_cases hnext : ∃ p op, next? ts = some (.punct p) ∧ assignOp? p = some op
  · obtain ⟨p, op, hnext, hop⟩ := hnext
    refine .passed hnext (fun rest hlt ↦ .bind (heeds_placed rest left) fun target rest' h ↦
      .bind (ih rest' ?_).assignment fun value _ _ ↦ .done (Expr.assign op target value))
      fun line us ↦ ?_
    · rwa [eq_of_placed h]
    · simp only [assignmentRest, hop]
      exact outcome_targetOf fun _ ↦ outcome_bind fun _ _ _ ↦ rfl
  · refine .congr (.done left) fun us hus ↦ ?_
    unfold assignmentRest
    split
    · rename_i p line rest
      split
      · rename_i op hop
        exact absurd ⟨p, op, hus.symm, hop⟩ hnext
      · rfl
    · rfl

theorem heeding_arrayItems : Heeding 0 arrayItems ts := by
  by_cases hnext : next? ts = some (.punct .closeBracket)
  · refine .passed hnext (fun _ _ ↦ .done []) fun line us ↦ ?_
    rw [arrayItems]
    rfl
  · refine .congr (.bind (heeding_assignment ih) fun item rest h ↦ heeds_atPunct rest .closeBracket
      (fun _ ↦ .bind (heeding_punct rest .closeBracket) fun _ _ _ ↦ .done [item])
      fun _ ↦ .bind (heeding_punct rest .comma) fun _ rest' h' ↦
        .bind (ih rest' ?_).arrayItems fun more _ _ ↦ .done (item :: more)) fun us hus ↦ ?_
    · exact Nat.lt_trans (length_lt_of_outcome h') (length_lt_of_outcome h)
    · rw [arrayItems.eq_def]
      split
      · exact absurd hus.symm hnext
      · refine outcome_bind fun item rest _ ↦ ?_
        dsimp only
        split
        · exact outcome_bind fun _ _ _ ↦ rfl
        · exact outcome_bind fun _ _ _ ↦ outcome_bind fun _ _ _ ↦ rfl

theorem heeding_objectEntries : Heeding 0 objectEntries ts := by
  by_cases hnext : next? ts = some (.punct .closeBrace)
  · refine .passed hnext (fun _ _ ↦ .done []) fun line us ↦ ?_
    rw [objectEntries]
    rfl
  · refine .congr (.bind (heeding_propertyName ts) fun name rest h ↦
      .bind (heeding_punct rest .colon) fun _ rest' h' ↦
        .bind (ih rest' ?_).assignment fun value rest'' h'' ↦ heeds_atPunct rest'' .closeBrace
          (fun _ ↦ .bind (heeding_punct rest'' .closeBrace) fun _ _ _ ↦ .done [(name, value)])
          fun _ ↦ .bind (heeding_punct rest'' .comma) fun _ rest₃ h₃ ↦
            .bind (ih rest₃ ?_).objectEntries fun more _ _ ↦ .done ((name, value) :: more))
      fun us hus ↦ ?_
    · exact Nat.lt_trans (length_lt_of_outcome h') (length_lt_of_outcome h)
    · have := length_lt_of_outcome h
      have := length_lt_of_outcome h'
      have := length_lt_of_outcome h''
      have := length_lt_of_outcome h₃
      omega
    · rw [objectEntries.eq_def]
      split
      · exact absurd hus.symm hnext
      · refine outcome_bind fun name rest _ ↦ outcome_bind fun _ rest' _ ↦
          outcome_bind fun value rest'' _ ↦ ?_
        dsimp only
        split
        · exact outcome_bind fun _ _ _ ↦ rfl
        · exact outcome_bind fun _ _ _ ↦ outcome_bind fun _ _ _ ↦ rfl

theorem heeding_moreArguments : Heeding 0 moreArguments ts := by
  by_cases hnext : next? ts = some (.punct .closeParen)
  · refine .passed hnext (fun _ _ ↦ .done []) fun line us ↦ ?_
    rw [moreArguments]
    rfl
  · refine .congr (.bind (heeding_punct ts .comma) fun _ rest h ↦
      .bind (ih rest (length_lt_of_outcome h)).assignment fun e rest' h' ↦
        .bind (ih rest' ?_).moreArguments fun more _ _ ↦ .done (e :: more)) fun us hus ↦ ?_
    · exact Nat.lt_trans (length_lt_of_outcome h') (length_lt_of_outcome h)
    · rw [moreArguments.eq_def]
      split
      · exact absurd hus.symm hnext
      · exact outcome_bind fun _ _ _ ↦ outcome_bind fun _ _ _ ↦ outcome_bind fun _ _ _ ↦ rfl

theorem heeding_arguments : Heeding 0 arguments ts := by
  by_cases hnext : next? ts = some (.punct .closeParen)
  · refine .passed hnext (fun _ _ ↦ .done []) fun line us ↦ ?_
    rw [arguments]
    rfl
  · refine .congr (.bind (heeding_assignment ih) fun e rest h ↦
      .bind (ih rest (length_lt_of_outcome h)).moreArguments fun more _ _ ↦ .done (e :: more))
      fun us hus ↦ ?_
    rw [arguments.eq_def]
    split
    · exact absurd hus.symm hnext
    · exact outcome_bind fun _ _ _ ↦ outcome_bind fun _ _ _ ↦ rfl

/-! ## Statements -/

theorem heeding_functionRest : Heeding 0 functionRest ts := by
  refine .congr (.bind (heeds_word? ts) fun name rest h ↦
    .bind (heeding_punct rest .openParen) fun _ rest' h' ↦
      .bind (heeding_parameters rest') fun names rest'' h'' ↦
        .bind (heeding_punct rest'' .openBrace) fun _ rest₃ h₃ ↦
          .bind (ih rest₃ ?_).blockBody fun body _ _ ↦
            .done (FunctionDecl.mk name names body)) fun us _ ↦ ?_
  · have := length_le_of_outcome h
    have := length_lt_of_outcome h'
    have := length_lt_of_outcome h''
    have := length_lt_of_outcome h₃
    omega
  · rw [functionRest]
    obtain ⟨name, rest, _⟩ := word? us
    exact outcome_bind fun _ _ _ ↦ outcome_bind fun _ _ _ ↦ outcome_bind fun _ _ _ ↦
      outcome_bind fun _ _ _ ↦ rfl

theorem heeding_initializer : Heeding 0 initializer ts := by
  by_cases hnext : next? ts = some (.punct .assign)
  · refine .passed hnext (fun rest hlt ↦
      .bind (ih rest hlt).assignment fun e _ _ ↦ .done (some e)) fun line us ↦ ?_
    rw [initializer]
    exact outcome_bind fun _ _ _ ↦ rfl
  · refine .congr (.done none) fun us hus ↦ ?_
    unfold initializer
    split
    · exact absurd hus.symm hnext
    · rfl

theorem heeding_declarations : Heeding 0 declarations ts := by
  refine .congr (.bind (heeding_word ts) fun name rest h ↦
    .bind (ih rest (length_lt_of_outcome h)).initializer fun initial rest' h' ↦
      .bind (heeds_punct? rest' .comma) fun comma rest'' h'' ↦
        .ite comma (fun _ ↦ .bind (ih rest'' ?_).declarations fun more _ _ ↦
          .done ((name, initial) :: more)) fun _ ↦ .done [(name, initial)]) fun us _ ↦ ?_
  · have := length_lt_of_outcome h
    have := length_le_of_outcome h'
    have := length_le_of_outcome h''
    omega
  · rw [declarations]
    refine outcome_bind fun name rest _ ↦ outcome_bind fun initial rest' _ ↦ ?_
    dsimp only
    obtain ⟨comma, rest'', _⟩ := punct? .comma rest'
    cases comma
    · rfl
    · exact outcome_bind fun _ _ _ ↦ rfl

theorem heeding_test : Heeding 0 test ts := by
  refine .congr (.bind (heeding_punct ts .openParen) fun _ rest h ↦
    .bind (ih rest (length_lt_of_outcome h)).assignment fun e rest' _ ↦
      .bind (heeding_punct rest' .closeParen) fun _ _ _ ↦ .done e) fun us _ ↦ ?_
  rw [test]
  exact outcome_bind fun _ _ _ ↦ outcome_bind fun _ _ _ ↦ outcome_bind fun _ _ _ ↦ rfl

theorem heeding_optional (p : Punct) : Heeding 0 (optional p) ts := by
  refine .congr (heeds_atPunct ts p (fun _ ↦ .done none) fun _ ↦
    .bind (heeding_assignment ih) fun e _ _ ↦ .done (some e)) fun us _ ↦ ?_
  rw [optional]
  split
  · rfl
  · exact outcome_bind fun _ _ _ ↦ rfl

theorem heeding_loopInit : Heeding 0 loopInit ts := by
  by_cases hnext : next? ts = some (.punct .semicolon)
  · refine .passed hnext (fun _ _ ↦ .done none) fun line us ↦ ?_
    rw [loopInit]
    rfl
  · refine .congr (.bind (heeds_keyword? ts declarators) fun declares rest h ↦ .ite declares
      (fun _ ↦ .bind (heeding_declarations fun us hus ↦ ih us ?_) fun declared rest' _ ↦
        .bind (heeding_punct rest' .semicolon) fun _ _ _ ↦ .done (some (Stmt.declare declared)))
      fun _ ↦ .bind (heeding_assignment fun us hus ↦ ih us ?_) fun e rest' _ ↦
        .bind (heeding_punct rest' .semicolon) fun _ _ _ ↦ .done (some (Stmt.expression e)))
      fun us hus ↦ ?_
    · exact Nat.lt_of_lt_of_le hus (length_le_of_outcome h)
    · exact Nat.lt_of_lt_of_le hus (length_le_of_outcome h)
    · rw [loopInit.eq_def]
      split
      · exact absurd hus.symm hnext
      · obtain ⟨declares, rest, _⟩ := keyword? declarators us
        cases declares
        · exact outcome_bind fun _ _ _ ↦ outcome_bind fun _ _ _ ↦ rfl
        · exact outcome_bind fun _ _ _ ↦ outcome_bind fun _ _ _ ↦ rfl

theorem heeding_forRest : Heeding 0 forRest ts := by
  refine .congr (.bind (heeding_punct ts .openParen) fun _ rest h ↦
    .bind (ih rest ?_).loopInit fun init rest' h' ↦
      .bind ((ih rest' ?_).optional .semicolon) fun test rest'' h'' ↦
        .bind (heeding_punct rest'' .semicolon) fun _ rest₃ h₃ ↦
          .bind ((ih rest₃ ?_).optional .closeParen) fun update rest₄ h₄ ↦
            .bind (heeding_punct rest₄ .closeParen) fun _ rest₅ h₅ ↦
              .bind (ih rest₅ ?_).statement fun body _ _ ↦
                .done (Stmt.forLoop init test update body)) fun us _ ↦ ?_
  · exact length_lt_of_outcome h
  · exact Nat.lt_trans (length_lt_of_outcome h') (length_lt_of_outcome h)
  · have := length_lt_of_outcome h
    have := length_lt_of_outcome h'
    have := length_le_of_outcome h''
    have := length_lt_of_outcome h₃
    omega
  · have := length_lt_of_outcome h
    have := length_lt_of_outcome h'
    have := length_le_of_outcome h''
    have := length_lt_of_outcome h₃
    have := length_le_of_outcome h₄
    have := length_lt_of_outcome h₅
    omega
  · rw [forRest]
    exact outcome_bind fun _ _ _ ↦ outcome_bind fun _ _ _ ↦ outcome_bind fun _ _ _ ↦
      outcome_bind fun _ _ _ ↦ outcome_bind fun _ _ _ ↦ outcome_bind fun _ _ _ ↦
        outcome_bind fun _ _ _ ↦ rfl

theorem heeding_alternative : Heeding 0 alternative ts := by
  by_cases hnext : next? ts = some (.word "else")
  · refine .passed hnext (fun rest hlt ↦
      .bind (ih rest hlt).statement fun s _ _ ↦ .done (some s)) fun line us ↦ ?_
    rw [alternative]
    exact outcome_bind fun _ _ _ ↦ rfl
  · refine .congr (.done none) fun us hus ↦ ?_
    unfold alternative
    split
    · exact absurd hus.symm hnext
    · rfl

theorem heeding_returned : Heeding 0 returned ts := by
  have hends : ∀ us, next? us = next? ts →
      (us.isEmpty || atPunct .semicolon us || atPunct .closeBrace us)
        = (ts.isEmpty || atPunct .semicolon ts || atPunct .closeBrace ts) := by
    intro us hus
    have hempty : us.isEmpty = ts.isEmpty := by
      cases us <;> cases ts <;> first | rfl | cases hus
    rw [hempty, atPunct_congr .semicolon hus, atPunct_congr .closeBrace hus]
  refine .congr (heeds_choice ts hends (fun _ ↦ .done none) fun _ ↦
    .bind (heeding_assignment ih) fun e _ _ ↦ .done (some e)) fun us _ ↦ ?_
  rw [returned]
  split
  · rfl
  · exact outcome_bind fun _ _ _ ↦ rfl

theorem heeding_expressionStatement (hk : k ≤ 1) (h : Heeding k primary ts) :
    Heeding k expressionStatement ts := by
  refine .congr (.bind (heeding_assignment_of_primary ih hk h) fun e rest _ ↦
    .bind (heeds_punct? rest .semicolon) fun _ _ _ ↦ .done (Stmt.expression e)) fun us _ ↦ ?_
  rw [expressionStatement]
  exact outcome_bind fun _ _ _ ↦ rfl

theorem heeding_keywordStatement (keyword : String) : Heeding 0 (keywordStatement keyword) ts := by
  by_cases hreturn : keyword = "return"
  · subst hreturn
    refine .congr (.bind (heeding_returned ih) fun value rest _ ↦
      .bind (heeds_punct? rest .semicolon) fun _ _ _ ↦ .done (Stmt.returnValue value))
      fun us _ ↦ ?_
    rw [keywordStatement]
    exact outcome_bind fun _ _ _ ↦ rfl
  by_cases hif : keyword = "if"
  · subst hif
    refine .congr (.bind (heeding_test ih) fun test rest h ↦
      .bind (ih rest (length_lt_of_outcome h)).statement fun consequent rest' h' ↦
        .bind (ih rest' ?_).alternative fun alternate _ _ ↦
          .done (Stmt.branch test consequent alternate)) fun us _ ↦ ?_
    · exact Nat.lt_trans (length_lt_of_outcome h') (length_lt_of_outcome h)
    · rw [keywordStatement]
      exact outcome_bind fun _ _ _ ↦ outcome_bind fun _ _ _ ↦ outcome_bind fun _ _ _ ↦ rfl
  by_cases hwhile : keyword = "while"
  · subst hwhile
    refine .congr (.bind (heeding_test ih) fun test rest h ↦
      .bind (ih rest (length_lt_of_outcome h)).statement fun body _ _ ↦
        .done (Stmt.whileLoop test body)) fun us _ ↦ ?_
    rw [keywordStatement]
    exact outcome_bind fun _ _ _ ↦ outcome_bind fun _ _ _ ↦ rfl
  by_cases hfor : keyword = "for"
  · subst hfor
    refine .congr (heeding_forRest ih) fun us _ ↦ ?_
    rw [keywordStatement]
    exact outcome_bind_pure fun _ _ _ ↦ rfl
  by_cases hbreak : keyword = "break"
  · subst hbreak
    refine .congr (.bind (heeds_punct? ts .semicolon) fun _ _ _ ↦ .done Stmt.breakLoop)
      fun us _ ↦ ?_
    rw [keywordStatement]
    rfl
  by_cases hcontinue : keyword = "continue"
  · subst hcontinue
    refine .congr (.bind (heeds_punct? ts .semicolon) fun _ _ _ ↦ .done Stmt.continueLoop)
      fun us _ ↦ ?_
    rw [keywordStatement]
    rfl
  by_cases hthrow : keyword = "throw"
  · subst hthrow
    refine .congr (.bind (heeding_assignment ih) fun e rest _ ↦
      .bind (heeds_punct? rest .semicolon) fun _ _ _ ↦ .done (Stmt.throwValue e))
      fun us _ ↦ ?_
    rw [keywordStatement]
    exact outcome_bind fun _ _ _ ↦ rfl
  refine .congr (.bind (heeding_declarations ih) fun declared rest _ ↦
    .bind (heeds_punct? rest .semicolon) fun _ _ _ ↦ .done (Stmt.declare declared))
    fun us _ ↦ ?_
  rw [keywordStatement]
  · exact outcome_bind fun _ _ _ ↦ rfl
  all_goals assumption

theorem heeding_blockBody (hstatement : Heeding 0 statement ts) : Heeding 0 blockBody ts := by
  by_cases hclose : next? ts = some (.punct .closeBrace)
  · refine .passed hclose (fun _ _ ↦ .done []) fun line us ↦ ?_
    rw [blockBody]
    rfl
  by_cases hend : next? ts = none
  · refine .congr (.fail (show Fault.openBlock.Concerns (next? ts) from hend)) fun us hus ↦ ?_
    rw [hend] at hus
    cases us with
    | nil =>
      rw [blockBody.eq_def]
      rfl
    | cons u us => cases hus
  refine .congr (.bind hstatement fun s rest h ↦
    .bind (ih rest (length_lt_of_outcome h)).blockBody fun more _ _ ↦ .done (s :: more))
    fun us hus ↦ ?_
  rw [blockBody.eq_def]
  split
  · exact absurd hus.symm hend
  · exact absurd hus.symm hclose
  · exact outcome_bind fun _ _ _ ↦ outcome_bind fun _ _ _ ↦ rfl

theorem heeding_statement : Heeding 0 statement ts := by
  by_cases hsemicolon : next? ts = some (.punct .semicolon)
  · refine .passed hsemicolon (fun _ _ ↦ .done Stmt.empty) fun line us ↦ ?_
    rw [statement]
    rfl
  by_cases hbrace : next? ts = some (.punct .openBrace)
  · refine .passed hbrace (fun rest hlt ↦
      .bind (ih rest hlt).blockBody fun body _ _ ↦ .done (Stmt.block body)) fun line us ↦ ?_
    rw [statement]
    exact outcome_bind fun _ _ _ ↦ rfl
  by_cases hfunction : next? ts = some (.word "function")
  · by_cases hname : ∃ name, next? ts.tail = some (.word name)
    · obtain ⟨name, hname⟩ := hname
      obtain ⟨line, rest, rfl⟩ := exists_of_next? hfunction
      refine Heeds.of_le (.token (.bind (ih rest (by simp)).functionRest fun f _ _ ↦
        .done (Stmt.function f)) fun us hus ↦ ?_) (Nat.zero_le 1)
      obtain ⟨line', rest', rfl⟩ := exists_of_next? (hus.trans hname)
      rw [statement]
      exact outcome_bind fun _ _ _ ↦ rfl
    · have hexpression := heeding_expressionStatement ih (Nat.le_refl 1)
        (heeding_primary_function ih hfunction)
      refine (hexpression.congr_tail fun us hus htail ↦ congrArg outcome ?_).of_le (Nat.zero_le 1)
      refine statement_eq_expressionStatement ?_ ?_ ?_ fun keyword hkeyword ↦ ?_
      · rwa [Ne, lookahead_eq_iff (by simp), hus]
      · rwa [Ne, lookahead_eq_iff (by simp), hus]
      · rintro ⟨-, name, hnext⟩
        rw [lookahead_eq_iff (by simp), htail] at hnext
        exact hname ⟨name, hnext⟩
      · rw [Ne, lookahead_eq_iff (by simp), hus, hfunction]
        rintro ⟨⟩
        exact absurd hkeyword (by decide)
  by_cases hkeyword : ∃ name ∈ statementKeywords, next? ts = some (.word name)
  · obtain ⟨name, hname, hnext⟩ := hkeyword
    refine .passed hnext (fun rest hlt ↦ (ih rest hlt).keywordStatement name) fun line us ↦ ?_
    rw [statement]
    · rw [if_pos (List.mem_append.1 hname)]
      exact outcome_bind_pure fun _ _ _ ↦ rfl
    · rintro _ _ _ - rfl
      exact absurd hname (by decide)
  refine .congr (heeding_expressionStatement ih (Nat.zero_le 1) (heeding_primary ih))
    fun us hus ↦ congrArg outcome ?_
  refine statement_eq_expressionStatement ?_ ?_ ?_ fun keyword hmem ↦ ?_
  · rwa [Ne, lookahead_eq_iff (by simp), hus]
  · rwa [Ne, lookahead_eq_iff (by simp), hus]
  · rintro ⟨hnext, -⟩
    rw [lookahead_eq_iff (by simp), hus] at hnext
    exact hfunction hnext
  · rw [Ne, lookahead_eq_iff (by simp), hus]
    exact fun hnext ↦ hkeyword ⟨keyword, hmem, hnext⟩

theorem readersHeed_step : ReadersHeed ts where
  assignment := heeding_assignment ih
  arrayItems := heeding_arrayItems ih
  objectEntries := heeding_objectEntries ih
  arguments := heeding_arguments ih
  moreArguments := heeding_moreArguments ih
  postfixRest := heeding_postfixRest ih
  unary := heeding_unary ih (Nat.zero_le 1) (heeding_primary ih)
  binary least := heeding_binary ih (Nat.zero_le 1) least (heeding_primary ih)
  binaryRest := heeding_binaryRest ih
  conjunction := heeding_conjunction ih (Nat.zero_le 1) (heeding_primary ih)
  conjunctionRest := heeding_conjunctionRest ih
  disjunctionRest := heeding_disjunctionRest ih
  assignmentRest := heeding_assignmentRest ih
  functionRest := heeding_functionRest ih
  blockBody := heeding_blockBody ih (heeding_statement ih)
  declarations := heeding_declarations ih
  initializer := heeding_initializer ih
  optional := heeding_optional ih
  loopInit := heeding_loopInit ih
  alternative := heeding_alternative ih
  keywordStatement := heeding_keywordStatement ih
  statement := heeding_statement ih

end Step

/-- All readers heed the next token. -/
theorem readersHeed (ts : List LocatedToken) : ReadersHeed ts := by
  induction hn : ts.length using Nat.strongRecOn generalizing ts with
  | ind n ih => exact readersHeed_step fun us hlt ↦ ih us.length (hn ▸ hlt) us rfl

/-! ## Programs -/

theorem program_of_error {ts rest : List LocatedToken} {fault : Fault} (hne : ts ≠ [])
    (h : outcome (statement ts) = (.error fault, rest)) : program ts = .error ⟨fault, rest⟩ := by
  cases ts with
  | nil => exact absurd rfl hne
  | cons t ts =>
    rw [program]
    cases hstatement : statement (t :: ts) with
    | error stop =>
      rw [hstatement] at h
      cases h
      rfl
    | ok r =>
      rw [hstatement] at h
      cases h

theorem program_of_ok {ts rest : List LocatedToken} {s : Stmt}
    (h : outcome (statement ts) = (.ok s, rest)) : program ts = (program rest).map (s :: ·) := by
  cases ts with
  | nil => exact absurd (length_lt_of_outcome h) (Nat.not_lt_zero _)
  | cons t ts =>
    rw [program]
    cases hstatement : statement (t :: ts) with
    | error stop =>
      rw [hstatement] at h
      cases h
    | ok r =>
      rw [hstatement] at h
      cases h
      rfl

/-- Where a text is no program, the reader stops at a token that the fault is about, or at the end,
and it has not looked at what stands behind. -/
theorem program_stops {ts : List LocatedToken} {stop : Stops} (h : program ts = .error stop) :
    stop.fault.Concerns (next? stop.rest) ∧ ∃ front, ts = front ++ stop.rest ∧
      ∀ tail, next? tail = next? stop.rest →
        program (front ++ tail) = .error ⟨stop.fault, tail⟩ := by
  induction hn : ts.length using Nat.strongRecOn generalizing ts with
  | ind n ih =>
    obtain ⟨found, front, rest, hts, -, hfault, hagain⟩ := (readersHeed ts).statement
    have hfound : outcome (statement ts) = (found, rest) := by
      rw [hts]
      exact hagain rest rfl
    cases found with
    | error fault =>
      have hne : ts ≠ [] := by
        rintro rfl
        rw [program] at h
        cases h
      rw [program_of_error hne hfound] at h
      cases h
      refine ⟨hfault fault rfl, front, hts, fun tail htail ↦
        program_of_error ?_ (hagain tail htail)⟩
      -- the end of the script is another next token than the one at which the reader has stopped
      intro hempty
      obtain ⟨rfl, rfl⟩ := List.append_eq_nil_iff.1 hempty
      cases rest with
      | nil => exact hne hts
      | cons t rest => cases htail
    | ok s =>
      have hlt := length_lt_of_outcome hfound
      rw [program_of_ok hfound] at h
      cases hrest : program rest with
      | ok more =>
        rw [hrest] at h
        cases h
      | error stop' =>
        rw [hrest] at h
        cases h
        obtain ⟨hconcerns, back, hback, hlater⟩ := ih rest.length (hn ▸ hlt) hrest rfl
        refine ⟨hconcerns, front ++ back, ?_, fun tail htail ↦ ?_⟩
        · rw [hts, List.append_assoc, ← hback]
        · have hnext : next? (back ++ tail) = next? rest := by
            rw [next?_append htail, ← hback]
          rw [List.append_assoc, program_of_ok (hagain (back ++ tail) hnext), hlater tail htail]
          rfl

end Parser

end ReactiveFrames.Script
