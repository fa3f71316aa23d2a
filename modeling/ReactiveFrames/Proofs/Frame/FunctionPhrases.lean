import ReactiveFrames.Proofs.Frame.Phrases

/-!
# Readers of functions

The readers of what follows the keyword of a function accept the phrases of the grammar and nothing
else. The types of a result before and after the keyword exclude each other in the readers by a
check and in the grammar by the productions.

## Main statements

* `FrameParser.reads_pathArgument`: arguments of a listener, with paths of two segments or more.
* `FrameParser.reads_function`: functions of every kind.
-/

namespace ReactiveFrames

variable {enums : EnumTable}

namespace FrameParser

open FrameGrammar

variable {α : Type}

/-! ## Arguments -/

theorem reads_argument (ts : List LocatedToken) :
    Reads (ArgumentPhrase enums)
      (fun a rest ↦ a.annotation = none → atSymbol .colon rest = false) ts (argument enums ts) := by
  refine Reads.word_bind ?_ fun name p rest hlt hts ↦ ?_
  · rintro front rest a - (_ | _)
    · exact ⟨_, _, rfl, _, rfl⟩
    · exact ⟨_, _, rfl, _, rfl⟩
  dsimp only
  cases hcolon : atSymbol .colon rest with
  | true =>
    obtain ⟨q, rest', hlt', rfl, hread⟩ := symbol?_of_atSymbol hcolon
    simp only [hread, if_true]
    refine Reads.cons ?_ ?_
    · refine Reads.valueType_bind ?_ fun word r type rest₂ hlt₂ hts₂ htype ↦ ?_
      · rintro front rest a - (_ | ⟨h⟩)
        exact ⟨_, _, rfl, _, rfl, _, h⟩
      · refine Reads.done (.annotated htype) (by simp) ?_
        rintro front rest₃ a - (_ | ⟨h⟩)
        have heq := (means_iff.1 h).symm.trans (means_iff.1 htype)
        cases heq
        exact ⟨rfl, rfl⟩
    · rintro a ⟨⟩ hfollows
      rw [hfollows rfl] at hcolon
      cases hcolon
  | false =>
    simp only [symbol?_of_not_atSymbol hcolon]
    refine Reads.done .plain (fun _ ↦ hcolon) ?_
    rintro front rest' a rfl (_ | ⟨h⟩)
    · exact ⟨rfl, rfl⟩
    · simp [atSymbol] at hcolon

/-! ## Paths -/

/-- The path of a listener argument. -/
def PathPhrase : Phrase (List String) := fun ts path ↦
  Separated .dot IdentPhrase ts path ∧ 2 ≤ path.length

theorem following_ident_cons {s : FrameSymbol} {name : String} {p q : Position}
    {us : List LocatedToken} {names : List String} :
    Following s IdentPhrase (⟨.symbol s, p⟩ :: ⟨.word name, q⟩ :: us) names ↔
      ∃ more, names = name :: more ∧ Following s IdentPhrase us more := by
  constructor
  · intro h
    generalize hts : (⟨.symbol s, p⟩ :: ⟨.word name, q⟩ :: us : List LocatedToken) = ts at h
    cases h with
    | nil => cases hts
    | cons h hmore =>
      obtain ⟨q', rfl⟩ := h
      cases hts
      exact ⟨_, rfl, hmore⟩
  · rintro ⟨more, rfl, hmore⟩
    exact @Following.cons _ s IdentPhrase p [⟨.word name, q⟩] us name more ⟨q, rfl⟩ hmore

theorem separated_ident_cons {s : FrameSymbol} {name : String} {p : Position}
    {us : List LocatedToken} {names : List String} :
    Separated s IdentPhrase (⟨.word name, p⟩ :: us) names ↔
      ∃ more, names = name :: more ∧ Following s IdentPhrase us more := by
  constructor
  · intro h
    generalize hts : (⟨.word name, p⟩ :: us : List LocatedToken) = ts at h
    cases h with
    | nil => cases hts
    | cons h hmore =>
      obtain ⟨p', rfl⟩ := h
      cases hts
      exact ⟨_, rfl, hmore⟩
  · rintro ⟨more, rfl, hmore⟩
    exact @Separated.cons _ s IdentPhrase [⟨.word name, p⟩] us name more ⟨p, rfl⟩ hmore

theorem reads_moreSegments (ts : List LocatedToken) :
    Reads (Following .dot IdentPhrase) (fun _ rest ↦ atSymbol .dot rest = false) ts
      (moreSegments ts) := by
  obtain ⟨n, hn⟩ : ∃ n, ts.length = n := ⟨_, rfl⟩
  induction n using Nat.strongRecOn generalizing ts with
  | ind n ih =>
    unfold moreSegments
    split
    · refine Reads.cons (Reads.word_bind ?_ fun name q rest hlt hts ↦ ?_) ?_
      · intro front rest names hts hfront
        generalize hus : (⟨.symbol .dot, _⟩ :: front : List LocatedToken) = us at hfront
        cases hfront with
        | nil => cases hus
        | cons h hmore =>
          obtain ⟨q, rfl⟩ := h
          cases hus
          exact ⟨_, _, rfl, _, rfl⟩
      · have hshorter : rest.length < n := by
          rw [← hn, List.length_cons]
          omega
        refine Reads.map (ih _ hshorter rest rfl) (f := (name :: ·)) (fun _ _ _ ↦ ⟨_, rfl⟩)
          (fun us names ↦ ?_) (by simp)
        rw [following_ident_cons]
        grind
      · intro names hnil
        simp [atSymbol]
    · rename_i hdot
      have hstop : atSymbol .dot ts = false := by
        unfold atSymbol
        split
        · rename_i t p rest
          rw [beq_eq_false_iff_ne]
          rintro rfl
          exact hdot p rest rfl
        · rfl
      refine Reads.done .nil hstop ?_
      rintro front rest names rfl (_ | ⟨h, hmore⟩)
      · exact ⟨rfl, rfl⟩
      · simp [atSymbol] at hstop

theorem reads_path (ts : List LocatedToken) :
    Reads PathPhrase (fun _ rest ↦ atSymbol .dot rest = false) ts (path ts) := by
  refine Reads.word_bind ?_ fun first p rest hlt hts ↦ ?_
  · rintro front rest names - ⟨_ | ⟨⟨q, rfl⟩, hmore⟩, hlength⟩
    · cases hlength
    · exact ⟨_, _, rfl, _, rfl⟩
  · refine Reads.bind (E := fun more us names ↦ us = [] ∧ names = first :: more ∧ more ≠ [])
      (reads_moreSegments rest) (fun more rest' hlt' hstop ↦ ?_) (fun us rest' names _ ↦ ?_) ?_
    · dsimp only
      split
      · rename_i hempty
        refine Reads.error fun front back names _ hfront ↦ ?_
        exact absurd (List.isEmpty_iff.1 hempty) hfront.2.2
      · rename_i hempty
        refine Reads.done ?_ ?_ ?_
        · exact ⟨rfl, rfl, fun hnil ↦ hempty (List.isEmpty_iff.2 hnil)⟩
        · exact hstop
        · rintro front rest₂ names - ⟨rfl, rfl, -⟩
          exact ⟨rfl, rfl⟩
    · rw [PathPhrase, separated_ident_cons]
      constructor
      · rintro ⟨⟨more, rfl, hmore⟩, hlength⟩
        refine ⟨more, us, [], by simp, hmore, rfl, rfl, ?_⟩
        rintro rfl
        cases hlength
        contradiction
      · rintro ⟨more, front, back, rfl, hmore, rfl, rfl, hne⟩
        rw [List.append_nil]
        exact ⟨⟨more, rfl, hmore⟩, Nat.succ_le_succ (List.length_pos_iff.2 hne)⟩
    · rintro more names back rest' ⟨rfl, -⟩ hrest'
      exact hrest'

theorem reads_pathArgument (ts : List LocatedToken) :
    Reads PathArgumentPhrase (fun _ rest ↦ atSymbol .dot rest = false) ts (pathArgument ts) := by
  refine Reads.word_bind ?_ fun name p rest hlt hts ↦ ?_
  · rintro front rest a - ⟨h, hlength⟩
    exact ⟨_, _, rfl, _, rfl⟩
  refine Reads.symbolOr_bind ?_ fun q rest' hlt' hts' ↦ ?_
  · rintro front rest a - ⟨h, hlength⟩
    exact ⟨_, _, rfl, rfl⟩
  refine Reads.map (reads_path rest') (f := fun path ↦ ⟨name, path⟩) (fun _ _ _ ↦ ⟨_, rfl⟩)
    (fun us a ↦ ?_) (by simp)
  constructor
  · rintro ⟨h, hlength⟩
    exact ⟨_, ⟨h, hlength⟩, rfl⟩
  · rintro ⟨path, ⟨h, hlength⟩, rfl⟩
    exact .mk h hlength

/-! ## Functions -/

theorem noReturnType_eq_error {before : Option ValueType} {ts : List LocatedToken}
    {stop : FrameStop} (h : noReturnType before ts = .error stop) :
    before ≠ none ∨ atSymbol .arrow ts = true := by
  unfold noReturnType at h
  split at h
  · rename_i hreturns
    rw [Bool.or_eq_true] at hreturns
    refine hreturns.imp_left ?_
    rintro hbefore rfl
    cases hbefore
  · cases h

/-- The type of a result that is declared before the keyword or, if none is, after the arguments. -/
def ReturnsPhrase (enums : EnumTable) (before : Option ValueType) : Phrase (Option ValueType) :=
  fun ts returns ↦ ts = [] ∧ returns = before ∨ before = none ∧ ∃ p q word type,
    ts = [⟨.symbol .arrow, p⟩, ⟨.word word, q⟩] ∧ Means enums word (.value type) ∧
      returns = some type

theorem reads_returnType (before : Option ValueType) (ts : List LocatedToken) :
    Reads (fun us returns ↦ ReturnsPhrase enums before us returns ∧
      (us = [] ↔ atSymbol .arrow ts = false)) Anything ts (returnType enums before ts) := by
  unfold returnType
  cases harrow : atSymbol .arrow ts with
  | false =>
    simp only [symbol?_of_not_atSymbol harrow]
    refine Reads.done ⟨.inl ⟨rfl, rfl⟩, by simp⟩ trivial ?_
    rintro front rest returns - ⟨⟨rfl, rfl⟩ | ⟨-, p, q, word, type, rfl, -⟩, hnil⟩
    · exact ⟨rfl, rfl⟩
    · simp at hnil
  | true =>
    obtain ⟨p, rest, hlt, rfl, hread⟩ := symbol?_of_atSymbol harrow
    simp only [hread, if_true]
    cases before with
    | some type =>
      refine Reads.error ?_
      rintro front rest' returns - ⟨⟨rfl, -⟩ | ⟨hbefore, -⟩, hnil⟩
      · simp at hnil
      · cases hbefore
    | none =>
      refine Reads.cons (Reads.valueType_bind ?_ fun word q type rest' hlt' hts htype ↦ ?_) ?_
      · rintro front rest' returns - ⟨⟨hus, -⟩ | ⟨-, p, q, word, type, hus, htype, rfl⟩, hnil⟩
        · cases hus
        · cases hus
          exact ⟨_, _, rfl, word, rfl, type, htype⟩
      · refine Reads.done ⟨.inr ⟨rfl, p, q, word, type, rfl, htype, rfl⟩, by simp⟩ trivial ?_
        rintro front rest₂ returns - ⟨⟨hus, -⟩ | ⟨-, p', q', word', type', hus, htype', rfl⟩, -⟩
        · cases hus
        · cases hus
          have heq := (means_iff.1 htype').symm.trans (means_iff.1 htype)
          cases heq
          exact ⟨rfl, rfl⟩
      · rintro returns ⟨-, hnil⟩
        simp at hnil

theorem endsItems_argument : EndsItems .closeParen (fun (a : Argument) rest ↦
    a.annotation = none → atSymbol .colon rest = false) := by
  rintro a s p rest (rfl | rfl) - <;> rfl

theorem endsItems_pathArgument :
    EndsItems .closeParen (fun (_ : PathArgument) rest ↦ atSymbol .dot rest = false) := by
  rintro a s p rest (rfl | rfl) <;> rfl

theorem opens_argument : Opens .closeParen (ArgumentPhrase enums) := by
  rintro front a (_ | _)
  · exact ⟨_, _, rfl, by simp⟩
  · exact ⟨_, _, rfl, by simp⟩

theorem opens_pathArgument : Opens .closeParen PathArgumentPhrase := by
  rintro front a ⟨h, hlength⟩
  exact ⟨_, _, rfl, by simp⟩

theorem reads_arguments (ts : List LocatedToken) :
    Reads (Parenthesized (ArgumentPhrase enums)) Anything ts (parenthesized (argument enums) ts) :=
  reads_parenthesized reads_argument endsItems_argument opens_argument ts

theorem reads_pathArguments (ts : List LocatedToken) :
    Reads (Parenthesized PathArgumentPhrase) Anything ts (parenthesized pathArgument ts) :=
  reads_parenthesized reads_pathArgument endsItems_pathArgument opens_pathArgument ts

theorem reads_initArguments (ts : List LocatedToken) :
    Reads (fun us arguments ↦ if atSymbol .openParen ts then
        Parenthesized (ArgumentPhrase enums) us arguments
      else us = [] ∧ arguments = []) Anything ts (initArguments enums ts) := by
  unfold initArguments
  split
  · exact Reads.map (reads_arguments ts) (f := id) (fun _ _ _ ↦ ⟨_, rfl⟩) (by simp) (by simp)
  · exact Reads.done ⟨rfl, rfl⟩ trivial fun _ _ _ _ h ↦ h

/-- Whether the type of a result stands after the arguments shows in the first token. -/
theorem ReturnsPhrase.eq_nil_iff {before returns : Option ValueType} {script : String}
    {p : Position} {front rest : List LocatedToken} (h : ReturnsPhrase enums before front returns) :
    front = [] ↔ atSymbol .arrow (front ++ [⟨.text script, p⟩] ++ rest) = false := by
  rcases h with ⟨rfl, -⟩ | ⟨-, q, r, word, type, rfl, -⟩ <;> simp [atSymbol]

/-- A type of a result stands neither before nor after the keyword of an init or event function. -/
theorem not_phrase_of_noReturnType {kind : FunctionKind} {before : Option ValueType}
    {ts : List LocatedToken} {stop : FrameStop} (hkind : kind = .init ∨ kind = .event)
    (herror : noReturnType before ts = .error stop) (front rest : List LocatedToken) (f : Function)
    (hts : ts = front ++ rest) : ¬FunctionPhrase enums kind before front f := by
  intro h
  have hnone : before = none ∧ atSymbol .arrow (front ++ rest) = false := by
    cases h with
    | init h => rcases h with ⟨rfl, -⟩ | ⟨p, q, us, rfl, -⟩ <;> simp [atSymbol]
    | event h =>
      obtain ⟨p, q, us, rfl, -⟩ := h
      simp [atSymbol]
    | _ => simp at hkind
  rcases noReturnType_eq_error herror with hbefore | harrow
  · exact hbefore hnone.1
  · rw [hts, hnone.2] at harrow
    cases harrow

/-- No type of a result stands before a script. -/
theorem noReturnType_script {script : String} {p : Position} {rest : List LocatedToken}
    {stop : FrameStop} : noReturnType none (⟨.text script, p⟩ :: rest) ≠ .error stop := by
  intro herror
  rcases noReturnType_eq_error herror with hnone | harrow
  · exact hnone rfl
  · cases harrow

private theorem toList_iff {a? : Option α} {as : List α}
    (h : ∀ a b more, as = a :: b :: more → False) : as = a?.toList ↔ a? = as.head? := by
  match as with
  | [] => cases a? <;> simp
  | [a] => cases a? <;> simp [eq_comm]
  | a :: b :: more => exact absurd rfl (h a b more)

theorem reads_init (before : Option ValueType) (ts : List LocatedToken) :
    Reads (FunctionPhrase enums .init before) Anything ts (function enums .init before ts) := by
  refine Reads.check (fun hok ↦ ?_) fun stop herror front rest f hts h ↦
    absurd h (not_phrase_of_noReturnType (.inl rfl) herror front rest f hts)
  obtain rfl := eq_none_of_noReturnType hok
  refine Reads.bind (E := fun arguments us f ↦ ∃ script p argument, us = [⟨.text script, p⟩] ∧
    arguments.filter (·.name ≠ "self") = argument.toList ∧ f = .init argument script)
    (reads_initArguments ts) (fun arguments rest hlt _ ↦ ?_) (fun us rest f hts ↦ ?_)
    (fun _ _ _ _ _ _ ↦ trivial)
  · dsimp only
    split
    · rename_i a b more hfilter
      refine Reads.error ?_
      rintro front back f - ⟨script, p, argument, -, hself, -⟩
      rw [hfilter] at hself
      cases argument <;> cases hself
    · rename_i hfew
      refine Reads.check (fun _ ↦ ?_) fun stop herror ↦ ?_
      · refine Reads.body_bind (f := .init (arguments.filter (·.name ≠ "self")).head?)
          (fun us f ↦ ?_) fun _ _ _ ↦ ⟨_, rfl⟩
        simp only [toList_iff hfew]
        grind
      · rintro front back f rfl ⟨script, p, argument, rfl, -⟩ -
        exact noReturnType_script herror
  · subst hts
    constructor
    · intro h
      cases h with
      | init h hself =>
        rcases h with ⟨rfl, rfl⟩ | h
        · exact ⟨_, [], _, rfl, by simp [atSymbol], _, _, _, rfl, hself, rfl⟩
        · refine ⟨_, _, _, rfl, ?_, _, _, _, rfl, hself, rfl⟩
          have hopen := h
          obtain ⟨p, q, us, rfl, -⟩ := hopen
          simpa [atSymbol] using h
    · rintro ⟨arguments, front, back, rfl, h, script, p, argument, rfl, hself, rfl⟩
      split at h
      · exact .init (.inr h) hself
      · exact .init (.inl h) hself

theorem reads_event (before : Option ValueType) (ts : List LocatedToken) :
    Reads (FunctionPhrase enums .event before) Anything ts (function enums .event before ts) := by
  refine Reads.check (fun hok ↦ ?_) fun stop herror front rest f hts h ↦
    absurd h (not_phrase_of_noReturnType (.inr rfl) herror front rest f hts)
  obtain rfl := eq_none_of_noReturnType hok
  refine Reads.bind (E := fun arguments us f ↦ ∃ script p, us = [⟨.text script, p⟩] ∧
    f = .event arguments script) (reads_arguments ts) (fun arguments rest hlt _ ↦ ?_)
    (fun us rest f hts ↦ ?_) (fun _ _ _ _ _ _ ↦ trivial)
  · refine Reads.check (fun _ ↦ ?_) fun stop herror ↦ ?_
    · exact Reads.body_bind (f := .event arguments) (fun us f ↦ Iff.rfl) fun _ _ _ ↦ ⟨_, rfl⟩
    · rintro front back f rfl ⟨script, p, rfl, -⟩ -
      exact noReturnType_script herror
  · constructor
    · intro h
      cases h with
      | event h => exact ⟨_, _, _, rfl, h, _, _, rfl, rfl⟩
    · rintro ⟨arguments, front, back, rfl, h, script, p, rfl, rfl⟩
      exact .event h

theorem reads_listener (before : Option ValueType) (ts : List LocatedToken) :
    Reads (FunctionPhrase enums .listener before) Anything ts
      (function enums .listener before ts) := by
  refine Reads.bind (E := fun arguments us f ↦ ∃ front p returns script,
    us = front ++ [⟨.text script, p⟩] ∧ ReturnsPhrase enums before front (some returns) ∧
      f = .listener arguments returns script)
    (reads_pathArguments ts) (fun arguments rest hlt _ ↦ ?_) (fun us rest f hts ↦ ?_)
    (fun _ _ _ _ _ _ ↦ trivial)
  · refine Reads.bind (E := fun returns us f ↦ ∃ type script p, returns = some type ∧
      us = [⟨.text script, p⟩] ∧ f = .listener arguments type script)
      (reads_returnType before rest) (fun returns rest' hlt' _ ↦ ?_) (fun us rest' f hrest ↦ ?_)
      (fun _ _ _ _ _ _ ↦ trivial)
    · dsimp only
      split
      · refine Reads.error ?_
        rintro front back f - ⟨type, script, p, hnone, -⟩
        cases hnone
      · rename_i type _
        refine Reads.body_bind (f := .listener arguments type) (fun us f ↦ ?_)
          fun _ _ _ ↦ ⟨_, rfl⟩
        simp
    · constructor
      · rintro ⟨front, p, type, script, rfl, hreturns, rfl⟩
        refine ⟨some type, front, _, rfl, ⟨hreturns, ?_⟩, type, script, p, rfl, rfl, rfl⟩
        rw [hrest]
        exact hreturns.eq_nil_iff
      · rintro ⟨_, front, _, rfl, ⟨hreturns, -⟩, type, script, p, rfl, rfl, rfl⟩
        exact ⟨front, p, type, script, rfl, hreturns, rfl⟩
  · constructor
    · intro h
      cases h with
      | @listener p q r ts arguments word script returns h hreturns =>
        exact ⟨arguments, ts, _, rfl, h, [_, _], r, returns, script, rfl,
          .inr ⟨rfl, p, q, word, returns, rfl, hreturns, rfl⟩, rfl⟩
      | @typedListener p ts arguments script returns h =>
        exact ⟨arguments, ts, _, rfl, h, [], p, returns, script, rfl, .inl ⟨rfl, rfl⟩, rfl⟩
    · rintro ⟨arguments, front, _, rfl, h, _, p, returns, script, rfl, hreturns, rfl⟩
      rcases hreturns with ⟨rfl, rfl⟩ | ⟨rfl, q, r, word, type, rfl, hword, htype⟩
      · exact .typedListener h
      · cases htype
        exact .listener h hword

theorem reads_procedure (before : Option ValueType) (ts : List LocatedToken) :
    Reads (FunctionPhrase enums .procedure before) Anything ts
      (function enums .procedure before ts) := by
  refine Reads.bind (E := fun arguments us f ↦ ∃ front p returns script,
    us = front ++ [⟨.text script, p⟩] ∧ ReturnsPhrase enums before front returns ∧
      f = .procedure arguments returns script)
    (reads_arguments ts) (fun arguments rest hlt _ ↦ ?_) (fun us rest f hts ↦ ?_)
    (fun _ _ _ _ _ _ ↦ trivial)
  · refine Reads.bind (E := fun returns us f ↦ ∃ script p, us = [⟨.text script, p⟩] ∧
      f = .procedure arguments returns script)
      (reads_returnType before rest) (fun returns rest' hlt' _ ↦ ?_) (fun us rest' f hrest ↦ ?_)
      (fun _ _ _ _ _ _ ↦ trivial)
    · exact Reads.body_bind (f := .procedure arguments returns) (fun us f ↦ Iff.rfl)
        fun _ _ _ ↦ ⟨_, rfl⟩
    · constructor
      · rintro ⟨front, p, returns, script, rfl, hreturns, rfl⟩
        refine ⟨returns, front, _, rfl, ⟨hreturns, ?_⟩, script, p, rfl, rfl⟩
        rw [hrest]
        exact hreturns.eq_nil_iff
      · rintro ⟨returns, front, _, rfl, ⟨hreturns, -⟩, script, p, rfl, rfl⟩
        exact ⟨front, p, returns, script, rfl, hreturns, rfl⟩
  · constructor
    · intro h
      cases h with
      | @procedure p before ts arguments script h =>
        exact ⟨arguments, ts, _, rfl, h, [], p, before, script, rfl, .inl ⟨rfl, rfl⟩, rfl⟩
      | @returningProcedure p q r ts arguments word script returns h hreturns =>
        exact ⟨arguments, ts, _, rfl, h, [_, _], r, some returns, script, rfl,
          .inr ⟨rfl, p, q, word, returns, rfl, hreturns, rfl⟩, rfl⟩
    · rintro ⟨arguments, front, _, rfl, h, _, p, returns, script, rfl, hreturns, rfl⟩
      rcases hreturns with ⟨rfl, rfl⟩ | ⟨rfl, q, r, word, type, rfl, hword, rfl⟩
      · exact .procedure h
      · exact .returningProcedure h hword

theorem reads_function (kind : FunctionKind) (before : Option ValueType) (ts : List LocatedToken) :
    Reads (FunctionPhrase enums kind before) Anything ts (function enums kind before ts) := by
  cases kind with
  | init => exact reads_init before ts
  | event => exact reads_event before ts
  | listener => exact reads_listener before ts
  | procedure => exact reads_procedure before ts

end FrameParser

end ReactiveFrames
