import ReactiveFrames.Proofs.Basic
import ReactiveFrames.Proofs.Frame.Grammar
import ReactiveFrames.Proofs.Frame.WellFormed

/-!
# Readers of phrases

A reader of frame source is compared with the phrases of a grammar in both directions at once. The
tokens that may follow a phrase are part of the comparison, since a reader that looks at the next
token stops only where that token allows it.

## Main definitions

* `FrameParser.Reads`: the reader answers exactly where a phrase stands at the front of the tokens.

## Main statements

* `FrameGrammar.means_iff`, `FrameGrammar.scalarToken_iff`: words and scalars of the grammar.
* `FrameParser.Reads.bind`: one reader after another one reads one phrase after another one.
* `FrameParser.reads_parenthesized`: lists between parentheses.
-/

namespace ReactiveFrames

variable {enums : EnumTable}

/-! ## Words and scalars -/

namespace FrameGrammar

theorem namesFunction_iff {name : String} {kind : FunctionKind} :
    NamesFunction name kind ↔ FunctionKind.ofKeyword? name = some kind := by
  unfold FunctionKind.ofKeyword?
  constructor
  · rintro (rfl | ⟨rfl, rfl⟩)
    · cases kind <;> rfl
    · rfl
  · intro h
    split at h
    all_goals cases h
    all_goals first | exact .inl rfl | exact .inr ⟨rfl, rfl⟩

theorem ofName_of_namesBuiltIn {name : String} {type : ValueType} (h : NamesBuiltIn name type) :
    TypeWord.ofName enums name = .value type := by
  obtain ⟨hmem, rfl⟩ := h
  simp only [builtIns, List.mem_cons, List.not_mem_nil, or_false] at hmem
  rcases hmem with rfl | rfl | rfl | rfl | rfl | rfl | rfl <;> rfl

theorem ofName_of_not_namesBuiltIn {name : String} (h : ∀ type, ¬NamesBuiltIn name type) :
    TypeWord.ofName enums name =
      if (enums.type? name).isSome then .value (.scalar (.enum name))
      else match FunctionKind.ofKeyword? name with
        | some kind => .function kind
        | none => .class name := by
  have hne : ∀ type ∈ builtIns, name ≠ type.keyword := by
    rintro type hmem rfl
    exact h type ⟨hmem, rfl⟩
  unfold TypeWord.ofName
  split
  · exact absurd rfl (hne (.scalar .bool) (by decide))
  · exact absurd rfl (hne (.scalar .int) (by decide))
  · exact absurd rfl (hne (.scalar .float) (by decide))
  · exact absurd rfl (hne (.scalar .string) (by decide))
  · exact absurd rfl (hne (.scalar .url) (by decide))
  · exact absurd rfl (hne .array (by decide))
  · exact absurd rfl (hne .dictionary (by decide))
  · rfl

/-- The words in the position of a type are classified as the grammar says. -/
theorem means_iff {name : String} {word : TypeWord} :
    Means enums name word ↔ TypeWord.ofName enums name = word := by
  constructor
  · rintro (h | ⟨hbuiltIn, h⟩ | ⟨hbuiltIn, henum, h⟩ | ⟨hbuiltIn, henum, h⟩)
    · exact ofName_of_namesBuiltIn h
    · simp [ofName_of_not_namesBuiltIn hbuiltIn, h]
    · simp [ofName_of_not_namesBuiltIn hbuiltIn, henum, namesFunction_iff.1 h]
    · have hkeyword : FunctionKind.ofKeyword? name = none := by
        rw [Option.eq_none_iff_forall_ne_some]
        exact fun kind hkind ↦ h kind (namesFunction_iff.2 hkind)
      simp [ofName_of_not_namesBuiltIn hbuiltIn, henum, hkeyword]
  · rintro rfl
    by_cases hbuiltIn : ∃ type, NamesBuiltIn name type
    · obtain ⟨type, h⟩ := hbuiltIn
      rw [ofName_of_namesBuiltIn h]
      exact .builtIn h
    · rw [not_exists] at hbuiltIn
      rw [ofName_of_not_namesBuiltIn hbuiltIn]
      cases henum : enums.type? name with
      | some type => exact .enum hbuiltIn henum
      | none =>
        cases hkeyword : FunctionKind.ofKeyword? name with
        | some kind => exact .function hbuiltIn henum (namesFunction_iff.2 hkeyword)
        | none =>
          refine .class hbuiltIn henum fun kind hkind ↦ ?_
          rw [namesFunction_iff, hkeyword] at hkind
          cases hkind

/-- A token stands for a scalar if the reader takes it for the scalar. -/
theorem scalarToken_iff {leaf : Option ScalarType} {token : FrameToken} {s : Scalar} :
    ScalarToken enums leaf token s ↔ FrameParser.scalarOf enums leaf token = .ok s := by
  constructor
  · intro h
    cases h with
    | bool h => rcases h with rfl | rfl <;> rfl
    | int h => rcases h with rfl | rfl <;> rfl
    | float h => rcases h with rfl | rfl <;> rfl
    | promoted h => cases h; rfl
    | string h => rcases h with rfl | rfl <;> rfl
    | script h => cases h; rfl
    | url h => cases h; rfl
    | enum h htype hvalue =>
      cases h
      simp [FrameParser.scalarOf, htype, hvalue]
  · intro h
    unfold FrameParser.scalarOf at h
    split at h
    all_goals try cases h
    · exact .bool (.inl rfl) _
    · exact .bool (.inr rfl) _
    · exact .int (.inl rfl) _
    · exact .int (.inr rfl) _
    · exact .promoted rfl _
    · exact .float (.inl rfl) _
    · exact .float (.inr rfl) _
    · exact .string (.inl rfl) _
    · exact .string (.inr rfl) _
    · exact .script rfl _
    · exact .url rfl _
    · split at h
      · rename_i hvalue
        cases h
        obtain ⟨type, htype, hvalue⟩ := Option.bind_eq_some_iff.1 hvalue
        exact .enum rfl htype hvalue
      · cases h

end FrameGrammar

namespace FrameParser

open FrameGrammar

variable {α β : Type} {n m : Nat}

/-! ## Readers and phrases -/

/-- Any tokens may follow. -/
abbrev Anything (_ : α) (_ : List LocatedToken) : Prop := True

/-- The reader answers with a value and the tokens left if and only if the tokens are a phrase of
the value and, behind it, tokens that may follow. -/
def Reads (D : Phrase α) (follows : α → List LocatedToken → Prop) (ts : List LocatedToken)
    (r : Except FrameStop (FrameReading n α)) : Prop :=
  ∀ a rest, (∃ hlt, r = .ok ⟨a, rest, hlt⟩) ↔
    ∃ front, ts = front ++ rest ∧ D front a ∧ follows a rest

/-- Every phrase at the front of the tokens starts with a token of a sort. -/
def HeadedBy (P : FrameToken → Prop) (D : Phrase α) (ts : List LocatedToken) : Prop :=
  ∀ front rest a, ts = front ++ rest → D front a → ∃ t us, front = t :: us ∧ P t.token

theorem HeadedBy.not_nil {P : FrameToken → Prop} {D : Phrase α} {ts : List LocatedToken}
    (h : HeadedBy P D ts) (a : α) : ¬D [] a := by
  intro hnil
  obtain ⟨t, us, hus, -⟩ := h [] ts a rfl hnil
  cases hus

theorem HeadedBy.imp {P Q : FrameToken → Prop} {D : Phrase α} {ts : List LocatedToken}
    (h : HeadedBy P D ts) (himp : ∀ token, P token → Q token) : HeadedBy Q D ts := by
  intro front rest a hts hfront
  obtain ⟨t, us, rfl, ht⟩ := h front rest a hts hfront
  exact ⟨t, us, rfl, himp _ ht⟩

namespace Reads

variable {D : Phrase α} {follows : α → List LocatedToken → Prop} {ts : List LocatedToken}
  {r : Except FrameStop (FrameReading n α)}

/-- The value is complete. -/
theorem done {a : α} {hlt : ts.length < n} (hnil : D [] a) (hfollows : follows a ts)
    (hunique : ∀ front rest b, ts = front ++ rest → D front b → front = [] ∧ b = a) :
    Reads D follows ts (.ok ⟨a, ts, hlt⟩ : Except FrameStop (FrameReading n α)) := by
  intro b rest
  constructor
  · rintro ⟨hlt', heq⟩
    cases heq
    exact ⟨[], rfl, hnil, hfollows⟩
  · rintro ⟨front, hts, hfront, -⟩
    obtain ⟨rfl, rfl⟩ := hunique front rest b hts hfront
    cases hts
    exact ⟨hlt, rfl⟩

/-- No phrase stands at the front of the tokens. -/
theorem error {stop : FrameStop}
    (h : ∀ front rest a, ts = front ++ rest → D front a → ¬follows a rest) :
    Reads D follows ts (.error stop : Except FrameStop (FrameReading n α)) := by
  intro a rest
  constructor
  · rintro ⟨hlt, heq⟩
    cases heq
  · rintro ⟨front, hts, hfront, hfollows⟩
    exact absurd hfollows (h front rest a hts hfront)

/-- A token is passed. -/
theorem cons {t : LocatedToken} (h : Reads (fun us a ↦ D (t :: us) a) follows ts r)
    (hnil : ∀ a, D [] a → ¬follows a (t :: ts)) : Reads D follows (t :: ts) r := by
  intro a rest
  rw [h a rest]
  constructor
  · rintro ⟨front, rfl, hfront, hfollows⟩
    exact ⟨t :: front, rfl, hfront, hfollows⟩
  · rintro ⟨front, hts, hfront, hfollows⟩
    cases front with
    | nil =>
      cases hts
      exact absurd hfollows (hnil a hfront)
    | cons u front =>
      cases hts
      exact ⟨front, rfl, hfront, hfollows⟩

/-- One reader after another one. -/
theorem bind {next : FrameReading n α → Except FrameStop (FrameReading m β)}
    {E : α → Phrase β} {whole : Phrase β} {follows' : β → List LocatedToken → Prop}
    (h : Reads D follows ts r)
    (hnext : ∀ a rest hlt, follows a rest → Reads (E a) follows' rest (next ⟨a, rest, hlt⟩))
    (hwhole : ∀ us rest b, ts = us ++ rest → (whole us b ↔
      ∃ a front back, us = front ++ back ∧ D front a ∧ E a back b))
    (hfollows : ∀ a b back rest, E a back b → follows' b rest → follows a (back ++ rest)) :
    Reads whole follows' ts (r >>= next) := by
  intro b rest
  constructor
  · rintro ⟨hlt, heq⟩
    obtain ⟨⟨a, middle, hlt'⟩, hr, heq⟩ := Except.bind_eq_ok.1 heq
    obtain ⟨front, rfl, hfront, hmiddle⟩ := (h a middle).1 ⟨hlt', hr⟩
    obtain ⟨back, rfl, hback, hrest⟩ := (hnext a middle hlt' hmiddle b rest).1 ⟨hlt, heq⟩
    have hsplit := (List.append_assoc front back rest).symm
    exact ⟨front ++ back, hsplit, (hwhole _ _ _ hsplit).2 ⟨a, front, back, rfl, hfront, hback⟩,
      hrest⟩
  · rintro ⟨us, rfl, hus, hrest⟩
    obtain ⟨a, front, back, rfl, hfront, hback⟩ := (hwhole _ _ _ rfl).1 hus
    have hmiddle := hfollows a b back rest hback hrest
    obtain ⟨hlt', hr⟩ := (h a (back ++ rest)).2 ⟨front, List.append_assoc .., hfront, hmiddle⟩
    obtain ⟨hlt, heq⟩ := (hnext a (back ++ rest) hlt' hmiddle b rest).2 ⟨back, rfl, hback, hrest⟩
    exact ⟨hlt, Except.bind_eq_ok.2 ⟨_, hr, heq⟩⟩

/-- The value of a reader is put into another one. -/
theorem map {next : FrameReading n α → Except FrameStop (FrameReading m β)} {whole : Phrase β}
    {follows' : β → List LocatedToken → Prop} {f : α → β} (h : Reads D follows ts r)
    (hnext : ∀ a rest hlt, ∃ hlt', next ⟨a, rest, hlt⟩ = .ok ⟨f a, rest, hlt'⟩)
    (hwhole : ∀ us b, whole us b ↔ ∃ a, D us a ∧ b = f a)
    (hfollows : ∀ a rest, follows a rest ↔ follows' (f a) rest) :
    Reads whole follows' ts (r >>= next) := by
  intro b rest
  constructor
  · rintro ⟨hlt, heq⟩
    obtain ⟨⟨a, middle, hlt'⟩, hr, heq⟩ := Except.bind_eq_ok.1 heq
    obtain ⟨front, rfl, hfront, hmiddle⟩ := (h a middle).1 ⟨hlt', hr⟩
    obtain ⟨hlt'', hok⟩ := hnext a middle hlt'
    rw [hok] at heq
    cases heq
    exact ⟨front, rfl, (hwhole _ _).2 ⟨a, hfront, rfl⟩, (hfollows _ _).1 hmiddle⟩
  · rintro ⟨us, rfl, hus, hrest⟩
    obtain ⟨a, hfront, rfl⟩ := (hwhole _ _).1 hus
    obtain ⟨hlt', hr⟩ := (h a rest).2 ⟨us, rfl, hfront, (hfollows _ _).2 hrest⟩
    obtain ⟨hlt'', hok⟩ := hnext a rest hlt'
    exact ⟨hlt'', Except.bind_eq_ok.2 ⟨_, hr, hok⟩⟩

/-- The same phrases stand at the front of the tokens. -/
theorem congr {E : Phrase α} (h : Reads D follows ts r)
    (heq : ∀ front rest a, ts = front ++ rest → (D front a ↔ E front a)) :
    Reads E follows ts r := by
  intro a rest
  rw [h a rest]
  constructor
  · rintro ⟨front, hts, hfront, hfollows⟩
    exact ⟨front, hts, (heq front rest a hts).1 hfront, hfollows⟩
  · rintro ⟨front, hts, hfront, hfollows⟩
    exact ⟨front, hts, (heq front rest a hts).2 hfront, hfollows⟩

/-- The tokens do not start as every phrase does. -/
theorem error_of_head {P : FrameToken → Prop} {stop : FrameStop}
    (hphrase : HeadedBy P D ts) (hhead : ∀ t ∈ ts.head?, ¬P t.token) :
    Reads D follows ts (.error stop : Except FrameStop (FrameReading n α)) := by
  refine error fun front rest a hts hfront ↦ ?_
  obtain ⟨t, us, rfl, ht⟩ := hphrase front rest a hts hfront
  exact absurd ht (hhead t (by rw [hts]; rfl))

/-- A check that reads no token. -/
theorem check {x : Except FrameStop Unit} {next : Unit → Except FrameStop (FrameReading n α)}
    (hok : x = .ok () → Reads D follows ts (next ()))
    (herror : ∀ stop, x = .error stop →
      ∀ front rest a, ts = front ++ rest → D front a → ¬follows a rest) :
    Reads D follows ts (x >>= next) := by
  cases x with
  | ok => exact hok rfl
  | error stop => exact error (herror stop rfl)

/-! ## Single tokens -/

theorem symbolOr_bind {fault : FrameFault} {s : FrameSymbol} {whole : Phrase β}
    {follows' : β → List LocatedToken → Prop}
    {next : FrameReading ts.length Unit → Except FrameStop (FrameReading m β)}
    (hwhole : HeadedBy (· = .symbol s) whole ts)
    (hnext : ∀ p rest hlt, ts = ⟨.symbol s, p⟩ :: rest →
      Reads (fun us b ↦ whole (⟨.symbol s, p⟩ :: us) b) follows' rest (next ⟨(), rest, hlt⟩)) :
    Reads whole follows' ts (symbolOr fault s ts >>= next) := by
  by_cases hhead : ∃ p rest, ts = ⟨.symbol s, p⟩ :: rest
  · obtain ⟨p, rest, rfl⟩ := hhead
    have hread : symbolOr fault s (⟨.symbol s, p⟩ :: rest) = .ok ⟨(), rest, by simp⟩ := by
      simp [symbolOr]
    rw [hread]
    exact cons (hnext p rest (by simp) rfl) fun b hb ↦ absurd hb (hwhole.not_nil b)
  · have hread : ∃ stop, symbolOr fault s ts = .error stop := by
      unfold symbolOr
      split
      · rename_i t p rest
        rw [if_neg]
        · exact ⟨_, rfl⟩
        · rintro rfl
          exact hhead ⟨p, rest, rfl⟩
      · exact ⟨_, rfl⟩
    obtain ⟨stop, hread⟩ := hread
    rw [hread]
    refine error_of_head hwhole fun t ht htoken ↦ hhead ?_
    obtain ⟨rest, rfl⟩ := List.head?_eq_some_iff.1 ht
    exact ⟨t.position, rest, by rw [← htoken]⟩

/-- A word is passed that satisfies a condition. The reader that follows fails at any other one. -/
theorem wordWith_bind {part : FramePart} {P : String → Prop} {whole : Phrase β}
    {follows' : β → List LocatedToken → Prop}
    {next : FrameReading ts.length String → Except FrameStop (FrameReading m β)}
    (hwhole : HeadedBy (fun token ↦ ∃ name, token = .word name ∧ P name) whole ts)
    (hnext : ∀ name p rest hlt, ts = ⟨.word name, p⟩ :: rest → P name →
      Reads (fun us b ↦ whole (⟨.word name, p⟩ :: us) b) follows' rest (next ⟨name, rest, hlt⟩))
    (hother : ∀ name rest hlt, ¬P name → ∃ stop, next ⟨name, rest, hlt⟩ = .error stop) :
    Reads whole follows' ts (word part ts >>= next) := by
  have hheaded : HeadedBy (fun token ↦ ∃ name, token = .word name) whole ts :=
    hwhole.imp fun token ⟨name, htoken, _⟩ ↦ ⟨name, htoken⟩
  unfold word
  split
  · rename_i name p rest
    by_cases hname : P name
    · exact cons (hnext name p rest (by simp) rfl hname) fun b hb ↦ absurd hb (hwhole.not_nil b)
    · obtain ⟨stop, hstop⟩ := hother name rest (by simp) hname
      change Reads _ _ _ (next ⟨name, rest, _⟩)
      rw [hstop]
      refine error_of_head hwhole ?_
      rintro t ht ⟨name', htoken, hname'⟩
      cases ht
      cases htoken
      exact hname hname'
  · rename_i hhead
    refine error_of_head hheaded ?_
    rintro t ht ⟨name, htoken⟩
    obtain ⟨rest, rfl⟩ := List.head?_eq_some_iff.1 ht
    exact hhead name t.position rest (by rw [← htoken])

theorem word_bind {part : FramePart} {whole : Phrase β} {follows' : β → List LocatedToken → Prop}
    {next : FrameReading ts.length String → Except FrameStop (FrameReading m β)}
    (hwhole : HeadedBy (fun token ↦ ∃ name, token = .word name) whole ts)
    (hnext : ∀ name p rest hlt, ts = ⟨.word name, p⟩ :: rest →
      Reads (fun us b ↦ whole (⟨.word name, p⟩ :: us) b) follows' rest (next ⟨name, rest, hlt⟩)) :
    Reads whole follows' ts (word part ts >>= next) :=
  wordWith_bind (P := fun _ ↦ True) (hwhole.imp fun _ ⟨name, htoken⟩ ↦ ⟨name, htoken, trivial⟩)
    (fun name p rest hlt hts _ ↦ hnext name p rest hlt hts) fun _ _ _ h ↦ absurd trivial h

theorem valueType_bind {part : FramePart} {whole : Phrase β}
    {follows' : β → List LocatedToken → Prop}
    {next : FrameReading ts.length ValueType → Except FrameStop (FrameReading m β)}
    (hwhole : HeadedBy
      (fun token ↦ ∃ name, token = .word name ∧ ∃ type, Means enums name (.value type)) whole ts)
    (hnext : ∀ name p type rest hlt, ts = ⟨.word name, p⟩ :: rest → Means enums name (.value type) →
      Reads (fun us b ↦ whole (⟨.word name, p⟩ :: us) b) follows' rest (next ⟨type, rest, hlt⟩)) :
    Reads whole follows' ts (valueType enums part ts >>= next) := by
  unfold valueType
  rw [bind_assoc]
  refine wordWith_bind hwhole (fun name p rest hlt hts ⟨type, htype⟩ ↦ ?_)
    fun name rest hlt hname ↦ ?_
  · simp only [means_iff.1 htype]
    exact hnext name p type rest hlt hts htype
  · dsimp only
    split
    · rename_i type htype
      exact absurd ⟨type, means_iff.2 htype⟩ hname
    · exact ⟨_, rfl⟩

theorem className_bind {whole : Phrase β} {follows' : β → List LocatedToken → Prop}
    {next : FrameReading ts.length String → Except FrameStop (FrameReading m β)}
    (hwhole : HeadedBy (fun token ↦ ∃ name, token = .word name ∧ Means enums name (.class name))
      whole ts)
    (hnext : ∀ name p rest hlt, Means enums name (.class name) →
      Reads (fun us b ↦ whole (⟨.word name, p⟩ :: us) b) follows' rest (next ⟨name, rest, hlt⟩)) :
    Reads whole follows' ts (className enums ts >>= next) := by
  unfold className
  rw [bind_assoc]
  refine wordWith_bind hwhole (fun name p rest hlt hts hclass ↦ ?_) fun name rest hlt hname ↦ ?_
  · simp only [means_iff.1 hclass]
    exact hnext name p rest hlt hclass
  · dsimp only
    split
    · rename_i name' hclass
      obtain rfl := TypeWord.className_of_ofName hclass
      exact absurd (means_iff.2 hclass) hname
    · exact ⟨_, rfl⟩

theorem body_bind {kind : FunctionKind} {whole : Phrase β} {f : String → β}
    {next : FrameReading ts.length String → Except FrameStop (FrameReading m β)}
    (hwhole : ∀ us b, whole us b ↔ ∃ script p, us = [⟨.text script, p⟩] ∧ b = f script)
    (hnext : ∀ script rest hlt, ∃ hlt', next ⟨script, rest, hlt⟩ = .ok ⟨f script, rest, hlt'⟩) :
    Reads whole Anything ts (body kind ts >>= next) := by
  unfold body
  split
  · rename_i script p rest
    obtain ⟨hlt', hok⟩ := hnext script rest (Nat.lt_succ_self _)
    refine cons (D := whole) ?_ fun b hb ↦ ?_
    · change Reads _ _ rest (next ⟨script, rest, _⟩)
      rw [hok]
      refine done ((hwhole _ _).2 ⟨script, p, rfl, rfl⟩) trivial fun front rest' b _ hfront ↦ ?_
      obtain ⟨script', p', hus, rfl⟩ := (hwhole _ _).1 hfront
      cases hus
      exact ⟨rfl, rfl⟩
    · obtain ⟨script', p', hus, -⟩ := (hwhole _ _).1 hb
      cases hus
  · rename_i hhead
    refine error fun front rest b hts hfront ↦ ?_
    obtain ⟨script, p, rfl, rfl⟩ := (hwhole _ _).1 hfront
    exact absurd hts (hhead script p rest)

end Reads

theorem symbol?_of_atSymbol {s : FrameSymbol} {ts : List LocatedToken} (h : atSymbol s ts = true) :
    ∃ p rest hlt, ts = ⟨.symbol s, p⟩ :: rest ∧ symbol? s ts = ⟨true, rest, hlt⟩ := by
  unfold atSymbol at h
  split at h
  · rename_i t p rest
    obtain rfl : t = s := by simpa using h
    exact ⟨p, rest, by simp only [List.length_cons]; omega, rfl, by simp [symbol?]⟩
  · cases h

theorem symbol?_of_not_atSymbol {s : FrameSymbol} {ts : List LocatedToken}
    (h : atSymbol s ts = false) : symbol? s ts = ⟨false, ts, Nat.lt_succ_self _⟩ := by
  unfold symbol?
  split
  · rename_i t p rest
    rw [if_neg]
    rintro rfl
    simp [atSymbol] at h
  · rfl

/-! ## Lists -/

/-- A phrase with the symbol that closes it. -/
def Closed (closing : FrameSymbol) (inner : Phrase α) : Phrase α := fun ts a ↦
  ∃ q us, ts = us ++ [⟨.symbol closing, q⟩] ∧ inner us a

/-- An item with those that follow it and the symbol that closes them. -/
def Items (closing : FrameSymbol) (item : Phrase α) : Phrase (List α) := fun ts as ↦
  ∃ a more front back, as = a :: more ∧ ts = front ++ back ∧ item front a ∧
    Closed closing (Following .comma item) back more

section Lists

variable {closing : FrameSymbol} {item : Phrase α} {follows : α → List LocatedToken → Prop}
  {ts us : List LocatedToken} {as : List α}

theorem not_closed_nil {inner : Phrase β} (b : β) : ¬Closed closing inner [] b := by
  rintro ⟨q, us, hus, -⟩
  simp at hus

theorem closed_following_cons {t : LocatedToken} :
    Closed closing (Following .comma item) (t :: us) as ↔
      t.token = .symbol closing ∧ us = [] ∧ as = [] ∨
        t.token = .symbol .comma ∧ Items closing item us as := by
  constructor
  · rintro ⟨q, us', hus, h⟩
    cases h with
    | nil =>
      cases hus
      exact .inl ⟨rfl, rfl, rfl⟩
    | @cons p ts us a as h hmore =>
      cases hus
      exact .inr ⟨rfl, a, as, ts, _, rfl, List.append_assoc .., h, q, us, rfl, hmore⟩
  · obtain ⟨token, p⟩ := t
    rintro (⟨rfl, rfl, rfl⟩ | ⟨rfl, a, more, front, back, rfl, rfl, h, q, us', rfl, hmore⟩)
    · exact ⟨p, [], rfl, .nil⟩
    · exact ⟨q, ⟨.symbol .comma, p⟩ :: front ++ us', by simp, .cons h hmore⟩

theorem closed_separated :
    Closed closing (Separated .comma item) us as ↔
      (∃ q, us = [⟨.symbol closing, q⟩]) ∧ as = [] ∨ Items closing item us as := by
  constructor
  · rintro ⟨q, us', rfl, h⟩
    cases h with
    | nil => exact .inl ⟨⟨q, rfl⟩, rfl⟩
    | @cons ts us a as h hmore =>
      exact .inr ⟨a, as, ts, _, rfl, List.append_assoc .., h, q, us, rfl, hmore⟩
  · rintro (⟨⟨q, rfl⟩, rfl⟩ | ⟨a, more, front, back, rfl, rfl, h, q, us', rfl, hmore⟩)
    · exact ⟨q, [], rfl, .nil⟩
    · exact ⟨q, _, (List.append_assoc ..).symm, .cons h hmore⟩

/-- A comma or the closing symbol may follow every value. -/
def EndsItems (closing : FrameSymbol) (follows : α → List LocatedToken → Prop) : Prop :=
  ∀ a s p rest, s = .comma ∨ s = closing → follows a (⟨.symbol s, p⟩ :: rest)

theorem EndsItems.of_closed {inner : Phrase β} (h : EndsItems closing follows) (a : α)
    {bs : List β} {rest : List LocatedToken}
    (hback : Closed closing (Following .comma inner) us bs) : follows a (us ++ rest) := by
  cases us with
  | nil => exact absurd hback (not_closed_nil bs)
  | cons t us =>
    obtain ⟨token, p⟩ := t
    rcases closed_following_cons.1 hback with ⟨rfl, -⟩ | ⟨rfl, -⟩
    · exact h a _ p _ (.inr rfl)
    · exact h a _ p _ (.inl rfl)

/-- No phrase is empty, and none starts with the symbol. -/
def Opens (closing : FrameSymbol) (phrase : Phrase α) : Prop :=
  ∀ front a, phrase front a → ∃ t us, front = t :: us ∧ t.token ≠ .symbol closing

theorem not_items_of_closing (hopens : Opens closing item) {p : Position} :
    ¬Items closing item (⟨.symbol closing, p⟩ :: us) as := by
  rintro ⟨a, more, front, back, -, heq, hfront, -⟩
  obtain ⟨t, us', rfl, ht⟩ := hopens front a hfront
  cases heq
  exact ht rfl

/-! A reader of a list may put its items into a value `b` such that `Q as b`. -/

namespace Reads

variable {Q : List α → β → Prop} {b : β}

theorem of_exists_eq {D : Phrase α} {r : Except FrameStop (FrameReading n α)}
    (h : Reads (fun us b ↦ ∃ a, D us a ∧ a = b) follows ts r) : Reads D follows ts r := by
  simpa using h

theorem endOfFollowing (hclosing : closing ≠ .comma) (hQ : ∀ b', Q [] b' ↔ b' = b) {p : Position}
    {hlt : ts.length < n} :
    Reads (fun us b ↦ ∃ as, Closed closing (Following .comma item) us as ∧ Q as b) Anything
      (⟨.symbol closing, p⟩ :: ts) (.ok ⟨b, ts, hlt⟩ : Except FrameStop (FrameReading n β)) := by
  refine cons (done ⟨[], ?_, (hQ b).2 rfl⟩ trivial ?_) ?_
  · exact closed_following_cons.2 (.inl ⟨rfl, rfl, rfl⟩)
  · rintro front rest b' - ⟨as, has, hb'⟩
    rcases closed_following_cons.1 has with ⟨-, rfl, rfl⟩ | ⟨htoken, -⟩
    · exact ⟨rfl, (hQ b').1 hb'⟩
    · exact absurd (FrameToken.symbol.inj htoken) hclosing
  · rintro b' ⟨as, has, -⟩
    exact absurd has (not_closed_nil as)

theorem endOfSeparated (hopens : Opens closing item) (hQ : ∀ b', Q [] b' ↔ b' = b) {p : Position}
    {hlt : ts.length < n} :
    Reads (fun us b ↦ ∃ as, Closed closing (Separated .comma item) us as ∧ Q as b) Anything
      (⟨.symbol closing, p⟩ :: ts) (.ok ⟨b, ts, hlt⟩ : Except FrameStop (FrameReading n β)) := by
  refine cons (done ⟨[], closed_separated.2 (.inl ⟨⟨_, rfl⟩, rfl⟩), (hQ b).2 rfl⟩ trivial ?_) ?_
  · rintro front rest b' - ⟨as, has, hb'⟩
    rcases closed_separated.1 has with ⟨⟨q, hus⟩, rfl⟩ | has
    · cases hus
      exact ⟨rfl, (hQ b').1 hb'⟩
    · exact absurd has (not_items_of_closing hopens)
  · rintro b' ⟨as, has, -⟩
    exact absurd has (not_closed_nil as)

theorem following_of_items {fault : FrameFault} (hclosing : closing ≠ .comma)
    (hclose : ∀ p rest, ts ≠ ⟨.symbol closing, p⟩ :: rest)
    {next : FrameReading ts.length Unit → Except FrameStop (FrameReading m β)}
    (hnext : ∀ rest hlt, Reads (fun us b ↦ ∃ as, Items closing item us as ∧ Q as b) Anything rest
      (next ⟨(), rest, hlt⟩)) :
    Reads (fun us b ↦ ∃ as, Closed closing (Following .comma item) us as ∧ Q as b) Anything ts
      (symbolOr fault .comma ts >>= next) := by
  refine symbolOr_bind ?_ fun p rest hlt hts ↦ ?_
  · rintro front rest b rfl ⟨as, has, -⟩
    cases front with
    | nil => exact absurd has (not_closed_nil as)
    | cons t us =>
      obtain ⟨token, p⟩ := t
      rcases closed_following_cons.1 has with ⟨rfl, -⟩ | ⟨hcomma, -⟩
      · exact absurd rfl (hclose p _)
      · exact ⟨_, us, rfl, hcomma⟩
  · simpa [closed_following_cons, hclosing.symm] using hnext rest hlt

theorem separated_of_items {r : Except FrameStop (FrameReading n β)}
    (hclose : ∀ p rest, ts ≠ ⟨.symbol closing, p⟩ :: rest)
    (h : Reads (fun us b ↦ ∃ as, Items closing item us as ∧ Q as b) Anything ts r) :
    Reads (fun us b ↦ ∃ as, Closed closing (Separated .comma item) us as ∧ Q as b) Anything ts
      r := by
  refine h.congr fun front rest b hts ↦ ?_
  simp only [closed_separated]
  constructor
  · rintro ⟨as, has, hb⟩
    exact ⟨as, .inr has, hb⟩
  · rintro ⟨as, ⟨⟨q, rfl⟩, rfl⟩ | has, hb⟩
    · exact absurd hts (hclose q rest)
    · exact ⟨as, has, hb⟩

/-- An item is read, and then those after it. -/
theorem items {x : Except FrameStop (FrameReading n α)}
    {next : FrameReading n α → Except FrameStop (FrameReading m (List α))}
    (hitem : Reads item follows ts x) (hends : EndsItems closing follows)
    (hnext : ∀ a rest hlt, Reads
      (fun us as ↦ ∃ more, Closed closing (Following .comma item) us more ∧ as = a :: more)
      Anything rest (next ⟨a, rest, hlt⟩)) :
    Reads (Items closing item) Anything ts (x >>= next) := by
  refine bind hitem (fun a rest hlt _ ↦ hnext a rest hlt) (fun us rest as hts ↦ ?_) ?_
  · unfold Items
    grind
  · rintro a as back rest ⟨more, hmore, rfl⟩ -
    exact hends.of_closed a hmore

end Reads

end Lists

section Parentheses

variable {item : FrameReader α} {phrase : Phrase α} {follows : α → List LocatedToken → Prop}

theorem reads_moreOf (hitem : ∀ ts, Reads phrase follows ts (item ts))
    (hends : EndsItems .closeParen follows) (ts : List LocatedToken) :
    Reads (Closed .closeParen (Following .comma phrase)) Anything ts (moreOf item ts) := by
  obtain ⟨n, hn⟩ : ∃ n, ts.length = n := ⟨_, rfl⟩
  induction n using Nat.strongRecOn generalizing ts with
  | ind n ih =>
    unfold moreOf
    split
    · exact Reads.of_exists_eq (Reads.endOfFollowing (by decide) (by simp [eq_comm]))
    · rename_i hclose
      refine Reads.of_exists_eq (Reads.following_of_items (by decide) hclose fun rest hlt ↦ ?_)
      simp only [exists_eq_right]
      refine Reads.items (hitem rest) hends fun a rest' hlt' ↦ ?_
      exact Reads.map (ih _ (by omega) rest' rfl) (f := (a :: ·)) (fun _ _ _ ↦ ⟨_, rfl⟩)
        (fun _ _ ↦ Iff.rfl) (by simp)

theorem reads_itemsOf (hitem : ∀ ts, Reads phrase follows ts (item ts))
    (hends : EndsItems .closeParen follows) (hopens : Opens .closeParen phrase)
    (ts : List LocatedToken) :
    Reads (Closed .closeParen (Separated .comma phrase)) Anything ts (itemsOf item ts) := by
  unfold itemsOf
  split
  · exact Reads.of_exists_eq (Reads.endOfSeparated hopens (by simp [eq_comm]))
  · rename_i hclose
    refine Reads.of_exists_eq (Reads.separated_of_items hclose ?_)
    simp only [exists_eq_right]
    refine Reads.items (hitem ts) hends fun a rest hlt ↦ ?_
    exact Reads.map (reads_moreOf hitem hends rest) (f := (a :: ·)) (fun _ _ _ ↦ ⟨_, rfl⟩)
      (fun _ _ ↦ Iff.rfl) (by simp)

theorem enclosed_cons {opening closing : FrameSymbol} {inner : Phrase α} {p : Position}
    {us : List LocatedToken} {a : α} :
    Enclosed opening closing inner (⟨.symbol opening, p⟩ :: us) a ↔ Closed closing inner us a := by
  constructor
  · rintro ⟨p', q, us', hus, h⟩
    cases hus
    exact ⟨q, us', rfl, h⟩
  · rintro ⟨q, us', rfl, h⟩
    exact ⟨p, q, us', rfl, h⟩

theorem headedBy_enclosed {opening closing : FrameSymbol} {inner : Phrase α}
    {ts : List LocatedToken} :
    HeadedBy (· = .symbol opening) (Enclosed opening closing inner) ts := by
  rintro front rest a - ⟨p, q, us, rfl, -⟩
  exact ⟨_, _, rfl, rfl⟩

theorem reads_parenthesized (hitem : ∀ ts, Reads phrase follows ts (item ts))
    (hends : EndsItems .closeParen follows) (hopens : Opens .closeParen phrase)
    (ts : List LocatedToken) :
    Reads (Parenthesized phrase) Anything ts (parenthesized item ts) := by
  refine Reads.symbolOr_bind headedBy_enclosed fun p rest hlt hts ↦ ?_
  refine Reads.map (reads_itemsOf hitem hends hopens rest) (f := id) (fun _ _ _ ↦ ⟨_, rfl⟩)
    (fun us as ↦ ?_) (by simp)
  rw [Parenthesized, enclosed_cons]
  simp

end Parentheses

end FrameParser

end ReactiveFrames
