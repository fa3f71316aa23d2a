import ReactiveFrames.Proofs.Frame.FunctionPhrases

/-!
# Accepted frame source

The parser of frame source accepts the phrases of the grammar and nothing else. Every reader is
compared with its phrase, from the literals up to the root frame; readers that call each other are
compared together, by induction on the number of tokens.

## Main statements

* `FrameParser.literalsRead`, `FrameParser.reads_property`, `FrameParser.membersRead`.
* `FrameGrammar.RootPhrase.unique`: a list of tokens stands for one frame at most.
* `Frame.ofTokens_eq_ok_iff`: the frames of a list of tokens are those of the grammar.
-/

namespace ReactiveFrames

variable {enums : EnumTable}

namespace FrameParser

open FrameGrammar

variable {α β : Type} {n m : Nat}

/-! ## Literals -/

/-- Entries fill a dictionary one after the other, each under a key that is not there before. -/
def Fills (before : List (String × Literal)) :
    List (String × Literal) → List (String × Literal) → Prop
  | [], all => all = before
  | e :: more, all => e.1 ∉ before.map (·.1) ∧ Fills (Table.insertEntry e.1 e.2 before) more all

theorem perm_insertEntry {name : String} {value : α} {entries : List (String × α)}
    (h : name ∉ entries.map (·.1)) :
    (Table.insertEntry name value entries).Perm ((name, value) :: entries) := by
  induction entries with
  | nil => exact .refl _
  | cons e entries ih =>
    rw [List.map_cons, List.mem_cons, not_or] at h
    rw [Table.insertEntry]
    split
    · exact .refl _
    · rw [if_neg h.1]
      exact ((ih h.2).cons e).trans (.swap ..)

/-- An ascending list is determined by its entries. -/
theorem eq_of_perm_of_ascending {l₁ l₂ : List (String × α)} (h : l₁.Perm l₂)
    (h₁ : l₁.Pairwise fun a b ↦ a.1 < b.1) (h₂ : l₂.Pairwise fun a b ↦ a.1 < b.1) : l₁ = l₂ :=
  h.eq_of_pairwise (fun _ _ _ _ hab hba ↦ absurd hba (String.lt_asymm hab)) h₁ h₂

theorem fills_iff {before written all : List (String × Literal)}
    (h : before.Pairwise fun a b ↦ a.1 < b.1) : Fills before written all ↔
      ((before ++ written).map (·.1)).Nodup ∧ all.Perm (before ++ written) ∧
        all.Pairwise fun a b ↦ a.1 < b.1 := by
  induction written generalizing before with
  | nil =>
    simp only [Fills, List.append_nil]
    constructor
    · rintro rfl
      exact ⟨List.pairwise_map.2 (h.imp String.ne_of_lt), .refl _, h⟩
    · rintro ⟨-, hperm, hall⟩
      exact eq_of_perm_of_ascending hperm hall h
  | cons e written ih =>
    rw [Fills, ih (Table.pairwise_insertEntry _ _ h)]
    have hmove (hfresh : e.1 ∉ before.map (·.1)) :
        (Table.insertEntry e.1 e.2 before ++ written).Perm (before ++ e :: written) :=
      ((perm_insertEntry hfresh).append_right written).trans List.perm_middle.symm
    constructor
    · rintro ⟨hfresh, hnodup, hperm, hall⟩
      have hsame := hmove hfresh
      exact ⟨(hsame.map _).nodup_iff.1 hnodup, hperm.trans hsame, hall⟩
    · rintro ⟨hnodup, hperm, hall⟩
      have hfresh : e.1 ∉ before.map (·.1) := by
        rw [List.map_append, List.map_cons, List.perm_middle.nodup_iff, List.nodup_cons] at hnodup
        exact fun hmem ↦ hnodup.1 (List.mem_append_left _ hmem)
      have hsame := hmove hfresh
      exact ⟨hfresh, (hsame.map _).nodup_iff.2 hnodup, hperm.trans hsame.symm, hall⟩

/-- A phrase that starts with an opening symbol, or is a single token of a scalar. -/
theorem literalPhrase_openBracket {leaf : Option ScalarType} {p : Position}
    {us : List LocatedToken} {value : Literal} :
    LiteralPhrase enums leaf (⟨.symbol .openBracket, p⟩ :: us) value ↔
      ∃ items, Closed .closeBracket (Separated .comma (LiteralPhrase enums leaf)) us items ∧
        value = .array items := by
  constructor
  · intro h
    generalize hts : (⟨.symbol .openBracket, p⟩ :: us : List LocatedToken) = ts at h
    cases h with
    | scalar h => cases hts; cases h
    | array h => cases hts; exact ⟨_, ⟨_, _, rfl, h⟩, rfl⟩
    | dictionary => cases hts
  · rintro ⟨items, ⟨q, ts, rfl, h⟩, rfl⟩
    exact .array h

theorem literalPhrase_openBrace {leaf : Option ScalarType} {p : Position}
    {us : List LocatedToken} {value : Literal} :
    LiteralPhrase enums leaf (⟨.symbol .openBrace, p⟩ :: us) value ↔
      ∃ all, (∃ written, Closed .closeBrace (Separated .comma (EntryPhrase enums leaf)) us written ∧
        Fills [] written all) ∧ value = .dictionary all := by
  simp only [fills_iff List.Pairwise.nil, List.nil_append]
  constructor
  · intro h
    generalize hts : (⟨.symbol .openBrace, p⟩ :: us : List LocatedToken) = ts at h
    cases h with
    | scalar h => cases hts; cases h
    | array => cases hts
    | dictionary h hkeys hperm hascending =>
      cases hts
      exact ⟨_, ⟨_, ⟨_, _, rfl, h⟩, hkeys, hperm, hascending⟩, rfl⟩
  · rintro ⟨entries, ⟨written, ⟨q, ts, rfl, h⟩, hkeys, hperm, hascending⟩, rfl⟩
    exact .dictionary h hkeys hperm hascending

theorem literalPhrase_nil {leaf : Option ScalarType} (value : Literal) :
    ¬LiteralPhrase enums leaf [] value := by
  intro h
  generalize hts : ([] : List LocatedToken) = ts at h
  cases h with
  | scalar => cases hts
  | array => cases hts
  | dictionary => cases hts

theorem literalPhrase_of_not_opening {leaf : Option ScalarType} {ts : List LocatedToken}
    (hbracket : ∀ p rest, ts ≠ ⟨.symbol .openBracket, p⟩ :: rest)
    (hbrace : ∀ p rest, ts ≠ ⟨.symbol .openBrace, p⟩ :: rest) (front rest : List LocatedToken)
    (value : Literal) (hts : ts = front ++ rest) : LiteralPhrase enums leaf front value ↔
      ∃ s, (∃ t, front = [t] ∧ ScalarToken enums leaf t.token s) ∧ value = .scalar s := by
  subst hts
  constructor
  · intro h
    cases h with
    | scalar h => exact ⟨_, ⟨_, rfl, h⟩, rfl⟩
    | array => exact absurd rfl (hbracket _ _)
    | dictionary => exact absurd rfl (hbrace _ _)
  · rintro ⟨s, ⟨t, rfl, h⟩, rfl⟩
    exact .scalar h

theorem reads_scalar (leaf : Option ScalarType) (ts : List LocatedToken) :
    Reads (fun us s ↦ ∃ t, us = [t] ∧ ScalarToken enums leaf t.token s) Anything ts
      (scalar enums leaf ts) := by
  unfold scalar
  split
  · refine Reads.error ?_
    rintro front rest s hts ⟨t, rfl, -⟩
    cases hts
  · rename_i t rest
    split
    · rename_i s hs
      refine Reads.cons (Reads.done ⟨t, rfl, scalarToken_iff.2 hs⟩ trivial ?_) ?_
      · rintro front rest' s' - ⟨t', hus, hs'⟩
        cases hus
        rw [scalarToken_iff, hs] at hs'
        cases hs'
        exact ⟨rfl, rfl⟩
      · rintro s' ⟨t', hus, -⟩
        cases hus
    · rename_i fault hfault
      refine Reads.error ?_
      rintro front rest' s hts ⟨t', rfl, hs⟩
      cases hts
      rw [scalarToken_iff, hfault] at hs
      cases hs

theorem opens_literal {leaf : Option ScalarType} :
    Opens .closeBracket (LiteralPhrase enums leaf) := by
  intro front value h
  cases h with
  | scalar h =>
    refine ⟨_, _, rfl, fun htoken ↦ ?_⟩
    rw [htoken] at h
    cases h
  | array => exact ⟨_, _, rfl, by simp⟩
  | dictionary => exact ⟨_, _, rfl, by simp⟩

theorem opens_entry {leaf : Option ScalarType} : Opens .closeBrace (EntryPhrase enums leaf) := by
  rintro front entry ⟨h⟩
  exact ⟨_, _, rfl, by simp⟩

theorem any_key_iff {entries : List (String × Literal)} {name : String} :
    entries.any (fun e ↦ e.1 == name) = true ↔ name ∈ entries.map (·.1) := by
  simp

theorem Reads.key_bind {before : List (String × Literal)} {ts : List LocatedToken}
    {whole : Phrase β} {follows : β → List LocatedToken → Prop}
    {next : FrameReading ts.length String → Except FrameStop (FrameReading m β)}
    (hwhole : HeadedBy (fun token ↦ ∃ name, token = .word name ∧ name ∉ before.map (·.1)) whole ts)
    (hnext : ∀ name p rest hlt, name ∉ before.map (·.1) →
      Reads (fun us b ↦ whole (⟨.word name, p⟩ :: us) b) follows rest (next ⟨name, rest, hlt⟩)) :
    Reads whole follows ts (key before ts >>= next) := by
  unfold key
  split
  · rename_i name p rest
    split
    · rename_i hused
      refine Reads.error_of_head hwhole ?_
      rintro t ht ⟨name', htoken, hfresh⟩
      cases ht
      cases htoken
      exact hfresh (any_key_iff.1 hused)
    · rename_i hfresh
      exact Reads.cons (hnext name p rest (by simp) (hfresh ∘ any_key_iff.2)) fun b hb ↦
        absurd hb (hwhole.not_nil b)
  · rename_i hhead
    refine Reads.error_of_head hwhole ?_
    rintro t ht ⟨name, htoken, -⟩
    obtain ⟨rest, rfl⟩ := List.head?_eq_some_iff.1 ht
    exact hhead name t.position rest (by rw [← htoken])

/-- A row of entries starts with a key, a colon and the value of the key. -/
theorem items_entry_iff {leaf : Option ScalarType} {us : List LocatedToken}
    {written : List (String × Literal)} : Items .closeBrace (EntryPhrase enums leaf) us written ↔
      ∃ name p q value more front back, written = (name, value) :: more ∧
        us = ⟨.word name, p⟩ :: ⟨.symbol .colon, q⟩ :: front ++ back ∧
          LiteralPhrase enums leaf front value ∧
            Closed .closeBrace (Following .comma (EntryPhrase enums leaf)) back more := by
  constructor
  · rintro ⟨e, more, front, back, rfl, rfl, ⟨h⟩, hmore⟩
    exact ⟨_, _, _, _, more, _, back, rfl, rfl, h, hmore⟩
  · rintro ⟨name, p, q, value, more, front, back, rfl, rfl, h, hmore⟩
    exact ⟨_, more, _, back, rfl, rfl, .mk h, hmore⟩

/-- What the readers of literals read. They call each other, in the end on fewer tokens. -/
structure LiteralsRead (enums : EnumTable) (leaf : Option ScalarType) (ts : List LocatedToken) :
    Prop where
  literal : Reads (LiteralPhrase enums leaf) Anything ts (literal enums leaf ts)
  items : Reads (Closed .closeBracket (Separated .comma (LiteralPhrase enums leaf))) Anything ts
    (items enums leaf ts)
  moreItems : Reads (Closed .closeBracket (Following .comma (LiteralPhrase enums leaf))) Anything ts
    (moreItems enums leaf ts)
  entries : Reads (fun us all ↦ ∃ written,
    Closed .closeBrace (Separated .comma (EntryPhrase enums leaf)) us written ∧
      Fills [] written all) Anything ts (entries enums leaf ts)
  entry (before : List (String × Literal)) : Reads (fun us all ↦ ∃ written,
    Items .closeBrace (EntryPhrase enums leaf) us written ∧ Fills before written all)
    Anything ts (entry enums leaf before ts)
  moreEntries (before : List (String × Literal)) : Reads (fun us all ↦ ∃ written,
    Closed .closeBrace (Following .comma (EntryPhrase enums leaf)) us written ∧
      Fills before written all) Anything ts (moreEntries enums leaf before ts)

theorem reads_literal_of_shorter {leaf : Option ScalarType} {ts : List LocatedToken}
    (shorter : ∀ us : List LocatedToken, us.length < ts.length → LiteralsRead enums leaf us) :
    Reads (LiteralPhrase enums leaf) Anything ts (literal enums leaf ts) := by
  unfold literal
  split
  · rename_i p rest
    refine Reads.cons ?_ fun value hvalue ↦ absurd hvalue (literalPhrase_nil value)
    simp only [literalPhrase_openBracket]
    exact Reads.map (shorter rest (by simp)).items (fun _ _ _ ↦ ⟨_, rfl⟩) (fun _ _ ↦ Iff.rfl)
      (by simp)
  · rename_i p rest
    refine Reads.cons ?_ fun value hvalue ↦ absurd hvalue (literalPhrase_nil value)
    simp only [literalPhrase_openBrace]
    exact Reads.map (shorter rest (by simp)).entries (fun _ _ _ ↦ ⟨_, rfl⟩) (fun _ _ ↦ Iff.rfl)
      (by simp)
  · rename_i hbracket hbrace
    refine Reads.congr (Reads.map (reads_scalar leaf ts) (f := .scalar) (fun _ _ _ ↦ ⟨_, rfl⟩)
      (fun _ _ ↦ Iff.rfl) (by simp)) fun front rest value hts ↦ ?_
    exact (literalPhrase_of_not_opening hbracket hbrace front rest value hts).symm

theorem reads_entry_of_shorter {leaf : Option ScalarType} {ts : List LocatedToken}
    (shorter : ∀ us : List LocatedToken, us.length < ts.length → LiteralsRead enums leaf us)
    (before : List (String × Literal)) : Reads (fun us all ↦ ∃ written,
      Items .closeBrace (EntryPhrase enums leaf) us written ∧ Fills before written all)
      Anything ts (entry enums leaf before ts) := by
  simp only [items_entry_iff]
  unfold entry
  refine Reads.key_bind ?_ fun name p rest hlt hfresh ↦ ?_
  · rintro front rest all - ⟨written, ⟨name, p, q, value, more, us, back, rfl, rfl, -⟩, hfills⟩
    exact ⟨_, _, rfl, name, rfl, hfills.1⟩
  refine Reads.symbolOr_bind ?_ fun q rest' hlt' hrest ↦ ?_
  · rintro front rest' all - ⟨written, ⟨name', p, q, value, more, us, back, rfl, heq, -⟩, -⟩
    cases heq
    exact ⟨_, _, rfl, rfl⟩
  refine Reads.bind (E := fun value us all ↦ ∃ more,
    Closed .closeBrace (Following .comma (EntryPhrase enums leaf)) us more ∧
      Fills (Table.insertEntry name value before) more all)
    (shorter rest' (by omega)).literal (fun value rest'' hlt'' _ ↦ ?_)
    (fun us rest'' all _ ↦ ?_) (fun _ _ _ _ _ _ ↦ trivial)
  · exact Reads.map ((shorter rest'' (by omega)).moreEntries _) (f := id)
      (fun _ _ _ ↦ ⟨_, rfl⟩) (by simp) (by simp)
  · constructor
    · rintro ⟨written, ⟨name', p, q, value, more, front, back, rfl, heq, h, hmore⟩, hfills⟩
      cases heq
      exact ⟨value, front, back, rfl, h, more, hmore, hfills.2⟩
    · rintro ⟨value, front, back, rfl, h, more, hmore, hfills⟩
      exact ⟨_, ⟨_, _, _, value, more, front, back, rfl, rfl, h, hmore⟩, hfresh, hfills⟩

theorem literalsRead (leaf : Option ScalarType) (ts : List LocatedToken) :
    LiteralsRead enums leaf ts := by
  induction hn : ts.length using Nat.strongRecOn generalizing ts with
  | ind n ih =>
    have shorter (us : List LocatedToken) (hlt : us.length < ts.length) :
        LiteralsRead enums leaf us := ih us.length (by omega) us rfl
    -- On the same tokens, `items` calls `literal`, and `entries` and `moreEntries` call `entry`.
    have hliteral := reads_literal_of_shorter shorter
    have hentry := reads_entry_of_shorter shorter
    refine ⟨hliteral, ?_, ?_, ?_, hentry, fun before ↦ ?_⟩
    · unfold items
      split
      · exact Reads.of_exists_eq (Reads.endOfSeparated opens_literal (by simp [eq_comm]))
      · rename_i hclose
        refine Reads.of_exists_eq (Reads.separated_of_items hclose ?_)
        simp only [exists_eq_right]
        refine Reads.items hliteral (fun _ _ _ _ _ ↦ trivial) fun item rest hlt ↦ ?_
        exact Reads.map (shorter rest hlt).moreItems (f := (item :: ·)) (fun _ _ _ ↦ ⟨_, rfl⟩)
          (fun _ _ ↦ Iff.rfl) (by simp)
    · unfold moreItems
      split
      · exact Reads.of_exists_eq (Reads.endOfFollowing (by decide) (by simp [eq_comm]))
      · rename_i hclose
        refine Reads.of_exists_eq (Reads.following_of_items (by decide) hclose fun rest hlt ↦ ?_)
        simp only [exists_eq_right]
        refine Reads.items (shorter rest hlt).literal (fun _ _ _ _ _ ↦ trivial)
          fun item rest' hlt' ↦ ?_
        exact Reads.map (shorter rest' (by omega)).moreItems (f := (item :: ·))
          (fun _ _ _ ↦ ⟨_, rfl⟩) (fun _ _ ↦ Iff.rfl) (by simp)
    · unfold entries
      split
      · exact Reads.endOfSeparated opens_entry fun _ ↦ Iff.rfl
      · rename_i hclose
        exact Reads.separated_of_items hclose (hentry [])
    · unfold moreEntries
      split
      · exact Reads.endOfFollowing (by decide) fun _ ↦ Iff.rfl
      · rename_i hclose
        refine Reads.following_of_items (by decide) hclose fun rest hlt ↦ ?_
        exact Reads.map ((shorter rest hlt).entry before) (f := id) (fun _ _ _ ↦ ⟨_, rfl⟩) (by simp)
          (by simp)

/-! ## Properties -/

theorem headedBy_array {ts : List LocatedToken} :
    HeadedBy (· = .symbol .openBracket) (PropertyPhrase enums .array) ts := by
  intro front rest value _ hfront
  cases hfront with
  | array h =>
    cases h
    exact ⟨_, _, rfl, rfl⟩

theorem headedBy_dictionary {ts : List LocatedToken} :
    HeadedBy (· = .symbol .openBrace) (PropertyPhrase enums .dictionary) ts := by
  intro front rest value _ hfront
  cases hfront with
  | dictionary h =>
    cases h
    exact ⟨_, _, rfl, rfl⟩

theorem propertyPhrase_array {p : Position} {us : List LocatedToken}
    {property : PropertyType × Literal} :
    PropertyPhrase enums .array (⟨.symbol .openBracket, p⟩ :: us) property ↔
      ∃ items, Closed .closeBracket (Separated .comma (LiteralPhrase enums none)) us items ∧
        property = (.array none, .array items) := by
  constructor
  · intro h
    cases h with
    | array h =>
      obtain ⟨_, hitems, heq⟩ := literalPhrase_openBracket.1 h
      cases heq
      exact ⟨_, hitems, rfl⟩
  · rintro ⟨items, h, rfl⟩
    exact .array (literalPhrase_openBracket.2 ⟨items, h, rfl⟩)

theorem propertyPhrase_dictionary {p : Position} {us : List LocatedToken}
    {property : PropertyType × Literal} :
    PropertyPhrase enums .dictionary (⟨.symbol .openBrace, p⟩ :: us) property ↔
      ∃ all, (∃ written, Closed .closeBrace (Separated .comma (EntryPhrase enums none)) us written ∧
        Fills [] written all) ∧ property = (.dictionary none, .dictionary all) := by
  constructor
  · intro h
    cases h with
    | dictionary h =>
      obtain ⟨_, hentries, heq⟩ := literalPhrase_openBrace.1 h
      cases heq
      exact ⟨_, hentries, rfl⟩
  · rintro ⟨all, h, rfl⟩
    exact .dictionary (literalPhrase_openBrace.2 ⟨all, h, rfl⟩)

/-- Type of a property whose value has leaves of a scalar type. -/
def typeOver (leaf : ScalarType) : Literal → PropertyType
  | .scalar _ => .scalar leaf
  | .array _ => .array (some leaf)
  | .dictionary _ => .dictionary (some leaf)

theorem propertyPhrase_scalar {leaf : ScalarType} {us : List LocatedToken}
    {property : PropertyType × Literal} : PropertyPhrase enums (.scalar leaf) us property ↔
      ∃ value, LiteralPhrase enums (some leaf) us value ∧
        property = (typeOver leaf value, value) := by
  constructor
  · intro h
    cases h with
    | scalar h => exact ⟨_, h, rfl⟩
    | leafArray h => exact ⟨_, h, rfl⟩
    | leafDictionary h => exact ⟨_, h, rfl⟩
  · rintro ⟨value, h, rfl⟩
    cases value with
    | scalar => exact .scalar h
    | array => exact .leafArray h
    | dictionary => exact .leafDictionary h

theorem reads_property (type : ValueType) (ts : List LocatedToken) :
    Reads (PropertyPhrase enums type) Anything ts (property enums type ts) := by
  cases type with
  | array =>
    refine Reads.symbolOr_bind headedBy_array fun p rest hlt hts ↦ ?_
    simp only [propertyPhrase_array]
    exact Reads.map (literalsRead none rest).items (fun _ _ _ ↦ ⟨_, rfl⟩) (fun _ _ ↦ Iff.rfl)
      (by simp)
  | dictionary =>
    refine Reads.symbolOr_bind headedBy_dictionary fun p rest hlt hts ↦ ?_
    simp only [propertyPhrase_dictionary]
    exact Reads.map (literalsRead none rest).entries (fun _ _ _ ↦ ⟨_, rfl⟩) (fun _ _ ↦ Iff.rfl)
      (by simp)
  | scalar leaf =>
    refine Reads.map (literalsRead (some leaf) ts).literal
      (f := fun value ↦ (typeOver leaf value, value)) (fun value rest hlt ↦ ?_)
      (fun _ _ ↦ propertyPhrase_scalar) (by simp)
    exact ⟨hlt, by cases value <;> rfl⟩

/-! ## Members -/

theorem functionKeyword?_iff {ts : List LocatedToken} {kind : FunctionKind} :
    functionKeyword? ts = some kind ↔
      ∃ name p us, ts = ⟨.word name, p⟩ :: us ∧ NamesFunction name kind := by
  simp only [namesFunction_iff]
  unfold functionKeyword?
  split
  · simp
  · rename_i hword
    simp only [reduceCtorEq, false_iff]
    rintro ⟨name, p, us, rfl, -⟩
    exact hword name p us rfl

/-- What follows the type of a member. -/
inductive TypedPhrase (enums : EnumTable) (name : String) (line : Nat) (type : ValueType) :
    Phrase Member
  | function {p : Position} {keyword : String} {kind : FunctionKind} {ts : List LocatedToken}
    {f : Function} (hkind : NamesFunction keyword kind)
    (h : FunctionPhrase enums kind (some type) ts f) :
    TypedPhrase enums name line type (⟨.word keyword, p⟩ :: ts) (.function name line f)
  | property {ts : List LocatedToken} {declared : PropertyType} {value : Literal}
    (hfirst : ¬StartsFunction ts) (h : PropertyPhrase enums type ts (declared, value)) :
    TypedPhrase enums name line type ts (.property name line declared value)

theorem propertyPhrase_nil {type : ValueType} (property : PropertyType × Literal) :
    ¬PropertyPhrase enums type [] property := by
  intro h
  cases h
  all_goals exact literalPhrase_nil _ ‹_›

theorem typedPhrase_nil {name : String} {line : Nat} {type : ValueType} (m : Member) :
    ¬TypedPhrase enums name line type [] m := by
  intro h
  cases h with
  | property hfirst h => exact propertyPhrase_nil _ h

theorem typedPhrase_of_keyword {name keyword : String} {line : Nat} {type : ValueType}
    {kind : FunctionKind} {p : Position} {us : List LocatedToken} {m : Member}
    (hkind : NamesFunction keyword kind) :
    TypedPhrase enums name line type (⟨.word keyword, p⟩ :: us) m ↔
      ∃ f, FunctionPhrase enums kind (some type) us f ∧ m = .function name line f := by
  constructor
  · intro h
    cases h with
    | function hkind' h =>
      rw [namesFunction_iff] at hkind hkind'
      cases hkind.symm.trans hkind'
      exact ⟨_, h, rfl⟩
    | property hfirst h => exact absurd ⟨keyword, p, us, kind, rfl, hkind⟩ hfirst
  · rintro ⟨f, h, rfl⟩
    exact .function hkind h

theorem typedPhrase_of_no_keyword {name : String} {line : Nat} {type : ValueType}
    {ts : List LocatedToken} (hfirst : functionKeyword? ts = none) (front rest : List LocatedToken)
    (m : Member) (hts : ts = front ++ rest) : TypedPhrase enums name line type front m ↔
      ∃ a, PropertyPhrase enums type front a ∧ m = .property name line a.1 a.2 := by
  subst hts
  have hnone (kind : FunctionKind) (keyword : String) (p : Position) (us : List LocatedToken)
      (hfront : front = ⟨.word keyword, p⟩ :: us) : ¬NamesFunction keyword kind := by
    intro hkind
    rw [functionKeyword?_iff.2 ⟨keyword, p, us ++ rest, by rw [hfront]; rfl, hkind⟩] at hfirst
    cases hfirst
  constructor
  · intro h
    cases h with
    | function hkind h => exact absurd hkind (hnone _ _ _ _ rfl)
    | property _ h => exact ⟨_, h, rfl⟩
  · rintro ⟨⟨declared, value⟩, h, rfl⟩
    refine .property ?_ h
    rintro ⟨keyword, p, us, kind, hfront, hkind⟩
    exact hnone _ _ _ _ hfront hkind

theorem reads_typedMember (name : String) (line : Nat) (type : ValueType) (ts : List LocatedToken) :
    Reads (TypedPhrase enums name line type) Anything ts (typedMember enums name line type ts) := by
  have hproperty (hfirst : functionKeyword? ts = none) :
      Reads (TypedPhrase enums name line type) Anything ts (property enums type ts >>= fun p ↦
        .ok ⟨.property name line p.value.1 p.value.2, p.rest, p.length_lt⟩) := by
    refine Reads.congr (Reads.map (reads_property type ts)
      (f := fun a ↦ .property name line a.1 a.2) (fun _ _ hlt ↦ ⟨hlt, rfl⟩) (fun _ _ ↦ Iff.rfl)
      (by simp)) fun front rest m hts ↦ ?_
    exact (typedPhrase_of_no_keyword hfirst front rest m hts).symm
  cases ts with
  | nil => exact hproperty rfl
  | cons t rest =>
    unfold typedMember
    cases hfirst : functionKeyword? (t :: rest) with
    | none => exact hproperty hfirst
    | some kind =>
      obtain ⟨keyword, p, us, hts, hkind⟩ := functionKeyword?_iff.1 hfirst
      cases hts
      refine Reads.cons ?_ fun m hm ↦ absurd hm (typedPhrase_nil m)
      simp only [typedPhrase_of_keyword hkind]
      exact Reads.map (reads_function kind (some type) rest) (fun _ _ _ ↦ ⟨_, rfl⟩)
        (fun _ _ ↦ Iff.rfl) (by simp)

/-- What follows the first word after the colon of a member, whose meaning is known. -/
def MeaningPhrase (enums : EnumTable) (name : String) (line : Nat) : TypeWord → Phrase Member
  | .function kind => fun ts m ↦
    ∃ f, FunctionPhrase enums kind none ts f ∧ m = .function name line f
  | .class className => fun ts m ↦
    ∃ members, BodyPhrase enums ts members ∧ m = .frame name line className members
  | .value type => TypedPhrase enums name line type

theorem memberPhrase_iff {us : List LocatedToken} {m : Member} : MemberPhrase enums us m ↔
    ∃ name p q word r tail, us = ⟨.word name, p⟩ :: ⟨.symbol .colon, q⟩ :: ⟨.word word, r⟩ :: tail ∧
      MeaningPhrase enums name p.line (TypeWord.ofName enums word) tail m := by
  constructor
  · intro h
    cases h with
    | frame hclass h =>
      refine ⟨_, _, _, _, _, _, rfl, ?_⟩
      rw [means_iff.1 hclass]
      exact ⟨_, h, rfl⟩
    | function hkind h =>
      refine ⟨_, _, _, _, _, _, rfl, ?_⟩
      rw [means_iff.1 hkind]
      exact ⟨_, h, rfl⟩
    | typedFunction htype hkind h =>
      refine ⟨_, _, _, _, _, _, rfl, ?_⟩
      rw [means_iff.1 htype]
      exact .function hkind h
    | property htype hfirst h =>
      refine ⟨_, _, _, _, _, _, rfl, ?_⟩
      rw [means_iff.1 htype]
      exact .property hfirst h
  · rintro ⟨name, p, q, word, r, tail, rfl, h⟩
    cases hword : TypeWord.ofName enums word with
    | function kind =>
      rw [hword] at h
      obtain ⟨f, h, rfl⟩ := h
      exact .function (means_iff.2 hword) h
    | «class» className =>
      rw [hword] at h
      obtain ⟨members, h, rfl⟩ := h
      obtain rfl := TypeWord.className_of_ofName hword
      exact .frame (means_iff.2 hword) h
    | value type =>
      rw [hword] at h
      cases h with
      | function hkind h => exact .typedFunction (means_iff.2 hword) hkind h
      | property hfirst h => exact .property (means_iff.2 hword) hfirst h

theorem memberPhrase_cons {name word : String} {p q r : Position} {tail : List LocatedToken}
    {m : Member} :
    MemberPhrase enums (⟨.word name, p⟩ :: ⟨.symbol .colon, q⟩ :: ⟨.word word, r⟩ :: tail) m ↔
      MeaningPhrase enums name p.line (TypeWord.ofName enums word) tail m := by
  rw [memberPhrase_iff]
  constructor
  · rintro ⟨name', p', q', word', r', tail', heq, h⟩
    cases heq
    exact h
  · exact fun h ↦ ⟨name, p, q, word, r, tail, rfl, h⟩

theorem bodyPhrase_cons {p : Position} {us : List LocatedToken} {ms : List Member} :
    BodyPhrase enums (⟨.symbol .openBrace, p⟩ :: us) ms ↔
      Closed .closeBrace (MembersPhrase enums) us ms := by
  constructor
  · intro h
    generalize hts : (⟨.symbol .openBrace, p⟩ :: us : List LocatedToken) = ts at h
    cases h with
    | mk h =>
      cases hts
      exact ⟨_, _, rfl, h⟩
  · rintro ⟨q, ts, rfl, h⟩
    exact .mk h

theorem headedBy_body {ts : List LocatedToken} :
    HeadedBy (· = .symbol .openBrace) (BodyPhrase enums) ts := by
  intro front rest ms _ h
  cases h with
  | mk h => exact ⟨_, _, rfl, rfl⟩

theorem headedBy_member {ts : List LocatedToken} :
    HeadedBy (fun token ↦ ∃ name, token = .word name) (MemberPhrase enums) ts := by
  intro front rest m _ h
  obtain ⟨name, p, q, word, r, tail, rfl, -⟩ := memberPhrase_iff.1 h
  exact ⟨_, _, rfl, name, rfl⟩

/-- Members up to the closing brace, after another member. -/
def MoreMembers (enums : EnumTable) : Phrase (List Member) := fun ts ms ↦
  Closed .closeBrace (MembersPhrase enums) ts ms ∨
    ∃ p us, ts = ⟨.symbol .comma, p⟩ :: us ∧ Closed .closeBrace (MembersPhrase enums) us ms

theorem closed_members {us : List LocatedToken} {ms : List Member} :
    Closed .closeBrace (MembersPhrase enums) us ms ↔
      (∃ q, us = [⟨.symbol .closeBrace, q⟩]) ∧ ms = [] ∨
        ∃ m front back, us = front ++ back ∧ MemberPhrase enums front m ∧
          ∃ more, MoreMembers enums back more ∧ ms = m :: more := by
  constructor
  · rintro ⟨q, us', rfl, h⟩
    cases h with
    | nil => exact .inl ⟨⟨q, rfl⟩, rfl⟩
    | cons h hmore =>
      exact .inr ⟨_, _, _, List.append_assoc .., h, _, .inl ⟨q, _, rfl, hmore⟩, rfl⟩
    | consComma h hmore =>
      exact .inr ⟨_, _, _, List.append_assoc .., h, _, .inr ⟨_, _, rfl, q, _, rfl, hmore⟩, rfl⟩
  · rintro (⟨⟨q, rfl⟩, rfl⟩ | ⟨m, front, back, rfl, h, more, hmore, rfl⟩)
    · exact ⟨q, [], rfl, .nil⟩
    · rcases hmore with ⟨q, us, rfl, hmore⟩ | ⟨p, back, rfl, q, us, rfl, hmore⟩
      · exact ⟨q, _, (List.append_assoc ..).symm, .cons h hmore⟩
      · exact ⟨q, front ++ ⟨.symbol .comma, p⟩ :: us, by simp, .consComma h hmore⟩

/-- No member starts with a comma. -/
theorem not_closed_members_comma {p : Position} {us : List LocatedToken} {ms : List Member} :
    ¬Closed .closeBrace (MembersPhrase enums) (⟨.symbol .comma, p⟩ :: us) ms := by
  rw [closed_members]
  rintro (⟨⟨q, hus⟩, -⟩ | ⟨m, front, back, hus, h, -⟩)
  · cases hus
  · obtain ⟨t, us', rfl, name, htoken⟩ := headedBy_member front back m rfl h
    cases hus
    cases htoken

theorem moreMembers_comma {p : Position} {us : List LocatedToken} {ms : List Member} :
    MoreMembers enums (⟨.symbol .comma, p⟩ :: us) ms ↔
      Closed .closeBrace (MembersPhrase enums) us ms := by
  constructor
  · rintro (h | ⟨q, us', hus, h⟩)
    · exact absurd h not_closed_members_comma
    · cases hus
      exact h
  · exact fun h ↦ .inr ⟨p, us, rfl, h⟩

theorem reads_moreMembers {ts : List LocatedToken} (f : List Member → List Member)
    {x : (reading : FrameReading (ts.length + 1) Bool) →
      Except FrameStop (FrameReading reading.rest.length (List Member))}
    {k : (reading : FrameReading (ts.length + 1) Bool) →
      FrameReading reading.rest.length (List Member) →
        Except FrameStop (FrameReading n (List Member))}
    (hx : ∀ reading, Reads (Closed .closeBrace (MembersPhrase enums)) Anything reading.rest
      (x reading))
    (hnext : ∀ reading ms rest hlt, ∃ hlt', k reading ⟨ms, rest, hlt⟩ = .ok ⟨f ms, rest, hlt'⟩) :
    Reads (fun us b ↦ ∃ ms, MoreMembers enums us ms ∧ b = f ms) Anything ts
      (x (symbol? .comma ts) >>= k (symbol? .comma ts)) := by
  cases hcomma : atSymbol .comma ts with
  | true =>
    obtain ⟨p, rest, hlt, rfl, hread⟩ := symbol?_of_atSymbol hcomma
    rw [hread]
    refine Reads.cons ?_ ?_
    · simp only [moreMembers_comma]
      exact Reads.map (hx ⟨true, rest, hlt⟩) (hnext _) (fun _ _ ↦ Iff.rfl) (by simp)
    · rintro ms ⟨more, h | ⟨q, us, hus, -⟩, -⟩
      · exact absurd h (not_closed_nil more)
      · cases hus
  | false =>
    rw [symbol?_of_not_atSymbol hcomma]
    refine Reads.congr (Reads.map (hx ⟨false, ts, _⟩) (hnext _) (fun _ _ ↦ Iff.rfl) (by simp))
      fun front rest ms hts ↦ ?_
    constructor
    · rintro ⟨more, h, rfl⟩
      exact ⟨more, .inl h, rfl⟩
    · rintro ⟨more, h | ⟨q, us, rfl, -⟩, rfl⟩
      · exact ⟨more, h, rfl⟩
      · simp [hts, atSymbol] at hcomma

structure MembersRead (enums : EnumTable) (ts : List LocatedToken) : Prop where
  member : Reads (MemberPhrase enums) Anything ts (member enums ts)
  members : Reads (Closed .closeBrace (MembersPhrase enums)) Anything ts (members enums ts)

/-- A member is read as it should be if the members of a frame in it, on fewer tokens, are. -/
theorem reads_member_of_shorter {ts : List LocatedToken}
    (shorter : ∀ us : List LocatedToken, us.length < ts.length → MembersRead enums us) :
    Reads (MemberPhrase enums) Anything ts (member enums ts) := by
  unfold member
  refine Reads.word_bind headedBy_member fun name p rest hlt hts ↦ ?_
  refine Reads.symbolOr_bind ?_ fun q rest' hlt' hrest ↦ ?_
  · intro front rest' m _ h
    obtain ⟨name', p', q, word, r, tail, heq, -⟩ := memberPhrase_iff.1 h
    cases heq
    exact ⟨_, _, rfl, rfl⟩
  refine Reads.word_bind ?_ fun word r rest₂ hlt₂ hrest' ↦ ?_
  · intro front rest' m _ h
    obtain ⟨name', p', q, word, r, tail, heq, -⟩ := memberPhrase_iff.1 h
    cases heq
    exact ⟨_, _, rfl, word, rfl⟩
  have hline : lineOf ts = p.line := by
    rw [hts]
    rfl
  simp only [memberPhrase_cons, hline]
  split
  · rename_i kind hkind
    rw [hkind]
    exact Reads.map (reads_function kind none rest₂) (fun _ _ _ ↦ ⟨_, rfl⟩) (fun _ _ ↦ Iff.rfl)
      (by simp)
  · rename_i className hclass
    rw [hclass]
    refine Reads.symbolOr_bind ?_ fun s rest₃ hlt₃ hrest₂ ↦ ?_
    · rintro front rest' m hfront ⟨members, h, -⟩
      exact headedBy_body front rest' members hfront h
    · simp only [MeaningPhrase, bodyPhrase_cons]
      exact Reads.map (shorter rest₃ (by omega)).members (fun _ _ _ ↦ ⟨_, rfl⟩)
        (fun _ _ ↦ Iff.rfl) (by simp)
  · rename_i type htype
    rw [htype]
    exact Reads.map (reads_typedMember name p.line type rest₂) (f := id) (fun _ _ _ ↦ ⟨_, rfl⟩)
      (by simp [MeaningPhrase]) (by simp)

theorem reads_members_of_shorter {ts : List LocatedToken}
    (shorter : ∀ us : List LocatedToken, us.length < ts.length → MembersRead enums us) :
    Reads (Closed .closeBrace (MembersPhrase enums)) Anything ts (members enums ts) := by
  unfold members
  split
  · refine Reads.error ?_
    rintro front rest ms hts hfront
    obtain ⟨rfl, rfl⟩ := List.nil_eq_append_iff.1 hts
    exact absurd hfront (not_closed_nil ms)
  · refine Reads.cons (Reads.done (closed_members.2 (.inl ⟨⟨_, rfl⟩, rfl⟩)) trivial ?_)
      fun ms hms ↦ absurd hms (not_closed_nil ms)
    intro front rest' ms hrest hfront
    rcases closed_members.1 hfront with ⟨⟨q, hus⟩, rfl⟩ | ⟨m, front', back, hus, hm, -⟩
    · cases hus
      exact ⟨rfl, rfl⟩
    · obtain ⟨t, us, rfl, name, htoken⟩ := headedBy_member front' back m rfl hm
      cases hus
      cases htoken
  · rename_i hclose
    refine Reads.bind (E := fun m us ms ↦ ∃ more, MoreMembers enums us more ∧ ms = m :: more)
      (reads_member_of_shorter shorter) (fun m rest hlt _ ↦ ?_) (fun us rest ms hts ↦ ?_)
      (fun _ _ _ _ _ _ ↦ trivial)
    · have hshorter (reading : FrameReading (rest.length + 1) Bool) :
          reading.rest.length < ts.length := by
        have hle := reading.length_lt
        omega
      exact reads_moreMembers (m :: ·) (fun reading ↦ (shorter _ (hshorter reading)).members)
        (k := fun reading more ↦ .ok ⟨m :: more.value, more.rest,
          more.length_lt.trans (hshorter reading)⟩) fun _ _ _ _ ↦ ⟨_, rfl⟩
    · rw [closed_members, or_iff_right]
      rintro ⟨⟨q, rfl⟩, -⟩
      exact hclose q rest hts

theorem membersRead (ts : List LocatedToken) : MembersRead enums ts := by
  induction hn : ts.length using Nat.strongRecOn generalizing ts with
  | ind n ih =>
    have shorter (us : List LocatedToken) (hlt : us.length < ts.length) : MembersRead enums us :=
      ih us.length (by omega) us rfl
    exact ⟨reads_member_of_shorter shorter, reads_members_of_shorter shorter⟩

/-! ## Roots -/

private theorem length_lt_of_head {ts us vs ws xs ys : List LocatedToken}
    (h : us.length < ts.length) (h' : vs.length < us.length) (h'' : ws.length < vs.length)
    (h₃ : xs.length < ws.length) (h₄ : ys.length < xs.length) : ys.length < ts.length := by
  omega

/-- Reads a root frame, after which tokens may remain. -/
def rootFrame (enums : EnumTable) (ts : List LocatedToken) :
    Except FrameStop (FrameReading ts.length Frame) := do
  let ⟨name, rest, h⟩ ← word .identifier ts
  let ⟨_, rest', h'⟩ ← symbol .colon rest
  let ⟨className, rest'', h''⟩ ← className enums rest'
  let ⟨_, rest''', h'''⟩ ← symbol .openBrace rest''
  let ⟨members, rest₄, h₄⟩ ← members enums rest'''
  pure ⟨⟨className, name, members⟩, rest₄, length_lt_of_head h h' h'' h''' h₄⟩

theorem root_eq (ts : List LocatedToken) : root enums ts = (rootFrame enums ts >>= fun f ↦
    if f.rest.isEmpty then pure f.value else throw ⟨.afterRoot, f.rest⟩) := by
  simp only [root, rootFrame, bind_assoc, pure_bind]

theorem reads_rootFrame (ts : List LocatedToken) :
    Reads (RootPhrase enums) Anything ts (rootFrame enums ts) := by
  unfold rootFrame
  refine Reads.word_bind ?_ fun name p rest hlt hts ↦ ?_
  · rintro front rest f - ⟨hclass, h⟩
    exact ⟨_, _, rfl, _, rfl⟩
  refine Reads.symbolOr_bind ?_ fun q rest' hlt' hrest ↦ ?_
  · rintro front rest' f - ⟨hclass, h⟩
    exact ⟨_, _, rfl, rfl⟩
  refine Reads.className_bind ?_ fun className r rest₂ hlt₂ hclass ↦ ?_
  · rintro front rest' f - ⟨hclass, h⟩
    exact ⟨_, _, rfl, _, rfl, hclass⟩
  have hroot (us : List LocatedToken) (f : Frame) : RootPhrase enums
      (⟨.word name, p⟩ :: ⟨.symbol .colon, q⟩ :: ⟨.word className, r⟩ :: us) f ↔
        ∃ members, BodyPhrase enums us members ∧ f = ⟨className, name, members⟩ := by
    constructor
    · rintro ⟨-, h⟩
      exact ⟨_, h, rfl⟩
    · rintro ⟨members, h, rfl⟩
      exact .mk hclass h
  simp only [hroot]
  refine Reads.symbolOr_bind ?_ fun s rest₃ hlt₃ hrest₂ ↦ ?_
  · rintro front rest' f hfront ⟨members, h, -⟩
    exact headedBy_body front rest' members hfront h
  simp only [bodyPhrase_cons]
  exact Reads.map (membersRead rest₃).members (fun _ _ _ ↦ ⟨_, rfl⟩) (fun _ _ ↦ Iff.rfl) (by simp)

theorem root_eq_ok_iff {ts : List LocatedToken} {f : Frame} :
    root enums ts = .ok f ↔ RootPhrase enums ts f := by
  rw [root_eq]
  constructor
  · intro h
    obtain ⟨⟨f', rest, hlt⟩, hread, h⟩ := Except.bind_eq_ok.1 h
    obtain ⟨front, rfl, hfront, -⟩ := (reads_rootFrame ts f' rest).1 ⟨hlt, hread⟩
    dsimp only at h
    split at h
    · rename_i hempty
      cases h
      rwa [List.isEmpty_iff.1 hempty, List.append_nil]
    · cases h
  · intro h
    obtain ⟨hlt, hread⟩ := (reads_rootFrame ts f []).2 ⟨ts, (List.append_nil ts).symm, h, trivial⟩
    exact Except.bind_eq_ok.2 ⟨_, hread, rfl⟩

end FrameParser

/-- A list of tokens stands for one frame at most. -/
theorem FrameGrammar.RootPhrase.unique {ts : List LocatedToken} {f g : Frame}
    (hf : RootPhrase enums ts f) (hg : RootPhrase enums ts g) : f = g := by
  rw [← FrameParser.root_eq_ok_iff] at hf hg
  exact Except.ok.inj (hf.symm.trans hg)

/-- The parser accepts exactly the phrases of the grammar, each as the frame that it stands for. -/
theorem Frame.ofTokens_eq_ok_iff {tokens : FrameTokens} {f : Frame} :
    Frame.ofTokens enums tokens = .ok f ↔ FrameGrammar.RootPhrase enums tokens.tokens f := by
  rw [← FrameParser.root_eq_ok_iff]
  unfold Frame.ofTokens
  cases FrameParser.root enums tokens.tokens <;> simp [Except.mapError]

end ReactiveFrames
