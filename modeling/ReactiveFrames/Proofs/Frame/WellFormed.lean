import ReactiveFrames.Frame.Parser
import ReactiveFrames.Proofs.Basic
import ReactiveFrames.Proofs.Frame.Cutting

/-!
# Well-formed frames

What the reader of frame source guarantees of the frame that it returns, beyond what the types say:
names are identifiers, a word that stands for a type is read as that type again, the scalars of a
collection have its leaf type, the keys of a dictionary ascend. The words have their meaning from
the table of enum types, which a type or a member may share a name with, so a keyword is required to
be read as a keyword wherever the canonical source puts one.

## Main definitions

* `Literal.WellFormed`, `Function.WellFormed`, `Member.WellFormed`, `Frame.WellFormed`.
* `FrameParser.Yields`: what is read satisfies a predicate, and the tokens left are still lexical.

## Main statements

* `Frame.wellFormed_of_parse`: a frame that is read from a source is well-formed.
-/

namespace ReactiveFrames

open FrameLexeme (IsWord IsScript)

variable {enums : EnumTable}

/-! ## Conditions -/

/-- The word of the type is read as the type. -/
structure ValueType.WellFormed (enums : EnumTable) (type : ValueType) : Prop where
  isWord : IsWord type.keyword
  ofName : TypeWord.ofName enums type.keyword = .value type

/-- The name is read as the name of a class. -/
structure IsClass (enums : EnumTable) (name : String) : Prop where
  isWord : IsWord name
  ofName : TypeWord.ofName enums name = .class name

/-- The scalar has the given type, if one is given. Without one it is none of a URL and an enum
member, which only their types tell from a string and a word. -/
def Scalar.WellFormed (enums : EnumTable) (leaf : Option ScalarType) : Scalar → Prop
  | .bool _ => leaf = none ∨ leaf = some .bool
  | .int i => (leaf = none ∨ leaf = some .int) ∧ Decimal.minInt64 ≤ i ∧ i ≤ Decimal.maxInt64
  | .float x => (leaf = none ∨ leaf = some .float) ∧ Decimal.IsNumber x
  | .string _ => leaf = none ∨ leaf = some .string
  | .url _ => leaf = some .url
  | .enum type member value => leaf = some (.enum type) ∧ IsWord member ∧
    (enums.type? type).bind (·.valueOf? member) = some value

/-- The leaves of the literal have the given type, if one is given. -/
inductive Literal.WellFormed (enums : EnumTable) (leaf : Option ScalarType) : Literal → Prop
  | scalar {s : Scalar} (h : s.WellFormed enums leaf) : WellFormed enums leaf (.scalar s)
  | array {items : List Literal} (h : ∀ item ∈ items, WellFormed enums leaf item) :
    WellFormed enums leaf (.array items)
  | dictionary {entries : List (String × Literal)} (hkeys : ∀ e ∈ entries, IsWord e.1)
    (hascending : entries.Pairwise (fun a b ↦ a.1 < b.1))
    (h : ∀ e ∈ entries, WellFormed enums leaf e.2) : WellFormed enums leaf (.dictionary entries)

/-- Type whose word introduces a property. -/
def PropertyType.opening : PropertyType → ValueType
  | scalar type => .scalar type
  | array none => .array
  | dictionary none => .dictionary
  | array (some leaf) => .scalar leaf
  | dictionary (some leaf) => .scalar leaf

/-- Type of the leaves of a property, if it is fixed. -/
def PropertyType.leaf : PropertyType → Option ScalarType
  | scalar type => some type
  | array leaf => leaf
  | dictionary leaf => leaf

/-- The literal is a scalar, an array or a dictionary as the type says. -/
def PropertyType.Shapes : PropertyType → Literal → Prop
  | scalar _, .scalar _ => True
  | array _, .array _ => True
  | dictionary _, .dictionary _ => True
  | _, _ => False

/-- A literal that is taken for no function: a lone enum member is no keyword. -/
def Literal.IsNoKeyword : Literal → Prop
  | .scalar (.enum _ member _) => FunctionKind.ofKeyword? member = none
  | _ => True

structure Argument.WellFormed (enums : EnumTable) (a : Argument) : Prop where
  isWord : IsWord a.name
  annotation : ∀ type ∈ a.annotation, type.WellFormed enums

structure PathArgument.WellFormed (a : PathArgument) : Prop where
  isWord : IsWord a.name
  path : ∀ segment ∈ a.path, IsWord segment
  length : 2 ≤ a.path.length

/-- The keyword of a function that stands where a type could stand is read as the keyword. -/
def FunctionKind.Introduces (enums : EnumTable) (kind : FunctionKind) : Prop :=
  TypeWord.ofName enums kind.keyword = .function kind

/-- What the head of a function declares. -/
def Function.HeadWellFormed (enums : EnumTable) : Function → Prop
  | .init argument _ => (∀ a ∈ argument, a.WellFormed enums ∧ a.name ≠ "self") ∧
    FunctionKind.init.Introduces enums
  | .event arguments _ => (∀ a ∈ arguments, a.WellFormed enums) ∧
    FunctionKind.event.Introduces enums
  | .listener arguments returns _ => (∀ a ∈ arguments, a.WellFormed) ∧ returns.WellFormed enums
  | .procedure arguments returns _ => (∀ a ∈ arguments, a.WellFormed enums) ∧
    match returns with
    | none => FunctionKind.procedure.Introduces enums
    | some type => type.WellFormed enums

structure Function.WellFormed (enums : EnumTable) (f : Function) : Prop where
  head : f.HeadWellFormed enums
  isScript : IsScript f.script

inductive Member.WellFormed (enums : EnumTable) : Member → Prop
  | property {name : String} {line : Nat} {type : PropertyType} {value : Literal}
    (hname : IsWord name) (htype : type.opening.WellFormed enums) (hshape : type.Shapes value)
    (hkeyword : value.IsNoKeyword) (h : value.WellFormed enums type.leaf) :
    WellFormed enums (.property name line type value)
  | function {name : String} {line : Nat} {f : Function} (hname : IsWord name)
    (h : f.WellFormed enums) : WellFormed enums (.function name line f)
  | frame {name : String} {line : Nat} {className : String} {members : List Member}
    (hname : IsWord name) (hclass : IsClass enums className)
    (h : ∀ m ∈ members, WellFormed enums m) :
    WellFormed enums (.frame name line className members)

/-- A frame as the reader of frame source returns it. -/
structure Frame.WellFormed (enums : EnumTable) (f : Frame) : Prop where
  isWord : IsWord f.instanceName
  isClass : IsClass enums f.className
  members : ∀ m ∈ f.members, m.WellFormed enums

/-! ## Words of types -/

namespace TypeWord

/-- A word that is read as a value type is the word of the type. -/
theorem keyword_of_ofName {name : String} {type : ValueType} (h : ofName enums name = .value type) :
    type.keyword = name := by
  unfold ofName at h
  split at h
  all_goals try (cases h; rfl)
  split at h
  · cases h
    rfl
  · split at h <;> cases h

/-- A word that is read as a keyword of functions is one. -/
theorem ofKeyword?_of_ofName {name : String} {kind : FunctionKind}
    (h : ofName enums name = .function kind) : FunctionKind.ofKeyword? name = some kind := by
  unfold ofName at h
  split at h
  all_goals try cases h
  split at h
  · cases h
  · split at h
    · cases h
      assumption
    · cases h

/-- A word that is read as a class is the name of the class. -/
theorem className_of_ofName {name className : String} (h : ofName enums name = .class className) :
    className = name := by
  unfold ofName at h
  split at h
  all_goals try cases h
  split at h
  · cases h
  · split at h
    · cases h
    · cases h
      rfl

/-- A listener apart, a kind of function has one keyword. -/
theorem introduces_of_ofName {name : String} {kind : FunctionKind}
    (h : ofName enums name = .function kind) (hkind : kind ≠ .listener) :
    kind.Introduces enums := by
  have hkeyword := ofKeyword?_of_ofName h
  have hname : name = kind.keyword := by
    unfold FunctionKind.ofKeyword? at hkeyword
    split at hkeyword
    all_goals cases hkeyword
    all_goals first | rfl | exact absurd rfl hkind
  rw [FunctionKind.Introduces, ← hname, h]

end TypeWord

theorem ValueType.wellFormed_of_ofName {name : String} {type : ValueType} (hname : IsWord name)
    (h : TypeWord.ofName enums name = .value type) : type.WellFormed enums := by
  have hkeyword := TypeWord.keyword_of_ofName h
  exact ⟨hkeyword ▸ hname, hkeyword ▸ h⟩

/-! ## Lexical tokens -/

/-- Every token is one that is read from a source. -/
def AllLexical (ts : List LocatedToken) : Prop := ∀ t ∈ ts, t.token.Lexical

theorem AllLexical.head {t : LocatedToken} {ts : List LocatedToken} (h : AllLexical (t :: ts)) :
    t.token.Lexical := h t List.mem_cons_self

theorem AllLexical.tail {t : LocatedToken} {ts : List LocatedToken} (h : AllLexical (t :: ts)) :
    AllLexical ts := fun _ hu ↦ h _ (List.mem_cons_of_mem _ hu)

namespace FrameParser

variable {α β : Type} {n m : Nat}

/-- What is read satisfies the predicate, and the tokens that are left are lexical. -/
def Yields (P : α → Prop) (r : Except FrameStop (FrameReading n α)) : Prop :=
  ∀ reading, r = .ok reading → P reading.value ∧ AllLexical reading.rest

namespace Yields

theorem ok {P : α → Prop} {reading : FrameReading n α} (h : P reading.value)
    (hrest : AllLexical reading.rest) : Yields P (.ok reading) := by
  rintro _ heq
  cases heq
  exact ⟨h, hrest⟩

theorem error {P : α → Prop} {stop : FrameStop} :
    Yields P (.error stop : Except FrameStop (FrameReading n α)) := by
  rintro _ h
  cases h

theorem bind {P : α → Prop} {Q : β → Prop} {r : Except FrameStop (FrameReading n α)}
    {next : FrameReading n α → Except FrameStop (FrameReading m β)} (h : Yields P r)
    (hnext : ∀ a rest hlt, P a → AllLexical rest → Yields Q (next ⟨a, rest, hlt⟩)) :
    Yields Q (r >>= next) := by
  intro reading heq
  obtain ⟨⟨a, rest, hlt⟩, hr, hnext'⟩ := Except.bind_eq_ok.1 heq
  obtain ⟨ha, hrest⟩ := h _ hr
  exact hnext a rest hlt ha hrest reading hnext'

/-- A check that reads no token only makes a reader fail. -/
theorem check {Q : β → Prop} {r : Except FrameStop Unit}
    {next : Unit → Except FrameStop (FrameReading m β)} (h : r = .ok () → Yields Q (next ())) :
    Yields Q (r >>= next) := by
  intro reading heq
  obtain ⟨⟨⟩, hr, hnext⟩ := Except.bind_eq_ok.1 heq
  exact h hr reading hnext

/-- What is read before a reader that returns no tokens. -/
theorem exists_of_bind {P : α → Prop} {r : Except FrameStop (FrameReading n α)}
    {next : FrameReading n α → Except FrameStop β} {b : β} (h : Yields P r)
    (heq : r >>= next = .ok b) :
    ∃ a rest hlt, P a ∧ AllLexical rest ∧ next ⟨a, rest, hlt⟩ = .ok b := by
  obtain ⟨⟨a, rest, hlt⟩, hr, hnext⟩ := Except.bind_eq_ok.1 heq
  obtain ⟨ha, hrest⟩ := h _ hr
  exact ⟨a, rest, hlt, ha, hrest, hnext⟩

end Yields

/-! ## Single tokens -/

variable {ts : List LocatedToken}

theorem yields_symbolOr {fault : FrameFault} {s : FrameSymbol} (h : AllLexical ts) :
    Yields (fun _ ↦ True) (symbolOr fault s ts) := by
  unfold symbolOr
  split
  · split
    · exact .ok trivial h.tail
    · exact .error
  · exact .error

theorem yields_symbol {s : FrameSymbol} (h : AllLexical ts) :
    Yields (fun _ ↦ True) (symbol s ts) := yields_symbolOr h

theorem allLexical_symbol? {s : FrameSymbol} (h : AllLexical ts) :
    AllLexical (symbol? s ts).rest := by
  unfold symbol?
  split
  · split
    · exact h.tail
    · exact h
  · exact h

theorem yields_word {part : FramePart} (h : AllLexical ts) : Yields IsWord (word part ts) := by
  unfold word
  split
  · exact .ok h.head h.tail
  · exact .error

theorem yields_body {kind : FunctionKind} (h : AllLexical ts) : Yields IsScript (body kind ts) := by
  unfold body
  split
  · exact .ok h.head h.tail
  · exact .error

theorem yields_className (h : AllLexical ts) : Yields (IsClass enums) (className enums ts) := by
  refine .bind (yields_word h) fun name rest hlt hname hrest ↦ ?_
  dsimp only
  split
  · rename_i hclass
    have heq := TypeWord.className_of_ofName hclass
    subst heq
    exact .ok ⟨hname, hclass⟩ hrest
  · exact .error

theorem yields_valueType {part : FramePart} (h : AllLexical ts) :
    Yields (ValueType.WellFormed enums) (valueType enums part ts) := by
  refine .bind (yields_word h) fun name rest hlt hname hrest ↦ ?_
  dsimp only
  split
  · rename_i hvalue
    exact .ok (ValueType.wellFormed_of_ofName hname hvalue) hrest
  · exact .error

/-! ## Literals -/

variable {leaf : Option ScalarType}

theorem scalar_wellFormed {token : FrameToken} {s : Scalar} (htoken : token.Lexical)
    (h : scalarOf enums leaf token = .ok s) : s.WellFormed enums leaf := by
  unfold scalarOf at h
  split at h
  all_goals try cases h
  · exact .inl rfl
  · exact .inr rfl
  · exact ⟨.inl rfl, htoken⟩
  · exact ⟨.inr rfl, htoken⟩
  · exact ⟨.inr rfl, Decimal.IsNumber.ofInt _⟩
  · exact ⟨.inl rfl, htoken⟩
  · exact ⟨.inr rfl, htoken⟩
  · exact .inl rfl
  · exact .inr rfl
  · exact .inr rfl
  · exact rfl
  · split at h
    · rename_i hvalue
      cases h
      exact ⟨rfl, htoken, hvalue⟩
    · cases h

theorem yields_scalar (h : AllLexical ts) :
    Yields (Scalar.WellFormed enums leaf) (scalar enums leaf ts) := by
  unfold scalar
  split
  · exact .error
  · split
    · rename_i hscalar
      exact .ok (scalar_wellFormed h.head hscalar) h.tail
    · exact .error

theorem yields_key {entries : List (String × Literal)} (h : AllLexical ts) :
    Yields IsWord (key entries ts) := by
  unfold key
  split
  · split
    · exact .error
    · exact .ok h.head h.tail
  · exact .error

/-- Entries that a dictionary may hold. -/
structure EntriesWellFormed (enums : EnumTable) (leaf : Option ScalarType)
    (entries : List (String × Literal)) : Prop where
  keys : ∀ e ∈ entries, IsWord e.1
  ascending : entries.Pairwise (fun a b ↦ a.1 < b.1)
  values : ∀ e ∈ entries, e.2.WellFormed enums leaf

theorem EntriesWellFormed.insert {entries : List (String × Literal)} {name : String}
    {value : Literal} (h : EntriesWellFormed enums leaf entries) (hname : IsWord name)
    (hvalue : value.WellFormed enums leaf) :
    EntriesWellFormed enums leaf (Table.insertEntry name value entries) where
  keys e he := by
    rcases Table.mem_insertEntry he with rfl | he
    · exact hname
    · exact h.keys e he
  ascending := Table.pairwise_insertEntry name value h.ascending
  values e he := by
    rcases Table.mem_insertEntry he with rfl | he
    · exact hvalue
    · exact h.values e he

/-- What the readers of literals yield. They call each other, in the end on fewer tokens. -/
structure LiteralsYield (enums : EnumTable) (leaf : Option ScalarType)
    (ts : List LocatedToken) : Prop where
  literal : Yields (Literal.WellFormed enums leaf) (literal enums leaf ts)
  items : Yields (fun items ↦ ∀ item ∈ items, item.WellFormed enums leaf) (items enums leaf ts)
  moreItems : Yields (fun items ↦ ∀ item ∈ items, item.WellFormed enums leaf)
    (moreItems enums leaf ts)
  entries : Yields (EntriesWellFormed enums leaf) (entries enums leaf ts)
  entry : ∀ before, EntriesWellFormed enums leaf before →
    Yields (EntriesWellFormed enums leaf) (entry enums leaf before ts)
  moreEntries : ∀ before, EntriesWellFormed enums leaf before →
    Yields (EntriesWellFormed enums leaf) (moreEntries enums leaf before ts)

private theorem mem_items_cons {item : Literal} {items : List Literal}
    (h : item.WellFormed enums leaf) (hitems : ∀ i ∈ items, i.WellFormed enums leaf) :
    ∀ i ∈ item :: items, i.WellFormed enums leaf := by
  rintro i (_ | hi)
  · exact h
  · exact hitems i ‹_›

theorem literalsYield (h : AllLexical ts) : LiteralsYield enums leaf ts := by
  induction hn : ts.length using Nat.strongRecOn generalizing ts with
  | ind n ih =>
    have shorter : ∀ rest : List LocatedToken, rest.length < ts.length → AllLexical rest →
        LiteralsYield enums leaf rest := fun rest hlt hrest ↦ ih _ (hn ▸ hlt) hrest rfl
    have hliteral : Yields (Literal.WellFormed enums leaf) (literal enums leaf ts) := by
      unfold literal
      split
      · refine .bind (shorter _ (by simp) h.tail).items fun items rest hlt hitems hrest ↦ ?_
        exact .ok (.array hitems) hrest
      · refine .bind (shorter _ (by simp) h.tail).entries fun entries rest hlt hentries hrest ↦ ?_
        exact .ok (.dictionary hentries.keys hentries.ascending hentries.values) hrest
      · refine .bind (yields_scalar h) fun s rest hlt hs hrest ↦ ?_
        exact .ok (.scalar hs) hrest
    have hentry : ∀ before, EntriesWellFormed enums leaf before →
        Yields (EntriesWellFormed enums leaf) (entry enums leaf before ts) := by
      intro before hbefore
      unfold entry
      refine .bind (yields_key h) fun name rest hlt hname hrest ↦ ?_
      refine .bind (yields_symbolOr hrest) fun _ rest' hlt' _ hrest' ↦ ?_
      refine .bind (shorter _ (by omega) hrest').literal fun value rest₂ hlt₂ hvalue hrest₂ ↦ ?_
      refine .bind ((shorter _ (by omega) hrest₂).moreEntries _ (hbefore.insert hname hvalue))
        fun all rest₃ hlt₃ hall hrest₃ ↦ ?_
      exact .ok hall hrest₃
    refine ⟨hliteral, ?_, ?_, ?_, hentry, ?_⟩
    · unfold items
      split
      · exact .ok (by simp) h.tail
      · refine .bind hliteral fun item rest hlt hitem hrest ↦ ?_
        refine .bind (shorter _ hlt hrest).moreItems fun more rest' hlt' hmore hrest' ↦ ?_
        exact .ok (mem_items_cons hitem hmore) hrest'
    · unfold moreItems
      split
      · exact .ok (by simp) h.tail
      · refine .bind (yields_symbolOr h) fun _ rest hlt _ hrest ↦ ?_
        refine .bind (shorter _ hlt hrest).literal fun item rest' hlt' hitem hrest' ↦ ?_
        refine .bind (shorter _ (by omega) hrest').moreItems
          fun more rest₂ hlt₂ hmore hrest₂ ↦ ?_
        exact .ok (mem_items_cons hitem hmore) hrest₂
    · unfold entries
      split
      · exact .ok ⟨by simp, .nil, by simp⟩ h.tail
      · exact hentry [] ⟨by simp, .nil, by simp⟩
    · intro before hbefore
      unfold moreEntries
      split
      · exact .ok hbefore h.tail
      · refine .bind (yields_symbolOr h) fun _ rest hlt _ hrest ↦ ?_
        refine .bind ((shorter _ hlt hrest).entry before hbefore)
          fun all rest' hlt' hall hrest' ↦ ?_
        exact .ok hall hrest'

/-! ## Properties -/

theorem isNoKeyword_of_scalarOf {token : FrameToken} {s : Scalar} {position : Position}
    {rest : List LocatedToken} (h : scalarOf enums leaf token = .ok s)
    (hfirst : functionKeyword? (⟨token, position⟩ :: rest) = none) :
    (Literal.scalar s).IsNoKeyword := by
  unfold scalarOf at h
  split at h
  all_goals try cases h
  all_goals try trivial
  split at h
  · cases h
    exact hfirst
  · cases h

/-- A literal that starts with no keyword of functions is taken for no function. -/
theorem isNoKeyword_of_literal {reading : FrameReading ts.length Literal}
    (h : literal enums leaf ts = .ok reading) (hfirst : functionKeyword? ts = none) :
    reading.value.IsNoKeyword := by
  unfold literal at h
  split at h
  · obtain ⟨_, -, h⟩ := Except.bind_eq_ok.1 h
    cases h
    trivial
  · obtain ⟨_, -, h⟩ := Except.bind_eq_ok.1 h
    cases h
    trivial
  · obtain ⟨⟨s, rest, hlt⟩, hs, h⟩ := Except.bind_eq_ok.1 h
    cases h
    unfold scalar at hs
    split at hs
    · cases hs
    · split at hs
      · rename_i hscalar
        cases hs
        exact isNoKeyword_of_scalarOf hscalar hfirst
      · cases hs

/-- What a property needs besides a name. -/
structure PropertyWellFormed (enums : EnumTable) (type : ValueType)
    (p : PropertyType × Literal) : Prop where
  opening : p.1.opening = type
  shapes : p.1.Shapes p.2
  isNoKeyword : p.2.IsNoKeyword
  wellFormed : p.2.WellFormed enums p.1.leaf

theorem yields_property {type : ValueType} (h : AllLexical ts)
    (hfirst : functionKeyword? ts = none) :
    Yields (PropertyWellFormed enums type) (property enums type ts) := by
  unfold property
  cases type with
  | array =>
    refine .bind (yields_symbol h) fun _ rest hlt _ hrest ↦ ?_
    refine .bind (literalsYield hrest).items fun items rest' hlt' hitems hrest' ↦ ?_
    exact .ok ⟨rfl, trivial, trivial, .array hitems⟩ hrest'
  | dictionary =>
    refine .bind (yields_symbol h) fun _ rest hlt _ hrest ↦ ?_
    refine .bind (literalsYield hrest).entries fun entries rest' hlt' hentries hrest' ↦ ?_
    exact .ok ⟨rfl, trivial, trivial, .dictionary hentries.keys hentries.ascending hentries.values⟩
      hrest'
  | scalar leaf =>
    rintro reading heq
    obtain ⟨⟨value, rest, hlt⟩, hread, hnext⟩ := Except.bind_eq_ok.1 heq
    obtain ⟨hvalue, hrest⟩ := (literalsYield h).literal _ hread
    have hkeyword := isNoKeyword_of_literal hread hfirst
    cases hnext
    cases value with
    | scalar s => exact ⟨⟨rfl, trivial, hkeyword, hvalue⟩, hrest⟩
    | array items => exact ⟨⟨rfl, trivial, hkeyword, hvalue⟩, hrest⟩
    | dictionary entries => exact ⟨⟨rfl, trivial, hkeyword, hvalue⟩, hrest⟩

/-! ## Functions -/

section Arguments

variable {P : α → Prop} {item : FrameReader α}

theorem yields_moreOf (hitem : ∀ ts, AllLexical ts → Yields P (item ts)) (h : AllLexical ts) :
    Yields (fun items ↦ ∀ a ∈ items, P a) (moreOf item ts) := by
  obtain ⟨n, hn⟩ : ∃ n, ts.length = n := ⟨_, rfl⟩
  induction n using Nat.strongRecOn generalizing ts with
  | ind n ih =>
    unfold moreOf
    split
    · exact .ok (by simp) h.tail
    · refine .bind (yields_symbol h) fun _ rest hlt _ hrest ↦ ?_
      refine .bind (hitem _ hrest) fun a rest' hlt' ha hrest' ↦ ?_
      refine .bind (ih _ (by omega) hrest' rfl) fun more rest₂ hlt₂ hmore hrest₂ ↦ ?_
      exact .ok (List.forall_mem_cons.2 ⟨ha, hmore⟩) hrest₂

theorem yields_parenthesized (hitem : ∀ ts, AllLexical ts → Yields P (item ts))
    (h : AllLexical ts) : Yields (fun items ↦ ∀ a ∈ items, P a) (parenthesized item ts) := by
  refine .bind (yields_symbol h) fun _ rest hlt _ hrest ↦ ?_
  have hitems : Yields (fun items ↦ ∀ a ∈ items, P a) (itemsOf item rest) := by
    unfold itemsOf
    split
    · exact .ok (by simp) hrest.tail
    · refine .bind (hitem _ hrest) fun a rest' hlt' ha hrest' ↦ ?_
      refine .bind (yields_moreOf hitem hrest') fun more rest₂ hlt₂ hmore hrest₂ ↦ ?_
      exact .ok (List.forall_mem_cons.2 ⟨ha, hmore⟩) hrest₂
  refine .bind hitems fun items rest' hlt' hitems hrest' ↦ ?_
  exact .ok hitems hrest'

end Arguments

theorem yields_argument (ts : List LocatedToken) (h : AllLexical ts) :
    Yields (Argument.WellFormed enums) (argument enums ts) := by
  refine .bind (yields_word h) fun name rest hlt hname hrest ↦ ?_
  have hrest' := allLexical_symbol? (s := .colon) hrest
  dsimp only
  split
  · refine .bind (yields_valueType hrest') fun type rest₂ hlt₂ htype hrest₂ ↦ ?_
    exact .ok ⟨hname, by simpa using htype⟩ hrest₂
  · exact .ok ⟨hname, by simp⟩ hrest'

theorem yields_moreSegments (h : AllLexical ts) :
    Yields (fun segments ↦ ∀ s ∈ segments, IsWord s) (moreSegments ts) := by
  obtain ⟨n, hn⟩ : ∃ n, ts.length = n := ⟨_, rfl⟩
  induction n using Nat.strongRecOn generalizing ts with
  | ind n ih =>
    unfold moreSegments
    split
    · refine .bind (yields_word h.tail) fun segment rest hlt hsegment hrest ↦ ?_
      have hshorter : rest.length < n := by
        rw [← hn, List.length_cons]
        omega
      refine .bind (ih _ hshorter hrest rfl) fun more rest' hlt' hmore hrest' ↦ ?_
      exact .ok (List.forall_mem_cons.2 ⟨hsegment, hmore⟩) hrest'
    · exact .ok (by simp) h

theorem yields_path (h : AllLexical ts) :
    Yields (fun path ↦ (∀ s ∈ path, IsWord s) ∧ 2 ≤ path.length) (path ts) := by
  refine .bind (yields_word h) fun first rest hlt hfirst hrest ↦ ?_
  refine .bind (yields_moreSegments hrest) fun more rest' hlt' hmore hrest' ↦ ?_
  dsimp only
  split
  · exact .error
  · rename_i hne
    have hlength : 0 < more.length := by
      rw [List.length_pos_iff]
      simpa using hne
    exact .ok ⟨List.forall_mem_cons.2 ⟨hfirst, hmore⟩, Nat.succ_le_succ hlength⟩ hrest'

theorem yields_pathArgument (ts : List LocatedToken) (h : AllLexical ts) :
    Yields PathArgument.WellFormed (pathArgument ts) := by
  refine .bind (yields_word h) fun name rest hlt hname hrest ↦ ?_
  refine .bind (yields_symbol hrest) fun _ rest' hlt' _ hrest' ↦ ?_
  refine .bind (yields_path hrest') fun path rest₂ hlt₂ hpath hrest₂ ↦ ?_
  exact .ok ⟨hname, hpath.1, hpath.2⟩ hrest₂

/-- A type of a result is well-formed, and it is missing only if none stands before the keyword. -/
theorem yields_returnType {before : Option ValueType}
    (hbefore : ∀ type ∈ before, type.WellFormed enums) (h : AllLexical ts) :
    Yields (fun returns ↦ (∀ type ∈ returns, type.WellFormed enums) ∧
      (returns = none → before = none)) (returnType enums before ts) := by
  unfold returnType
  have hrest := allLexical_symbol? (s := .arrow) h
  dsimp only
  split
  · split
    · exact .error
    · refine .bind (yields_valueType hrest) fun type rest' hlt' htype hrest' ↦ ?_
      exact .ok ⟨by simpa using htype, by simp⟩ hrest'
  · exact .ok ⟨hbefore, id⟩ hrest

theorem eq_none_of_noReturnType {before : Option ValueType}
    (h : noReturnType before ts = .ok ()) : before = none := by
  unfold noReturnType at h
  split at h
  · cases h
  · rename_i hnone
    cases before with
    | none => rfl
    | some type => exact absurd rfl hnone

theorem yields_initArguments (h : AllLexical ts) :
    Yields (fun arguments ↦ ∀ a ∈ arguments, a.WellFormed enums) (initArguments enums ts) := by
  unfold initArguments
  split
  · refine .bind (yields_parenthesized yields_argument h)
      fun arguments rest hlt harguments hrest ↦ ?_
    exact .ok harguments hrest
  · exact .ok (by simp) h

/-- What stands before the keyword of a function: a type, or else nothing, where the keyword is read
as one. A listener needs a type of its result in the end. -/
def Preceded (enums : EnumTable) (kind : FunctionKind) (before : Option ValueType) : Prop :=
  (∀ type ∈ before, type.WellFormed enums) ∧
    (before = none → kind ≠ .listener → kind.Introduces enums)

theorem yields_function {kind : FunctionKind} {before : Option ValueType}
    (hbefore : Preceded enums kind before) (h : AllLexical ts) :
    Yields (Function.WellFormed enums) (function enums kind before ts) := by
  unfold function
  cases kind with
  | init =>
    refine .check fun hnone ↦ ?_
    have hkind := hbefore.2 (eq_none_of_noReturnType hnone) (by simp)
    refine .bind (yields_initArguments h) fun arguments rest hlt harguments hrest ↦ ?_
    dsimp only
    split
    · exact .error
    · refine .check fun _ ↦ ?_
      refine .bind (yields_body hrest) fun script rest' hlt' hscript hrest' ↦ ?_
      refine .ok ⟨⟨fun a ha ↦ ?_, hkind⟩, hscript⟩ hrest'
      have hmem := List.mem_filter.1 (List.mem_of_mem_head? ha)
      exact ⟨harguments a hmem.1, by simpa using hmem.2⟩
  | event =>
    refine .check fun hnone ↦ ?_
    have hkind := hbefore.2 (eq_none_of_noReturnType hnone) (by simp)
    refine .bind (yields_parenthesized yields_argument h)
      fun arguments rest hlt harguments hrest ↦ ?_
    refine .check fun _ ↦ ?_
    refine .bind (yields_body hrest) fun script rest' hlt' hscript hrest' ↦ ?_
    exact .ok ⟨⟨harguments, hkind⟩, hscript⟩ hrest'
  | listener =>
    refine .bind (yields_parenthesized yields_pathArgument h)
      fun arguments rest hlt harguments hrest ↦ ?_
    refine .bind (yields_returnType hbefore.1 hrest) fun returns rest' hlt' hreturns hrest' ↦ ?_
    dsimp only
    split
    · exact .error
    · refine .bind (yields_body hrest') fun script rest₂ hlt₂ hscript hrest₂ ↦ ?_
      exact .ok ⟨⟨harguments, hreturns.1 _ rfl⟩, hscript⟩ hrest₂
  | procedure =>
    refine .bind (yields_parenthesized yields_argument h)
      fun arguments rest hlt harguments hrest ↦ ?_
    refine .bind (yields_returnType hbefore.1 hrest) fun returns rest' hlt' hreturns hrest' ↦ ?_
    refine .bind (yields_body hrest') fun script rest₂ hlt₂ hscript hrest₂ ↦ ?_
    refine .ok ⟨⟨harguments, ?_⟩, hscript⟩ hrest₂
    cases returns with
    | none => exact hbefore.2 (hreturns.2 rfl) (by simp)
    | some type => exact hreturns.1 type rfl

/-! ## Members -/

theorem introduces_of_keyword {name : String} {kind : FunctionKind}
    (h : TypeWord.ofName enums name = .function kind) : Preceded enums kind none :=
  ⟨by simp, fun _ ↦ TypeWord.introduces_of_ofName h⟩

theorem yields_typedMember {name : String} {line : Nat} {type : ValueType} (hname : IsWord name)
    (htype : type.WellFormed enums) (h : AllLexical ts) :
    Yields (Member.WellFormed enums) (typedMember enums name line type ts) := by
  have hproperty (hfirst : functionKeyword? ts = none) : Yields (Member.WellFormed enums)
      (property enums type ts >>= fun p ↦
        .ok ⟨.property name line p.value.1 p.value.2, p.rest, p.length_lt⟩) := by
    refine .bind (yields_property h hfirst) fun p rest hlt hp hrest ↦ ?_
    exact .ok (.property hname (hp.opening ▸ htype) hp.shapes hp.isNoKeyword hp.wellFormed) hrest
  cases ts with
  | nil => exact hproperty rfl
  | cons t rest =>
    unfold typedMember
    cases hfirst : functionKeyword? (t :: rest) with
    | none => exact hproperty hfirst
    | some kind =>
      have hbefore : Preceded enums kind (some type) := ⟨by simpa using htype, by simp⟩
      refine .bind (yields_function hbefore h.tail) fun f rest hlt hf hrest ↦ ?_
      exact .ok (.function hname hf) hrest

structure MembersYield (enums : EnumTable) (ts : List LocatedToken) : Prop where
  member : Yields (Member.WellFormed enums) (member enums ts)
  members : Yields (fun members ↦ ∀ m ∈ members, m.WellFormed enums) (members enums ts)

theorem membersYield (h : AllLexical ts) : MembersYield enums ts := by
  induction hn : ts.length using Nat.strongRecOn generalizing ts with
  | ind n ih =>
    have shorter : ∀ rest : List LocatedToken, rest.length < ts.length → AllLexical rest →
        MembersYield enums rest := fun rest hlt hrest ↦ ih _ (hn ▸ hlt) hrest rfl
    have hmember : Yields (Member.WellFormed enums) (member enums ts) := by
      unfold member
      refine .bind (yields_word h) fun name rest hlt hname hrest ↦ ?_
      refine .bind (yields_symbol hrest) fun _ rest' hlt' _ hrest' ↦ ?_
      refine .bind (yields_word hrest') fun type rest₂ hlt₂ htype hrest₂ ↦ ?_
      dsimp only
      split
      · rename_i kind hkind
        refine .bind (yields_function (introduces_of_keyword hkind) hrest₂)
          fun f rest₃ hlt₃ hf hrest₃ ↦ ?_
        exact .ok (.function hname hf) hrest₃
      · rename_i className hclass
        have heq := TypeWord.className_of_ofName hclass
        subst heq
        refine .bind (yields_symbol hrest₂) fun _ rest₃ hlt₃ _ hrest₃ ↦ ?_
        refine .bind (shorter _ (by omega) hrest₃).members
          fun members rest₄ hlt₄ hmembers hrest₄ ↦ ?_
        exact .ok (.frame hname ⟨htype, hclass⟩ hmembers) hrest₄
      · rename_i valueType hvalue
        have hwell := ValueType.wellFormed_of_ofName htype hvalue
        refine .bind (yields_typedMember hname hwell hrest₂) fun m rest₃ hlt₃ hm hrest₃ ↦ ?_
        exact .ok hm hrest₃
    refine ⟨hmember, ?_⟩
    unfold members
    split
    · exact .error
    · exact .ok (by simp) h.tail
    · refine .bind hmember fun m rest hlt hm hrest ↦ ?_
      have hrest' := allLexical_symbol? (s := .comma) hrest
      have hlt' := (symbol? .comma rest).length_lt
      refine .bind (shorter _ (by omega) hrest').members fun more rest₂ hlt₂ hmore hrest₂ ↦ ?_
      exact .ok (List.forall_mem_cons.2 ⟨hm, hmore⟩) hrest₂

theorem wellFormed_of_root {f : Frame} (h : AllLexical ts) (hroot : root enums ts = .ok f) :
    f.WellFormed enums := by
  obtain ⟨name, rest, hlt, hname, hrest, hroot⟩ := (yields_word h).exists_of_bind hroot
  obtain ⟨_, rest', hlt', -, hrest', hroot⟩ := (yields_symbol hrest).exists_of_bind hroot
  obtain ⟨className, rest₂, hlt₂, hclass, hrest₂, hroot⟩ :=
    (yields_className hrest').exists_of_bind hroot
  obtain ⟨_, rest₃, hlt₃, -, hrest₃, hroot⟩ := (yields_symbol hrest₂).exists_of_bind hroot
  obtain ⟨members, rest₄, hlt₄, hmembers, -, hroot⟩ :=
    (membersYield hrest₃).members.exists_of_bind hroot
  dsimp only at hroot
  split at hroot
  · cases hroot
    exact ⟨hname, hclass, hmembers⟩
  · cases hroot

end FrameParser

/-! ## Tokens of a source -/

namespace FrameTokens

theorem allLexical_of_scan {position : Position} {text : List Char} {ts : FrameTokens}
    (h : scan position text = .ok ts) : AllLexical ts.tokens := by
  induction text using FrameLexeme.induction generalizing position ts with
  | nil =>
    rw [scan] at h
    cases h
    simp [AllLexical]
  | error hread =>
    rw [scan_error hread] at h
    cases h
  | @ok c rest l hread ih =>
    rw [scan_ok hread] at h
    cases hscan : scan (position.advance l.text) l.rest with
    | error e =>
      rw [hscan] at h
      cases h
    | ok following =>
      rw [hscan] at h
      cases h
      intro t ht
      rcases List.mem_append.1 ht with ht | ht
      · rw [Option.mem_toList, Option.map_eq_some_iff] at ht
        obtain ⟨token, htoken, rfl⟩ := ht
        exact FrameLexeme.lexical_of_read hread htoken
      · exact ih hscan t ht

theorem allLexical_joinStrings {ts : List LocatedToken} (h : AllLexical ts) :
    AllLexical (joinStrings ts) := by
  induction ts with
  | nil => exact h
  | cons t ts ih =>
    have hts := ih h.tail
    unfold joinStrings
    split
    · rename_i heq
      rw [heq] at hts
      exact List.forall_mem_cons.2 ⟨trivial, hts.tail⟩
    · exact List.forall_mem_cons.2 ⟨h.head, hts⟩

end FrameTokens

/-- A frame that is read from a source is well-formed. -/
theorem Frame.wellFormed_of_parse {source : String} {f : Frame}
    (h : Frame.parse enums source = .ok f) : f.WellFormed enums := by
  obtain ⟨tokens, htokens, h⟩ := Except.bind_eq_ok.1 h
  obtain ⟨scanned, hscan, htokens⟩ := Except.bind_eq_ok.1 htokens
  cases htokens
  have hlexical : AllLexical (FrameTokens.joinStrings scanned.tokens) :=
    FrameTokens.allLexical_joinStrings (FrameTokens.allLexical_of_scan hscan)
  unfold ofTokens at h
  cases hroot : FrameParser.root enums (FrameTokens.joinStrings scanned.tokens) with
  | error stop =>
    rw [hroot] at h
    cases h
  | ok f' =>
    rw [hroot] at h
    cases h
    exact FrameParser.wellFormed_of_root hlexical hroot

end ReactiveFrames
