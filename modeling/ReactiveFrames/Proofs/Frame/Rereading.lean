import ReactiveFrames.Proofs.Frame.Printing

/-!
# Reading canonical tokens

The reader of frame source, run on the tokens of the canonical source of a well-formed frame,
returns the frame with other lines if all its doubles are real numbers or no numbers at all, and
fails otherwise: the word that an infinity is written as stands for no scalar of its type.

Both answers are one statement, `FrameParser.Rereads`, so that a reader that calls others needs one
proof. Positions play no part in it except for the lines of members.

## Main definitions

* `FrameParser.Rereads`: what a reader answers, under the condition for which it does not fail.
* `Frame.unlined`: a frame without the lines of its members.

## Main statements

* `FrameParser.rereads_literal`, `FrameParser.rereads_members`, `FrameParser.root_tokens`.
-/

namespace ReactiveFrames

open Decimal (IsInfinite)

/-! ## Frames without lines -/

mutual

/-- A member with every line set to zero. -/
def Member.unlined : Member → Member
  | .property name _ type value => .property name 0 type value
  | .function name _ f => .function name 0 f
  | .frame name _ className members => .frame name 0 className (Member.listUnlined members)

/-- Members with every line set to zero. -/
def Member.listUnlined : List Member → List Member
  | [] => []
  | m :: ms => m.unlined :: Member.listUnlined ms

end

/-- A frame whose members have no lines: every line is zero. -/
def Frame.unlined (f : Frame) : Frame := { f with members := Member.listUnlined f.members }

/-- Tokens that stand at some positions. -/
def written (ts : List LocatedToken) : WrittenTokens := ts.map fun t ↦ some t.token

theorem written_eq_cons {ts : List LocatedToken} {token : Option FrameToken} {rest : WrittenTokens}
    (h : written ts = token :: rest) :
    ∃ t position ts', token = some t ∧ ts = ⟨t, position⟩ :: ts' ∧ written ts' = rest := by
  cases ts with
  | nil => cases h
  | cons t ts' =>
    cases h
    exact ⟨t.token, t.position, ts', rfl, rfl, rfl⟩

theorem written_eq_some_cons {ts : List LocatedToken} {token : FrameToken} {rest : WrittenTokens}
    (h : written ts = some token :: rest) :
    ∃ position ts', ts = ⟨token, position⟩ :: ts' ∧ written ts' = rest := by
  obtain ⟨t, position, ts', htoken, hts, hrest⟩ := written_eq_cons h
  cases htoken
  exact ⟨position, ts', hts, hrest⟩

namespace FrameParser

variable {α β : Type} {n m : Nat} {enums : EnumTable} {leaf : Option ScalarType}

/-- The reader returns a value with the property and leaves the tokens, if the condition holds, and
fails otherwise. -/
structure Rereads (condition : Prop) (P : α → Prop) (rest : WrittenTokens)
    (r : Except FrameStop (FrameReading n α)) : Prop where
  reads : condition → ∃ a ts hlt, r = .ok ⟨a, ts, hlt⟩ ∧ P a ∧ written ts = rest
  fails : ¬condition → ∃ stop, r = .error stop

namespace Rereads

variable {p q : Prop} {P : α → Prop} {Q : β → Prop} {rest rest' : WrittenTokens}

theorem ok {a : α} {ts : List LocatedToken} {hlt : ts.length < n} (ha : P a)
    (hts : written ts = rest) :
    Rereads True P rest (.ok ⟨a, ts, hlt⟩ : Except FrameStop (FrameReading n α)) :=
  ⟨fun _ ↦ ⟨a, ts, hlt, rfl, ha, hts⟩, fun h ↦ absurd trivial h⟩

/-- One reader after another one. What the second one needs may rest on the condition of the
first. -/
theorem bind {r : Except FrameStop (FrameReading n α)}
    {next : FrameReading n α → Except FrameStop (FrameReading m β)} (h : Rereads p P rest r)
    (hpq : q → p)
    (hnext : p → ∀ a ts hlt, P a → written ts = rest → Rereads q Q rest' (next ⟨a, ts, hlt⟩)) :
    Rereads q Q rest' (r >>= next) := by
  constructor
  · intro hq
    obtain ⟨a, ts, hlt, rfl, ha, hts⟩ := h.reads (hpq hq)
    exact (hnext (hpq hq) a ts hlt ha hts).reads hq
  · intro hq
    by_cases hp : p
    · obtain ⟨a, ts, hlt, rfl, ha, hts⟩ := h.reads hp
      exact (hnext hp a ts hlt ha hts).fails hq
    · obtain ⟨stop, rfl⟩ := h.fails hp
      exact ⟨stop, rfl⟩

/-- A reader that does not fail before another one. -/
theorem andThen {r : Except FrameStop (FrameReading n α)}
    {next : FrameReading n α → Except FrameStop (FrameReading m β)} (h : Rereads True P rest r)
    (hnext : ∀ a ts hlt, P a → written ts = rest → Rereads q Q rest' (next ⟨a, ts, hlt⟩)) :
    Rereads q Q rest' (r >>= next) := h.bind (fun _ ↦ trivial) fun _ ↦ hnext

theorem congr {r : Except FrameStop (FrameReading n α)} (h : Rereads p P rest r) (hpq : p ↔ q) :
    Rereads q P rest r := ⟨fun hq ↦ h.reads (hpq.2 hq), fun hq ↦ h.fails fun hp ↦ hq (hpq.1 hp)⟩

end Rereads

/-! ## Single tokens -/

variable {ts : List LocatedToken} {rest : WrittenTokens}

theorem rereads_symbolOr {fault : FrameFault} {s : FrameSymbol}
    (hts : written ts = some (.symbol s) :: rest) :
    Rereads True (fun _ ↦ True) rest (symbolOr fault s ts) := by
  obtain ⟨position, ts', rfl, hrest⟩ := written_eq_some_cons hts
  simp only [symbolOr, if_true]
  exact .ok trivial hrest

theorem rereads_symbol {s : FrameSymbol} (hts : written ts = some (.symbol s) :: rest) :
    Rereads True (fun _ ↦ True) rest (symbol s ts) := rereads_symbolOr hts

theorem rereads_word {part : FramePart} {name : String}
    (hts : written ts = some (.word name) :: rest) :
    Rereads True (· = name) rest (word part ts) := by
  obtain ⟨position, ts', rfl, hrest⟩ := written_eq_some_cons hts
  exact .ok rfl hrest

theorem rereads_body {kind : FunctionKind} {script : String}
    (hts : written ts = some (.text script) :: rest) :
    Rereads True (· = script) rest (body kind ts) := by
  obtain ⟨position, ts', rfl, hrest⟩ := written_eq_some_cons hts
  exact .ok rfl hrest

theorem rereads_className {name : String} (hname : IsClass enums name)
    (hts : written ts = some (.word name) :: rest) :
    Rereads True (· = name) rest (className enums ts) := by
  refine (rereads_word hts).andThen fun a ts' hlt ha hts' ↦ ?_
  subst ha
  simp only [hname.ofName]
  exact .ok rfl hts'

theorem rereads_valueType {part : FramePart} {type : ValueType} (htype : type.WellFormed enums)
    (hts : written ts = some (.word type.keyword) :: rest) :
    Rereads True (· = type) rest (valueType enums part ts) := by
  refine (rereads_word hts).andThen fun a ts' hlt ha hts' ↦ ?_
  subst ha
  simp only [htype.ofName]
  exact .ok rfl hts'

/-- A symbol that is not there is not read. -/
theorem symbol?_of_ne {s : FrameSymbol} (hts : ∀ more, written ts ≠ some (.symbol s) :: more) :
    (symbol? s ts).value = false ∧ (symbol? s ts).rest = ts := by
  unfold symbol?
  split
  · rename_i t position rest
    rw [if_neg fun h ↦ hts (written rest) (by rw [h]; rfl)]
    exact ⟨rfl, rfl⟩
  · exact ⟨rfl, rfl⟩

theorem symbol?_of_eq {s : FrameSymbol} (hts : written ts = some (.symbol s) :: rest) :
    (symbol? s ts).value = true ∧ written (symbol? s ts).rest = rest := by
  obtain ⟨position, ts', rfl, hrest⟩ := written_eq_some_cons hts
  simp only [symbol?, if_true]
  exact ⟨trivial, hrest⟩

/-! ## Scalars -/

/-- No double is an infinity. -/
def NoInfinity (xs : List Float) : Prop := ∀ x ∈ xs, ¬IsInfinite x

theorem noInfinity_nil : NoInfinity [] := by simp [NoInfinity]

theorem noInfinity_append {xs ys : List Float} :
    NoInfinity (xs ++ ys) ↔ NoInfinity xs ∧ NoInfinity ys := List.forall_mem_append

/-- The token of a scalar is read as the scalar, unless it is the word of an infinity. -/
theorem scalarOf_token {s : Scalar} {token : FrameToken} (h : s.WellFormed enums leaf)
    (htoken : s.token? = some token) :
    (NoInfinity s.floats → scalarOf enums leaf token = .ok s) ∧
      (¬NoInfinity s.floats → ∃ fault, scalarOf enums leaf token = .error fault) := by
  cases s with
  | bool b =>
    cases htoken
    refine ⟨fun _ ↦ ?_, fun hinfinite ↦ absurd noInfinity_nil hinfinite⟩
    rcases h with rfl | rfl <;> rfl
  | int i =>
    cases htoken
    refine ⟨fun _ ↦ ?_, fun hinfinite ↦ absurd noInfinity_nil hinfinite⟩
    rcases h.1 with rfl | rfl <;> rfl
  | float x =>
    have hleaf := h.1
    cases hx : Decimal.Binary.ofFloat x with
    | nan => exact absurd hx h.2
    | infinite negative =>
      have hinfinite : ¬NoInfinity (Scalar.float x).floats :=
        fun hno ↦ hno x (by simp [Scalar.floats]) ⟨negative, hx⟩
      refine ⟨fun hno ↦ absurd hno hinfinite, fun _ ↦ ?_⟩
      cases negative with
      | true => simp [Scalar.token?, hx] at htoken
      | false =>
        have hword : token = .word "inf" := by simpa [Scalar.token?, hx] using htoken.symm
        subst hword
        rcases hleaf with rfl | rfl <;> exact ⟨_, rfl⟩
    | finite negative mantissa exponent =>
      have hfinite : NoInfinity (Scalar.float x).floats := by
        rintro y hy ⟨negative', hy'⟩
        rw [List.mem_singleton.1 hy, hx] at hy'
        cases hy'
      refine ⟨fun _ ↦ ?_, fun hinfinite ↦ absurd hfinite hinfinite⟩
      have hfloat : token = .float x := by simpa [Scalar.token?, hx] using htoken.symm
      subst hfloat
      rcases hleaf with rfl | rfl <;> rfl
  | string s =>
    cases htoken
    refine ⟨fun _ ↦ ?_, fun hinfinite ↦ absurd noInfinity_nil hinfinite⟩
    rcases h with rfl | rfl <;> rfl
  | url s =>
    cases htoken
    refine ⟨fun _ ↦ ?_, fun hinfinite ↦ absurd noInfinity_nil hinfinite⟩
    cases h
    rfl
  | enum type member value =>
    cases htoken
    refine ⟨fun _ ↦ ?_, fun hinfinite ↦ absurd noInfinity_nil hinfinite⟩
    obtain ⟨rfl, -, hvalue⟩ := h
    simp [scalarOf, hvalue]

theorem rereads_scalar {s : Scalar} (h : s.WellFormed enums leaf)
    (hts : written ts = s.token? :: rest) :
    Rereads (NoInfinity s.floats) (· = s) rest (scalar enums leaf ts) := by
  obtain ⟨token, position, ts', htoken, rfl, hrest⟩ := written_eq_cons hts
  obtain ⟨hreads, hfails⟩ := scalarOf_token h htoken
  constructor
  · intro hno
    simp only [scalar, hreads hno]
    exact ⟨s, ts', Nat.lt_succ_self _, rfl, rfl, hrest⟩
  · intro hinfinite
    obtain ⟨fault, hfault⟩ := hfails hinfinite
    simp only [scalar, hfault]
    exact ⟨_, rfl⟩

/-! ## Literals -/

theorem Scalar.token?_ne_symbol {s : Scalar} {symbol : FrameSymbol} :
    s.token? ≠ some (.symbol symbol) := by
  cases s with
  | float x =>
    unfold Scalar.token?
    dsimp only
    split <;> simp
  | _ => simp [Scalar.token?]

/-- A literal does not start with a symbol that closes or separates. -/
theorem Literal.tokens_ne_symbol {l : Literal} {symbol : FrameSymbol}
    (h : symbol ≠ .openBracket) (h' : symbol ≠ .openBrace) (rest more : WrittenTokens) :
    l.tokens ++ rest ≠ some (.symbol symbol) :: more := by
  cases l with
  | scalar s =>
    intro heq
    exact Scalar.token?_ne_symbol (List.cons.inj heq).1
  | array items =>
    intro heq
    exact h (by simpa using (List.cons.inj heq).1.symm)
  | dictionary entries =>
    intro heq
    exact h' (by simpa using (List.cons.inj heq).1.symm)

theorem literal_of_scalar {s : Scalar} (hts : written ts = s.token? :: rest) :
    literal enums leaf ts = scalar enums leaf ts >>= fun r ↦
      .ok ⟨.scalar r.value, r.rest, r.length_lt⟩ := by
  unfold literal
  split
  · exact absurd (List.cons.inj hts).1.symm Scalar.token?_ne_symbol
  · exact absurd (List.cons.inj hts).1.symm Scalar.token?_ne_symbol
  · rfl

/-- The first item of an array is read like any other one. -/
theorem items_of_ne (hts : ∀ more, written ts ≠ some (.symbol .closeBracket) :: more) :
    items enums leaf ts = literal enums leaf ts >>= fun item ↦
      moreItems enums leaf item.rest >>= fun more ↦
        .ok ⟨item.value :: more.value, more.rest, more.length_lt.trans item.length_lt⟩ := by
  unfold items
  split
  · exact absurd rfl (hts _)
  · rfl

theorem rereads_moreItems {items : List Literal}
    (ih : ∀ item ∈ items, ∀ {ts : List LocatedToken} {rest : WrittenTokens},
      written ts = item.tokens ++ rest →
        Rereads (NoInfinity item.floats) (· = item) rest (literal enums leaf ts))
    (hts : written ts = (items.map Literal.tokens).flatMap (some (.symbol .comma) :: ·) ++
      some (.symbol .closeBracket) :: rest) :
    Rereads (NoInfinity (Literal.itemFloats items)) (· = items) rest
      (moreItems enums leaf ts) := by
  induction items generalizing ts with
  | nil =>
    obtain ⟨position, ts', rfl, hrest⟩ := written_eq_some_cons hts
    unfold moreItems
    exact Rereads.congr (.ok rfl hrest) (iff_of_true trivial noInfinity_nil)
  | cons item items ihItems =>
    rw [List.forall_mem_cons] at ih
    have hcomma := hts
    rw [List.map_cons, List.flatMap_cons, List.append_assoc, List.cons_append] at hcomma
    obtain ⟨position, ts', rfl, hrest⟩ := written_eq_some_cons hcomma
    unfold moreItems
    refine (rereads_symbolOr hcomma).andThen fun _ ts₁ hlt₁ _ hts₁ ↦ ?_
    refine (ih.1 hts₁).bind (fun hno ↦ (noInfinity_append.1 hno).1)
      fun hitem a ts₂ hlt₂ ha hts₂ ↦ ?_
    refine (ihItems ih.2 hts₂).bind (fun hno ↦ (noInfinity_append.1 hno).2)
      fun hitems more ts₃ hlt₃ hmore hts₃ ↦ ?_
    subst ha hmore
    exact Rereads.congr (.ok rfl hts₃) (iff_of_true trivial (noInfinity_append.2 ⟨hitem, hitems⟩))

theorem rereads_items {items : List Literal}
    (ih : ∀ item ∈ items, ∀ {ts : List LocatedToken} {rest : WrittenTokens},
      written ts = item.tokens ++ rest →
        Rereads (NoInfinity item.floats) (· = item) rest (literal enums leaf ts))
    (hts : written ts = separated .comma (items.map Literal.tokens) ++
      some (.symbol .closeBracket) :: rest) :
    Rereads (NoInfinity (Literal.itemFloats items)) (· = items) rest
      (FrameParser.items enums leaf ts) := by
  cases items with
  | nil =>
    obtain ⟨position, ts', rfl, hrest⟩ := written_eq_some_cons hts
    unfold FrameParser.items
    exact Rereads.congr (.ok rfl hrest) (iff_of_true trivial noInfinity_nil)
  | cons item items =>
    rw [List.forall_mem_cons] at ih
    rw [List.map_cons, separated, List.append_assoc] at hts
    rw [items_of_ne fun more ↦ hts ▸ Literal.tokens_ne_symbol (by simp) (by simp) _ more]
    refine (ih.1 hts).bind (fun hno ↦ (noInfinity_append.1 hno).1) fun hitem a ts₁ hlt₁ ha hts₁ ↦ ?_
    refine (rereads_moreItems ih.2 hts₁).bind (fun hno ↦ (noInfinity_append.1 hno).2)
      fun hitems more ts₂ hlt₂ hmore hts₂ ↦ ?_
    subst ha hmore
    exact Rereads.congr (.ok rfl hts₂) (iff_of_true trivial (noInfinity_append.2 ⟨hitem, hitems⟩))

/-! ## Dictionaries -/

/-- Tokens of an entry of a dictionary. -/
def entryTokens (e : String × Literal) : WrittenTokens :=
  some (.word e.1) :: some (.symbol .colon) :: e.2.tokens

theorem rereads_key {before : List (String × Literal)} {name : String}
    (hfresh : ∀ e ∈ before, e.1 < name) (hts : written ts = some (.word name) :: rest) :
    Rereads True (· = name) rest (key before ts) := by
  obtain ⟨position, ts', rfl, hrest⟩ := written_eq_some_cons hts
  have hany : ¬(before.any fun e ↦ e.1 == name) = true := by
    rw [List.any_eq_true]
    rintro ⟨e, he, heq⟩
    exact String.lt_irrefl _ (beq_iff_eq.1 heq ▸ hfresh e he)
  simp only [key, if_neg hany]
  exact .ok rfl hrest

/-- One entry, given how those after it are read. It goes to the end of the entries before it, all
of which have lesser keys. -/
theorem rereads_entry {before after : List (String × Literal)} {e : String × Literal}
    {tokens : WrittenTokens}
    (he : ∀ {ts : List LocatedToken} {rest : WrittenTokens}, written ts = e.2.tokens ++ rest →
      Rereads (NoInfinity e.2.floats) (· = e.2) rest (literal enums leaf ts))
    (hfresh : ∀ b ∈ before, b.1 < e.1)
    (hmore : ∀ {ts : List LocatedToken}, written ts = tokens →
      Rereads (NoInfinity (Literal.entryFloats after)) (· = before ++ [e] ++ after) rest
        (moreEntries enums leaf (before ++ [e]) ts))
    (hts : written ts = entryTokens e ++ tokens) :
    Rereads (NoInfinity (Literal.entryFloats (e :: after))) (· = before ++ e :: after) rest
      (entry enums leaf before ts) := by
  unfold entry
  refine (rereads_key hfresh hts).andThen fun name ts₁ hlt₁ hname hts₁ ↦ ?_
  refine (rereads_symbolOr hts₁).andThen fun _ ts₂ hlt₂ _ hts₂ ↦ ?_
  refine (he hts₂).bind (fun hno ↦ (noInfinity_append.1 hno).1) fun hvalue v ts₃ hlt₃ hv hts₃ ↦ ?_
  subst hname hv
  dsimp only
  rw [Table.insertEntry_append hfresh]
  refine (hmore hts₃).bind (fun hno ↦ (noInfinity_append.1 hno).2)
    fun hafter all ts₄ hlt₄ hall hts₄ ↦ ?_
  have heq : all = before ++ e :: after := by rw [hall, List.append_assoc, List.singleton_append]
  exact Rereads.congr (.ok heq hts₄) (iff_of_true trivial (noInfinity_append.2 ⟨hvalue, hafter⟩))

theorem lt_of_ascending {before after : List (String × Literal)} {e : String × Literal}
    (h : (before ++ e :: after).Pairwise (fun a b ↦ a.1 < b.1)) : ∀ b ∈ before, b.1 < e.1 :=
  fun b hb ↦ (List.pairwise_append.1 h).2.2 b hb e List.mem_cons_self

theorem rereads_moreEntries {before entries : List (String × Literal)}
    (ih : ∀ e ∈ entries, ∀ {ts : List LocatedToken} {rest : WrittenTokens},
      written ts = e.2.tokens ++ rest →
        Rereads (NoInfinity e.2.floats) (· = e.2) rest (literal enums leaf ts))
    (hascending : (before ++ entries).Pairwise (fun a b ↦ a.1 < b.1))
    (hts : written ts = (entries.map entryTokens).flatMap (some (.symbol .comma) :: ·) ++
      some (.symbol .closeBrace) :: rest) :
    Rereads (NoInfinity (Literal.entryFloats entries)) (· = before ++ entries) rest
      (moreEntries enums leaf before ts) := by
  induction entries generalizing before ts with
  | nil =>
    obtain ⟨position, ts', rfl, hrest⟩ := written_eq_some_cons hts
    unfold moreEntries
    exact Rereads.congr (.ok (List.append_nil before).symm hrest)
      (iff_of_true trivial noInfinity_nil)
  | cons e entries ihEntries =>
    rw [List.forall_mem_cons] at ih
    rw [List.map_cons, List.flatMap_cons, List.append_assoc, List.cons_append] at hts
    have hafter : (before ++ [e] ++ entries).Pairwise (fun a b ↦ a.1 < b.1) := by
      rwa [List.append_assoc, List.singleton_append]
    have hcomma := hts
    obtain ⟨position, ts', rfl, hrest⟩ := written_eq_some_cons hts
    unfold moreEntries
    refine (rereads_symbolOr hcomma).andThen fun _ ts₁ hlt₁ _ hts₁ ↦ ?_
    refine (rereads_entry ih.1 (lt_of_ascending hascending)
      (fun hts ↦ ihEntries ih.2 hafter hts) hts₁).bind id fun hno all ts₂ hlt₂ hall hts₂ ↦ ?_
    exact Rereads.congr (.ok hall hts₂) (iff_of_true trivial hno)

theorem rereads_entries {entries : List (String × Literal)}
    (ih : ∀ e ∈ entries, ∀ {ts : List LocatedToken} {rest : WrittenTokens},
      written ts = e.2.tokens ++ rest →
        Rereads (NoInfinity e.2.floats) (· = e.2) rest (literal enums leaf ts))
    (hascending : entries.Pairwise (fun a b ↦ a.1 < b.1))
    (hts : written ts = separated .comma (entries.map entryTokens) ++
      some (.symbol .closeBrace) :: rest) :
    Rereads (NoInfinity (Literal.entryFloats entries)) (· = entries) rest
      (FrameParser.entries enums leaf ts) := by
  cases entries with
  | nil =>
    obtain ⟨position, ts', rfl, hrest⟩ := written_eq_some_cons hts
    unfold FrameParser.entries
    exact Rereads.congr (.ok rfl hrest) (iff_of_true trivial noInfinity_nil)
  | cons e entries =>
    rw [List.forall_mem_cons] at ih
    rw [List.map_cons, separated, List.append_assoc] at hts
    have hfirst : FrameParser.entries enums leaf ts = entry enums leaf [] ts := by
      obtain ⟨position, ts', rfl, hrest⟩ := written_eq_some_cons hts
      unfold FrameParser.entries
      rfl
    rw [hfirst]
    have hbefore : ∀ b ∈ ([] : List (String × Literal)), b.1 < e.1 := by simp
    exact rereads_entry ih.1 hbefore
      (fun hts ↦ rereads_moreEntries ih.2 hascending hts) hts

/-- A well-formed literal is read from its tokens, unless there is an infinity in it. -/
theorem rereads_literal {l : Literal} (h : l.WellFormed enums leaf)
    (hts : written ts = l.tokens ++ rest) :
    Rereads (NoInfinity l.floats) (· = l) rest (literal enums leaf ts) := by
  induction h generalizing ts rest with
  | @scalar s hs =>
    rw [literal_of_scalar hts]
    refine (rereads_scalar hs hts).bind id fun hno a ts' hlt ha hts' ↦ ?_
    subst ha
    exact Rereads.congr (.ok rfl hts') (iff_of_true trivial hno)
  | @array items h ih =>
    rw [Literal.tokens, Literal.itemTokens_eq, List.cons_append, List.cons_append,
      List.append_assoc, List.singleton_append] at hts
    obtain ⟨position, ts', rfl, hrest⟩ := written_eq_some_cons hts
    unfold literal
    refine (rereads_items (fun item hitem ↦ ih item hitem) hrest).bind id
      fun hno a ts₁ hlt₁ ha hts₁ ↦ ?_
    subst ha
    exact Rereads.congr (.ok rfl hts₁) (iff_of_true trivial hno)
  | @dictionary entries hkeys hascending h ih =>
    rw [Literal.tokens, Literal.entryTokens_eq, List.cons_append, List.cons_append,
      List.append_assoc, List.singleton_append] at hts
    obtain ⟨position, ts', rfl, hrest⟩ := written_eq_some_cons hts
    unfold literal
    refine (rereads_entries (fun e he ↦ ih e he) hascending hrest).bind id
      fun hno a ts₁ hlt₁ ha hts₁ ↦ ?_
    subst ha
    exact Rereads.congr (.ok rfl hts₁) (iff_of_true trivial hno)

/-! ## Properties -/

/-- A property whose literals have one scalar type is introduced by that type. -/
theorem rereads_property_of_leaf {type : PropertyType} {t : ScalarType} {value : Literal}
    (hshape : type.Shapes value) (h : value.WellFormed enums type.leaf)
    (hts : written ts = value.tokens ++ rest) (hopening : type.opening = .scalar t)
    (hleaf : type.leaf = some t) :
    Rereads (NoInfinity value.floats) (· = (type, value)) rest
      (property enums type.opening ts) := by
  rw [hleaf] at h
  rw [hopening]
  unfold property
  refine (rereads_literal h hts).bind id fun hno a ts' hlt ha hts' ↦ ?_
  subst ha
  refine Rereads.congr (.ok ?_ hts') (iff_of_true trivial hno)
  cases type with
  | scalar t' =>
    cases hleaf
    cases a <;> first | rfl | cases hshape
  | array leaf =>
    cases hleaf
    cases a <;> first | rfl | cases hshape
  | dictionary leaf =>
    cases hleaf
    cases a <;> first | rfl | cases hshape

/-- What a property is read as after the type that introduces it. -/
theorem rereads_property {type : PropertyType} {value : Literal} (hshape : type.Shapes value)
    (h : value.WellFormed enums type.leaf) (hts : written ts = value.tokens ++ rest) :
    Rereads (NoInfinity value.floats) (· = (type, value)) rest
      (property enums type.opening ts) := by
  cases type with
  | scalar t => exact rereads_property_of_leaf hshape h hts rfl rfl
  | array leaf =>
    cases leaf with
    | some t => exact rereads_property_of_leaf hshape h hts rfl rfl
    | none =>
      cases h with
      | scalar hs => cases hshape
      | dictionary hkeys hascending h => cases hshape
      | @array items h =>
        rw [Literal.tokens, Literal.itemTokens_eq, List.cons_append, List.cons_append,
          List.append_assoc, List.singleton_append] at hts
        unfold property
        refine (rereads_symbol hts).andThen fun _ ts₁ hlt₁ _ hts₁ ↦ ?_
        refine (rereads_items (fun item hitem ↦ rereads_literal (h item hitem)) hts₁).bind id
          fun hno a ts₂ hlt₂ ha hts₂ ↦ ?_
        subst ha
        exact Rereads.congr (.ok rfl hts₂) (iff_of_true trivial hno)
  | dictionary leaf =>
    cases leaf with
    | some t => exact rereads_property_of_leaf hshape h hts rfl rfl
    | none =>
      cases h with
      | scalar hs => cases hshape
      | array h => cases hshape
      | @dictionary entries hkeys hascending h =>
        rw [Literal.tokens, Literal.entryTokens_eq, List.cons_append, List.cons_append,
          List.append_assoc, List.singleton_append] at hts
        unfold property
        refine (rereads_symbol hts).andThen fun _ ts₁ hlt₁ _ hts₁ ↦ ?_
        refine (rereads_entries (fun e he ↦ rereads_literal (h e he)) hascending hts₁).bind id
          fun hno a ts₂ hlt₂ ha hts₂ ↦ ?_
        subst ha
        exact Rereads.congr (.ok rfl hts₂) (iff_of_true trivial hno)

/-! ## Arguments -/

/-- The tokens after an argument: it is followed by another one or by the end of the list. -/
def EndsArgument (rest : WrittenTokens) : Prop :=
  ∃ s more, rest = some (.symbol s) :: more ∧ (s = .comma ∨ s = .closeParen)

theorem EndsArgument.ne {s : FrameSymbol} (h : EndsArgument rest) (hcomma : s ≠ .comma)
    (hclose : s ≠ .closeParen) (more : WrittenTokens) : rest ≠ some (.symbol s) :: more := by
  obtain ⟨t, more', rfl, rfl | rfl⟩ := h
  · intro heq
    cases heq
    exact hcomma rfl
  · intro heq
    cases heq
    exact hclose rfl

section Arguments

variable {item : FrameReader α} {tokens : α → WrittenTokens} {as : List α}

/-- What the arguments of a function have in common: each starts with a word and is read from its
tokens before a comma and before a parenthesis. -/
structure RereadsArguments (item : FrameReader α) (tokens : α → WrittenTokens) (as : List α) :
    Prop where
  startsWithWord : ∀ a ∈ as, ∃ name more, tokens a = some (.word name) :: more
  rereads : ∀ a ∈ as, ∀ ts rest, EndsArgument rest → written ts = tokens a ++ rest →
    Rereads True (· = a) rest (item ts)

theorem RereadsArguments.tail {a : α} (h : RereadsArguments item tokens (a :: as)) :
    RereadsArguments item tokens as :=
  ⟨fun b hb ↦ h.startsWithWord b (List.mem_cons_of_mem _ hb),
    fun b hb ↦ h.rereads b (List.mem_cons_of_mem _ hb)⟩

theorem endsArgument_more (as : List α) (rest : WrittenTokens) :
    EndsArgument ((as.map tokens).flatMap (some (.symbol .comma) :: ·) ++
      some (.symbol .closeParen) :: rest) := by
  cases as with
  | nil => exact ⟨.closeParen, rest, rfl, .inr rfl⟩
  | cons a as => exact ⟨.comma, _, rfl, .inl rfl⟩

theorem rereads_moreOf (h : RereadsArguments item tokens as)
    (hts : written ts = (as.map tokens).flatMap (some (.symbol .comma) :: ·) ++
      some (.symbol .closeParen) :: rest) :
    Rereads True (· = as) rest (moreOf item ts) := by
  induction as generalizing ts with
  | nil =>
    obtain ⟨position, ts', rfl, hrest⟩ := written_eq_some_cons hts
    unfold moreOf
    exact .ok rfl hrest
  | cons a as ih =>
    rw [List.map_cons, List.flatMap_cons, List.append_assoc, List.cons_append] at hts
    have hcomma := hts
    obtain ⟨position, ts', rfl, hrest⟩ := written_eq_some_cons hts
    unfold moreOf
    refine (rereads_symbol hcomma).andThen fun _ ts₁ hlt₁ _ hts₁ ↦ ?_
    refine (h.rereads a List.mem_cons_self _ _ (endsArgument_more as rest) hts₁).andThen
      fun b ts₂ hlt₂ hb hts₂ ↦ ?_
    refine (ih h.tail hts₂).andThen fun bs ts₃ hlt₃ hbs hts₃ ↦ ?_
    subst hb hbs
    exact .ok rfl hts₃

theorem rereads_parenthesized (h : RereadsArguments item tokens as)
    (hts : written ts = argumentTokens (as.map tokens) ++ rest) :
    Rereads True (· = as) rest (parenthesized item ts) := by
  rw [argumentTokens, List.cons_append, List.cons_append, List.append_assoc,
    List.singleton_append] at hts
  unfold parenthesized
  refine (rereads_symbol hts).andThen fun _ ts₁ hlt₁ _ hts₁ ↦ ?_
  have hitems : Rereads True (· = as) rest (itemsOf item ts₁) := by
    cases as with
    | nil =>
      obtain ⟨position, ts', rfl, hrest⟩ := written_eq_some_cons hts₁
      exact .ok rfl hrest
    | cons a as =>
      rw [List.map_cons, separated, List.append_assoc] at hts₁
      have hfirst : itemsOf item ts₁ = item ts₁ >>= fun a ↦ moreOf item a.rest >>= fun more ↦
          .ok ⟨a.value :: more.value, more.rest, more.length_lt.trans a.length_lt⟩ := by
        obtain ⟨name, more, hname⟩ := h.startsWithWord a List.mem_cons_self
        rw [hname] at hts₁
        obtain ⟨position, ts', rfl, hrest⟩ := written_eq_some_cons hts₁
        rfl
      rw [hfirst]
      refine (h.rereads a List.mem_cons_self _ _ (endsArgument_more as rest) hts₁).andThen
        fun b ts₂ hlt₂ hb hts₂ ↦ ?_
      refine (rereads_moreOf h.tail hts₂).andThen fun bs ts₃ hlt₃ hbs hts₃ ↦ ?_
      subst hb hbs
      exact .ok rfl hts₃
  refine hitems.andThen fun bs ts₂ hlt₂ hbs hts₂ ↦ ?_
  exact .ok hbs hts₂

end Arguments

theorem rereads_argument {a : Argument} (h : a.WellFormed enums) (hrest : EndsArgument rest)
    (hts : written ts = a.tokens ++ rest) : Rereads True (· = a) rest (argument enums ts) := by
  obtain ⟨name, annotation⟩ := a
  cases annotation with
  | none =>
    unfold argument
    refine (rereads_word hts).andThen fun b ts₁ hlt₁ hb hts₁ ↦ ?_
    subst hb
    obtain ⟨hcolon, hsame⟩ := @symbol?_of_ne ts₁ .colon
      (hts₁ ▸ hrest.ne (by simp) (by simp))
    dsimp only
    rw [if_neg (by simp [hcolon])]
    refine .ok rfl ?_
    rw [hsame]
    exact hts₁
  | some type =>
    unfold argument
    refine (rereads_word hts).andThen fun b ts₁ hlt₁ hb hts₁ ↦ ?_
    subst hb
    obtain ⟨hcolon, hts₂⟩ := symbol?_of_eq hts₁
    dsimp only
    rw [if_pos hcolon]
    refine (rereads_valueType (h.annotation type rfl) hts₂).andThen fun b ts₃ hlt₃ hb hts₃ ↦ ?_
    subst hb
    exact .ok rfl hts₃

theorem rereadsArguments_argument {as : List Argument} (h : ∀ a ∈ as, a.WellFormed enums) :
    RereadsArguments (argument enums) Argument.tokens as where
  startsWithWord a _ := by
    unfold Argument.tokens
    split <;> exact ⟨_, _, rfl⟩
  rereads a ha _ _ := rereads_argument (h a ha)

theorem rereads_moreSegments {segments : List String} (hrest : EndsArgument rest)
    (hts : written ts = (segments.map fun segment ↦ [some (.word segment)]).flatMap
      (some (.symbol .dot) :: ·) ++ rest) :
    Rereads True (· = segments) rest (moreSegments ts) := by
  induction segments generalizing ts with
  | nil =>
    unfold moreSegments
    split
    · exact absurd hts.symm (hrest.ne (by simp) (by simp) _)
    · exact .ok rfl hts
  | cons segment segments ih =>
    obtain ⟨position, ts', rfl, hts'⟩ := written_eq_some_cons hts
    unfold moreSegments
    refine (rereads_word hts').andThen fun a ts₁ hlt₁ ha hts₁ ↦ ?_
    refine (ih hts₁).andThen fun more ts₂ hlt₂ hmore hts₂ ↦ ?_
    subst ha hmore
    exact .ok rfl hts₂

theorem rereads_pathArgument {a : PathArgument} (h : a.WellFormed) (hrest : EndsArgument rest)
    (hts : written ts = a.tokens ++ rest) : Rereads True (· = a) rest (pathArgument ts) := by
  obtain ⟨name, segments⟩ := a
  have hlength : 2 ≤ segments.length := h.length
  unfold pathArgument
  refine (rereads_word hts).andThen fun b ts₁ hlt₁ hb hts₁ ↦ ?_
  refine (rereads_symbol hts₁).andThen fun _ ts₂ hlt₂ _ hts₂ ↦ ?_
  have hpath : Rereads True (· = segments) rest (path ts₂) := by
    match segments, hlength with
    | first :: second :: more, _ =>
      unfold path
      refine (rereads_word hts₂).andThen fun c ts₃ hlt₃ hc hts₃ ↦ ?_
      refine (rereads_moreSegments hrest hts₃).andThen
        fun cs ts₄ hlt₄ hcs hts₄ ↦ ?_
      subst hc hcs
      exact .ok rfl hts₄
  refine hpath.andThen fun path ts₃ hlt₃ heq hts₃ ↦ ?_
  subst hb heq
  exact .ok rfl hts₃

theorem rereadsArguments_pathArgument {as : List PathArgument} (h : ∀ a ∈ as, a.WellFormed) :
    RereadsArguments pathArgument PathArgument.tokens as where
  startsWithWord _ _ := ⟨_, _, rfl⟩
  rereads a ha _ _ := rereads_pathArgument (h a ha)

/-! ## Functions -/

theorem atSymbol_of_ne {s : FrameSymbol} (hts : ∀ more, written ts ≠ some (.symbol s) :: more) :
    atSymbol s ts = false := by
  unfold atSymbol
  split
  · rename_i t position rest
    by_contra heq
    rw [Bool.not_eq_false, beq_iff_eq] at heq
    exact hts (written rest) (by rw [← heq]; rfl)
  · rfl

theorem noReturnType_of_ne (hts : ∀ more, written ts ≠ some (.symbol .arrow) :: more) :
    noReturnType none ts = .ok () := by
  simp [noReturnType, atSymbol_of_ne hts, pure, Except.pure]

theorem rereads_returnType {before : Option ValueType} {script : String}
    (hts : written ts = some (.text script) :: rest) :
    Rereads True (· = before) (some (.text script) :: rest) (returnType enums before ts) := by
  obtain ⟨harrow, hsame⟩ := @symbol?_of_ne ts .arrow fun more ↦ by simp [hts]
  unfold returnType
  dsimp only
  rw [if_neg (by simp [harrow])]
  refine .ok rfl ?_
  rw [hsame]
  exact hts

/-- A check that passes before another reader. -/
theorem Rereads.check {q : Prop} {Q : β → Prop} {rest : WrittenTokens} {r : Except FrameStop Unit}
    {next : Unit → Except FrameStop (FrameReading m β)} (h : r = .ok ())
    (hnext : Rereads q Q rest (next ())) : Rereads q Q rest (r >>= next) := by
  subst h
  exact hnext

theorem rereads_initArguments {argument : Option Argument} {script : String}
    (h : ∀ a ∈ argument, a.WellFormed enums)
    (hts : written ts = (Function.init argument script).argumentTokens ++
      some (.text script) :: rest) :
    Rereads True (· = argument.toList) (some (.text script) :: rest) (initArguments enums ts) := by
  cases argument with
  | none =>
    have hopen : atSymbol .openParen ts = false := atSymbol_of_ne fun more ↦ by
      rw [hts]
      simp [Function.argumentTokens]
    rw [initArguments, if_neg (by simp [hopen])]
    exact .ok rfl hts
  | some a =>
    have hopen : atSymbol .openParen ts = true := by
      have hopen := hts
      rw [Function.argumentTokens, argumentTokens, List.cons_append] at hopen
      obtain ⟨position, ts', rfl, -⟩ := written_eq_some_cons hopen
      rfl
    have hlist : RereadsArguments (argument enums) Argument.tokens [a] :=
      rereadsArguments_argument (by simpa using h)
    rw [initArguments, if_pos hopen]
    refine (rereads_parenthesized hlist hts).andThen fun bs ts₁ hlt₁ hbs hts₁ ↦ ?_
    exact .ok hbs hts₁

/-- No arrow stands between the keyword of a function and its body. -/
theorem ne_arrow {f : Function}
    (hts : written ts = f.argumentTokens ++ some (.text f.script) :: rest)
    (more : WrittenTokens) : written ts ≠ some (.symbol .arrow) :: more := by
  rw [hts]
  cases f with
  | init argument script => cases argument <;> simp [Function.argumentTokens, argumentTokens]
  | _ => simp [Function.argumentTokens, argumentTokens]

/-- A well-formed function is read from its tokens after the keyword. -/
theorem rereads_function {f : Function} (h : f.WellFormed enums)
    (hts : written ts = f.argumentTokens ++ some (.text f.script) :: rest) :
    Rereads True (· = f) rest (function enums f.kind f.returns? ts) := by
  have hhead := h.head
  have harrow : noReturnType none ts = .ok () := noReturnType_of_ne (ne_arrow hts)
  have hbody {script : String} {ts : List LocatedToken}
      (hts : written ts = some (.text script) :: rest) : noReturnType none ts = .ok () :=
    noReturnType_of_ne fun more ↦ by simp [hts]
  cases f with
  | init argument script =>
    unfold function
    refine Rereads.check harrow ?_
    refine (rereads_initArguments (fun a ha ↦ (hhead.1 a ha).1) hts).andThen
      fun arguments ts₁ hlt₁ harguments hts₁ ↦ ?_
    have hfilter : arguments.filter (·.name ≠ "self") = argument.toList := by
      rw [harguments, List.filter_eq_self]
      intro a ha
      simpa using (hhead.1 a (Option.mem_toList.1 ha)).2
    dsimp only
    rw [hfilter]
    cases argument with
    | none =>
      refine Rereads.check (hbody hts₁) ?_
      refine (rereads_body hts₁).andThen fun s ts₂ hlt₂ hs hts₂ ↦ ?_
      subst hs
      exact .ok rfl hts₂
    | some a =>
      refine Rereads.check (hbody hts₁) ?_
      refine (rereads_body hts₁).andThen fun s ts₂ hlt₂ hs hts₂ ↦ ?_
      subst hs
      exact .ok rfl hts₂
  | event arguments script =>
    unfold function
    refine Rereads.check harrow ?_
    refine (rereads_parenthesized (rereadsArguments_argument hhead.1) hts).andThen
      fun as ts₁ hlt₁ has hts₁ ↦ ?_
    refine Rereads.check (hbody hts₁) ?_
    refine (rereads_body hts₁).andThen fun s ts₂ hlt₂ hs hts₂ ↦ ?_
    subst has hs
    exact .ok rfl hts₂
  | listener arguments returns script =>
    unfold function
    refine (rereads_parenthesized (rereadsArguments_pathArgument hhead.1) hts).andThen
      fun as ts₁ hlt₁ has hts₁ ↦ ?_
    refine (rereads_returnType hts₁).andThen
      fun returns' ts₂ hlt₂ hreturns hts₂ ↦ ?_
    subst hreturns
    refine (rereads_body hts₂).andThen fun s ts₃ hlt₃ hs hts₃ ↦ ?_
    subst has hs
    exact .ok rfl hts₃
  | procedure arguments returns script =>
    unfold function
    refine (rereads_parenthesized (rereadsArguments_argument hhead.1) hts).andThen
      fun as ts₁ hlt₁ has hts₁ ↦ ?_
    refine (rereads_returnType hts₁).andThen
      fun returns' ts₂ hlt₂ hreturns hts₂ ↦ ?_
    refine (rereads_body hts₂).andThen fun s ts₃ hlt₃ hs hts₃ ↦ ?_
    subst has hreturns hs
    exact .ok rfl hts₃

/-! ## Members -/

/-- The first word of a literal is no keyword of functions. -/
theorem functionKeyword?_of_literal {value : Literal} (h : value.IsNoKeyword)
    (hts : written ts = value.tokens ++ rest) : functionKeyword? ts = none := by
  cases value with
  | scalar s =>
    obtain ⟨token, position, ts', htoken, rfl, hrest⟩ := written_eq_cons hts
    cases s with
    | float x =>
      unfold Scalar.token? at htoken
      dsimp only at htoken
      split at htoken <;> cases htoken <;> rfl
    | enum type member value =>
      cases htoken
      exact h
    | _ =>
      cases htoken
      rfl
  | array items =>
    obtain ⟨position, ts', rfl, hrest⟩ := written_eq_some_cons hts
    rfl
  | dictionary entries =>
    obtain ⟨position, ts', rfl, hrest⟩ := written_eq_some_cons hts
    rfl

/-- A property after the word of its type. -/
theorem rereads_typedMember_property {name : String} {line : Nat} {type : PropertyType}
    {value : Literal} (hshape : type.Shapes value) (hkeyword : value.IsNoKeyword)
    (h : value.WellFormed enums type.leaf) (hts : written ts = value.tokens ++ rest) :
    Rereads (NoInfinity value.floats) (· = .property name line type value) rest
      (typedMember enums name line type.opening ts) := by
  have hproperty : typedMember enums name line type.opening ts
      = property enums type.opening ts >>= fun p ↦
        .ok ⟨.property name line p.value.1 p.value.2, p.rest, p.length_lt⟩ := by
    have hfirst := functionKeyword?_of_literal hkeyword hts
    cases ts with
    | nil => rfl
    | cons t ts =>
      unfold typedMember
      rw [hfirst]
      rfl
  rw [hproperty]
  refine (rereads_property hshape h hts).bind id fun hno p ts₁ hlt₁ hp hts₁ ↦ ?_
  subst hp
  exact Rereads.congr (.ok rfl hts₁) (iff_of_true trivial hno)

theorem ofKeyword?_keyword (kind : FunctionKind) :
    FunctionKind.ofKeyword? kind.keyword = some kind := by cases kind <;> rfl

/-- A function after the type of its result. -/
theorem rereads_typedMember_function {name : String} {line : Nat} {f : Function} {type : ValueType}
    (h : f.WellFormed enums) (hreturns : f.returns? = some type)
    (hts : written ts = some (.word f.kind.keyword) ::
      (f.argumentTokens ++ some (.text f.script) :: rest)) :
    Rereads True (· = .function name line f) rest (typedMember enums name line type ts) := by
  obtain ⟨position, ts', rfl, hts'⟩ := written_eq_some_cons hts
  have hread := rereads_function h hts'
  rw [hreturns] at hread
  have hkind : functionKeyword? (⟨.word f.kind.keyword, position⟩ :: ts') = some f.kind :=
    ofKeyword?_keyword f.kind
  unfold typedMember
  rw [hkind]
  refine hread.andThen fun g ts₁ hlt₁ hg hts₁ ↦ ?_
  subst hg
  exact .ok rfl hts₁

theorem introduces_of_returns? {f : Function} (h : f.HeadWellFormed enums)
    (hnone : f.returns? = none) : f.kind.Introduces enums := by
  cases f with
  | init argument script => exact h.2
  | event arguments script => exact h.2
  | listener arguments returns script => cases hnone
  | procedure arguments returns script =>
    have hreturns : returns = none := hnone
    subst hreturns
    exact h.2

theorem wellFormed_of_returns? {f : Function} {type : ValueType} (h : f.HeadWellFormed enums)
    (hsome : f.returns? = some type) : type.WellFormed enums := by
  cases f with
  | init argument script => cases hsome
  | event arguments script => cases hsome
  | listener arguments returns script =>
    cases hsome
    exact h.2
  | procedure arguments returns script =>
    have hreturns : returns = some type := hsome
    subst hreturns
    exact h.2

theorem rereads_member_function {f : Function} {name : String} {line : Nat}
    (h : f.WellFormed enums)
    (hts : written ts = (Member.function name line f).tokens ++ rest) :
    Rereads True (fun m ↦ m.unlined = (Member.function name line f).unlined) rest
      (member enums ts) := by
  rw [Member.tokens, Function.tokens] at hts
  unfold member
  refine (rereads_word hts).andThen fun a ts₁ hlt₁ ha hts₁ ↦ ?_
  refine (rereads_symbol hts₁).andThen fun _ ts₂ hlt₂ _ hts₂ ↦ ?_
  subst ha
  cases hreturns : f.returns? with
  | none =>
    rw [hreturns] at hts₂
    refine (rereads_word hts₂).andThen fun keyword ts₃ hlt₃ hkeyword hts₃ ↦ ?_
    have hts₃' : written ts₃ = f.argumentTokens ++ some (.text f.script) :: rest := by
      rw [hts₃]
      simp
    subst hkeyword
    simp only [show TypeWord.ofName enums f.kind.keyword = _ from
      introduces_of_returns? h.head hreturns]
    have hread := rereads_function h hts₃'
    rw [hreturns] at hread
    refine hread.andThen fun g ts₄ hlt₄ hg hts₄ ↦ ?_
    subst hg
    exact .ok rfl hts₄
  | some type =>
    rw [hreturns] at hts₂
    refine (rereads_word hts₂).andThen fun keyword ts₃ hlt₃ hkeyword hts₃ ↦ ?_
    subst hkeyword
    simp only [(wellFormed_of_returns? h.head hreturns).ofName]
    have hts₃' : written ts₃ = some (.word f.kind.keyword) ::
        (f.argumentTokens ++ some (.text f.script) :: rest) := by
      rw [hts₃]
      simp
    refine (rereads_typedMember_function h hreturns hts₃').andThen fun m ts₄ hlt₄ hm hts₄ ↦ ?_
    subst hm
    exact .ok rfl hts₄

theorem rereads_member_property {name : String} {line : Nat} {type : PropertyType} {value : Literal}
    (htype : type.opening.WellFormed enums) (hshape : type.Shapes value)
    (hkeyword : value.IsNoKeyword) (h : value.WellFormed enums type.leaf)
    (hts : written ts = (Member.property name line type value).tokens ++ rest) :
    Rereads (NoInfinity value.floats)
      (fun m ↦ m.unlined = (Member.property name line type value).unlined) rest
      (member enums ts) := by
  rw [Member.tokens, ← PropertyType.keyword_opening] at hts
  unfold member
  refine (rereads_word hts).andThen fun a ts₁ hlt₁ ha hts₁ ↦ ?_
  refine (rereads_symbol hts₁).andThen fun _ ts₂ hlt₂ _ hts₂ ↦ ?_
  refine (rereads_word hts₂).andThen fun keyword ts₃ hlt₃ hword hts₃ ↦ ?_
  subst ha hword
  simp only [htype.ofName]
  refine (rereads_typedMember_property hshape hkeyword h hts₃).bind id
    fun hno m ts₄ hlt₄ hm hts₄ ↦ ?_
  subst hm
  exact Rereads.congr (.ok rfl hts₄) (iff_of_true trivial hno)

theorem Member.exists_tokens_cons (m : Member) :
    ∃ name more, m.tokens = some (.word name) :: more := by
  cases m <;> exact ⟨_, _, rfl⟩

/-- No comma stands where a member or the end of a frame does. -/
theorem listTokens_ne_comma (members : List Member) (rest more : WrittenTokens) :
    Member.listTokens members ++ some (.symbol .closeBrace) :: rest
      ≠ some (.symbol .comma) :: more := by
  cases members with
  | nil => simp [Member.listTokens]
  | cons m members =>
    obtain ⟨name, tokens, hm⟩ := Member.exists_tokens_cons m
    simp [Member.listTokens, hm]

/-- The members of a frame are read up to the brace that closes it, given how each is read. -/
theorem rereads_listTokens {members : List Member}
    (h : ∀ m ∈ members, ∀ {ts : List LocatedToken} {rest : WrittenTokens},
      written ts = m.tokens ++ rest →
        Rereads (NoInfinity m.floats) (fun m' ↦ m'.unlined = m.unlined) rest (member enums ts))
    (hts : written ts = Member.listTokens members ++ some (.symbol .closeBrace) :: rest) :
    Rereads (NoInfinity (Member.listFloats members))
      (fun ms ↦ Member.listUnlined ms = Member.listUnlined members) rest
      (FrameParser.members enums ts) := by
  induction members generalizing ts with
  | nil =>
    obtain ⟨position, ts', rfl, hrest⟩ := written_eq_some_cons hts
    unfold FrameParser.members
    exact Rereads.congr (.ok rfl hrest) (iff_of_true trivial noInfinity_nil)
  | cons m members ih =>
    rw [List.forall_mem_cons] at h
    rw [Member.listTokens, List.append_assoc] at hts
    have hmember := h.1 hts
    obtain ⟨name, more, hm⟩ := Member.exists_tokens_cons m
    rw [hm] at hts
    obtain ⟨position, ts', rfl, -⟩ := written_eq_some_cons hts
    unfold FrameParser.members
    refine hmember.bind (fun hno ↦ (noInfinity_append.1 hno).1) fun hfirst m' ts₁ hlt₁ hm' hts₁ ↦ ?_
    obtain ⟨-, hsame⟩ := @symbol?_of_ne ts₁ .comma
      (hts₁ ▸ listTokens_ne_comma members rest)
    have hrest : written (symbol? .comma ts₁).rest
        = Member.listTokens members ++ some (.symbol .closeBrace) :: rest := by
      rw [hsame]
      exact hts₁
    refine (ih h.2 hrest).bind (fun hno ↦ (noInfinity_append.1 hno).2)
      fun hothers ms ts₂ hlt₂ hms hts₂ ↦ ?_
    have hlist : Member.listUnlined (m' :: ms) = Member.listUnlined (m :: members) := by
      rw [Member.listUnlined, Member.listUnlined, hm', hms]
    exact Rereads.congr (.ok hlist hts₂)
      (iff_of_true trivial (noInfinity_append.2 ⟨hfirst, hothers⟩))

/-- A well-formed member is read from its tokens, unless there is an infinity in it. -/
theorem rereads_member {m : Member} (h : m.WellFormed enums) (hts : written ts = m.tokens ++ rest) :
    Rereads (NoInfinity m.floats) (fun m' ↦ m'.unlined = m.unlined) rest (member enums ts) := by
  induction h generalizing ts rest with
  | property hname htype hshape hkeyword h =>
    exact rereads_member_property htype hshape hkeyword h hts
  | function hname h =>
    exact (rereads_member_function h hts).congr (iff_of_true trivial noInfinity_nil)
  | @frame name line className members hname hclass h ih =>
    rw [Member.tokens] at hts
    have hts' : written ts = some (.word name) :: some (.symbol .colon) :: some (.word className) ::
        some (.symbol .openBrace) ::
          (Member.listTokens members ++ some (.symbol .closeBrace) :: rest) := by
      rw [hts]
      simp
    unfold member
    refine (rereads_word hts').andThen fun a ts₁ hlt₁ ha hts₁ ↦ ?_
    refine (rereads_symbol hts₁).andThen fun _ ts₂ hlt₂ _ hts₂ ↦ ?_
    refine (rereads_word hts₂).andThen fun b ts₃ hlt₃ hb hts₃ ↦ ?_
    subst ha hb
    simp only [hclass.ofName]
    refine (rereads_symbol hts₃).andThen fun _ ts₄ hlt₄ _ hts₄ ↦ ?_
    refine (rereads_listTokens (fun m hm ↦ ih m hm) hts₄).bind id
      fun hno ms ts₅ hlt₅ hms hts₅ ↦ ?_
    refine Rereads.congr (.ok ?_ hts₅) (iff_of_true trivial hno)
    rw [Member.unlined, Member.unlined, hms]

/-- What the tokens of a well-formed frame are read as: the frame without the lines of its members,
unless there is an infinity in it. -/
theorem root_tokens {f : Frame} (h : f.WellFormed enums) (hts : written ts = f.tokens) :
    (NoInfinity f.floats → ∃ f', root enums ts = .ok f' ∧ f'.unlined = f.unlined) ∧
      (¬NoInfinity f.floats → ∃ stop, root enums ts = .error stop) := by
  have hts' : written ts = some (.word f.instanceName) :: some (.symbol .colon) ::
      some (.word f.className) :: some (.symbol .openBrace) ::
        (Member.listTokens f.members ++ [some (.symbol .closeBrace)]) := by
    rw [hts, Frame.tokens]
    simp
  obtain ⟨name, ts₁, hlt₁, hname, rfl, hts₁⟩ :=
    (@rereads_word _ _ .identifier _ hts').reads trivial
  obtain ⟨_, ts₂, hlt₂, hcolon, -, hts₂⟩ := (rereads_symbol hts₁).reads trivial
  obtain ⟨className, ts₃, hlt₃, hclass, rfl, hts₃⟩ :=
    (rereads_className h.isClass hts₂).reads trivial
  obtain ⟨_, ts₄, hlt₄, hopen, -, hts₄⟩ := (rereads_symbol hts₃).reads trivial
  have hmembers := rereads_listTokens (fun m hm ↦ rereads_member (h.members m hm)) hts₄
  constructor
  · intro hno
    obtain ⟨ms, ts₅, hlt₅, hread, hms, hts₅⟩ := hmembers.reads hno
    have hempty : ts₅ = [] := by simpa [written] using hts₅
    subst hempty
    refine ⟨⟨f.className, f.instanceName, ms⟩, ?_, ?_⟩
    · simp [root, hname, hcolon, hclass, hopen, hread, bind, Except.bind, pure, Except.pure]
    · rw [Frame.unlined, Frame.unlined, hms]
  · intro hinfinite
    obtain ⟨stop, hread⟩ := hmembers.fails hinfinite
    refine ⟨stop, ?_⟩
    simp [root, hname, hcolon, hclass, hopen, hread, bind, Except.bind]

end FrameParser

end ReactiveFrames
