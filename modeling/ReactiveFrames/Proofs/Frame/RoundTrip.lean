import ReactiveFrames.Proofs.Frame.Rereading
import Mathlib.Data.List.Chain

/-!
# Canonical source is read as its frame

A frame that was read from a source is read again from its canonical source, with other lines, if
and only if there is no infinity among its doubles. With an infinity the canonical source is no
frame.

The last link is the joining of string literals: in canonical source two of them never follow each
other directly, so joining leaves the tokens alone.

## Main statements

* `Frame.parse_source_of_wellFormed`: the canonical source of a well-formed frame.
* `Frame.parse_source`: the canonical source of a frame that was read.
-/

namespace ReactiveFrames

open Decimal (IsInfinite ReadsBack)
open FrameParser (NoInfinity)

variable {enums : EnumTable} {leaf : Option ScalarType}

/-! ## String literals stand apart -/

/-- The token is a string literal. -/
def IsString (token : Option FrameToken) : Prop := ∃ s, token = some (.string s)

/-- No string literal follows another one. -/
def Spaced (ts : WrittenTokens) : Prop := ts.IsChain fun a b ↦ IsString a → ¬IsString b

/-- No string literal follows another one, not even after a string literal. -/
structure SpacedAfter (ts : WrittenTokens) : Prop where
  spaced : Spaced ts
  head : ∀ t ∈ ts.head?, ¬IsString t

theorem SpacedAfter.cons {t : Option FrameToken} {ts : WrittenTokens} (ht : ¬IsString t)
    (h : Spaced ts) : SpacedAfter (t :: ts) where
  spaced := List.isChain_cons.2 ⟨fun _ _ hstring ↦ absurd hstring ht, h⟩
  head := by simpa using ht

theorem Spaced.append {ts us : WrittenTokens} (hts : Spaced ts) (hus : SpacedAfter us) :
    Spaced (ts ++ us) :=
  List.isChain_append.2 ⟨hts, hus.spaced, fun _ _ u hu _ ↦ hus.head u hu⟩

theorem not_isString_symbol (s : FrameSymbol) : ¬IsString (some (.symbol s)) := by
  rintro ⟨_, ⟨⟩⟩

theorem not_isString_word (name : String) : ¬IsString (some (.word name)) := by
  rintro ⟨_, ⟨⟩⟩

/-- Tokens without string literals. -/
theorem spaced_of_forall {ts : WrittenTokens} (h : ∀ t ∈ ts, ¬IsString t) : Spaced ts := by
  induction ts with
  | nil => exact .nil
  | cons t ts ih =>
    rw [List.forall_mem_cons] at h
    exact (SpacedAfter.cons h.1 (ih h.2)).spaced

/-- Separators keep the string literals of a list apart, and so does what closes it. -/
theorem spaced_separated {s close : FrameSymbol} {lists : List WrittenTokens}
    (h : ∀ ts ∈ lists, Spaced ts) : Spaced (separated s lists ++ [some (.symbol close)]) := by
  have hmore : ∀ more : List WrittenTokens, (∀ ts ∈ more, Spaced ts) →
      SpacedAfter (more.flatMap (some (.symbol s) :: ·) ++ [some (.symbol close)]) := by
    intro more hmore
    induction more with
    | nil => exact .cons (not_isString_symbol close) .nil
    | cons ts more ih =>
      rw [List.forall_mem_cons] at hmore
      rw [List.flatMap_cons, List.append_assoc, List.cons_append]
      exact .cons (not_isString_symbol s) (hmore.1.append (ih hmore.2))
  cases lists with
  | nil => exact (hmore [] (by simp)).spaced
  | cons ts more =>
    rw [List.forall_mem_cons] at h
    rw [separated, List.append_assoc]
    exact h.1.append (hmore more h.2)

theorem Literal.spaced_tokens {l : Literal} (h : l.WellFormed enums leaf) : Spaced l.tokens := by
  induction h with
  | scalar hs => exact .singleton _
  | @array items h ih =>
    rw [tokens, itemTokens_eq, List.cons_append]
    refine (SpacedAfter.cons (not_isString_symbol _) (spaced_separated ?_)).spaced
    simpa using ih
  | @dictionary entries hkeys hascending h ih =>
    rw [tokens, entryTokens_eq, List.cons_append]
    refine (SpacedAfter.cons (not_isString_symbol _) (spaced_separated ?_)).spaced
    intro ts hts
    obtain ⟨e, he, rfl⟩ := List.mem_map.1 hts
    exact (SpacedAfter.cons (not_isString_word e.1)
      (SpacedAfter.cons (not_isString_symbol _) (ih e he)).spaced).spaced

theorem mem_separated {s : FrameSymbol} {lists : List WrittenTokens} {t : Option FrameToken}
    (h : t ∈ separated s lists) : t = some (.symbol s) ∨ ∃ ts ∈ lists, t ∈ ts := by
  cases lists with
  | nil => cases h
  | cons ts more =>
    simp only [separated, List.mem_append, List.mem_flatMap, List.mem_cons] at h
    grind

/-! ## Functions -/

/-- The text is cut into tokens none of which is a string literal. -/
def AllPlain (ts : WrittenTokens) : Prop := ∀ t ∈ ts, t ≠ none ∧ ¬IsString t

theorem allPlain_cons {token : FrameToken} {ts : WrittenTokens} :
    AllPlain (some token :: ts) ↔ ¬IsString (some token) ∧ AllPlain ts := by
  rw [AllPlain, List.forall_mem_cons]
  simp [AllPlain]

theorem allPlain_separated {s : FrameSymbol} {lists : List WrittenTokens}
    (h : ∀ ts ∈ lists, AllPlain ts) : AllPlain (separated s lists) := by
  intro t ht
  rcases mem_separated ht with rfl | ⟨ts, hts, ht⟩
  · exact ⟨by simp, not_isString_symbol s⟩
  · exact h ts hts t ht

theorem allPlain_argumentTokens {α : Type} {tokens : α → WrittenTokens} {as : List α}
    (h : ∀ a ∈ as, AllPlain (tokens a)) : AllPlain (argumentTokens (as.map tokens)) := by
  rw [argumentTokens, List.cons_append, allPlain_cons]
  refine ⟨not_isString_symbol _, List.forall_mem_append.2 ⟨allPlain_separated ?_, ?_⟩⟩
  · simpa using h
  · simpa using not_isString_symbol _

theorem Argument.allPlain_tokens (a : Argument) : AllPlain a.tokens := by
  unfold tokens
  split <;> simp [AllPlain, not_isString_symbol, not_isString_word]

theorem PathArgument.allPlain_tokens (a : PathArgument) : AllPlain a.tokens := by
  rw [tokens, allPlain_cons, allPlain_cons]
  refine ⟨not_isString_word _, not_isString_symbol _, allPlain_separated fun ts hts ↦ ?_⟩
  obtain ⟨segment, -, rfl⟩ := List.mem_map.1 hts
  simpa [AllPlain] using not_isString_word segment

theorem Function.allPlain_tokens (f : Function) : AllPlain f.tokens := by
  have harguments : AllPlain f.argumentTokens := by
    cases f with
    | init argument script =>
      cases argument with
      | none => simp [AllPlain, argumentTokens]
      | some a => exact allPlain_argumentTokens fun b _ ↦ b.allPlain_tokens
    | event arguments script => exact allPlain_argumentTokens fun a _ ↦ a.allPlain_tokens
    | listener arguments returns script =>
      exact allPlain_argumentTokens fun a _ ↦ a.allPlain_tokens
    | procedure arguments returns script =>
      exact allPlain_argumentTokens fun a _ ↦ a.allPlain_tokens
  have hscript : ¬IsString (some (.text f.script)) := by
    rintro ⟨_, ⟨⟩⟩
  intro t ht
  simp only [tokens, List.mem_append, List.mem_cons, List.mem_map, List.not_mem_nil, or_false] at ht
  rcases ht with (⟨type, -, rfl⟩ | rfl | ht) | rfl
  · exact ⟨by simp, not_isString_word _⟩
  · exact ⟨by simp, not_isString_word _⟩
  · exact harguments t ht
  · exact ⟨by simp, hscript⟩

/-! ## Members -/

/-- Members stand apart, each of which starts with a word, and so does the brace after them. -/
theorem Member.spaced_listTokens {members : List Member} (h : ∀ m ∈ members, Spaced m.tokens) :
    SpacedAfter (listTokens members ++ [some (.symbol .closeBrace)]) := by
  induction members with
  | nil => exact .cons (not_isString_symbol _) .nil
  | cons m members ih =>
    rw [List.forall_mem_cons] at h
    rw [listTokens, List.append_assoc]
    obtain ⟨name, more, hm⟩ := FrameParser.Member.exists_tokens_cons m
    refine ⟨h.1.append (ih h.2), ?_⟩
    simpa [hm] using not_isString_word name

theorem Member.spaced_tokens {m : Member} (h : m.WellFormed enums) : Spaced m.tokens := by
  have hnamed : ∀ (name : String) {ts : WrittenTokens}, Spaced ts →
      Spaced (some (.word name) :: some (.symbol .colon) :: ts) := fun name _ hts ↦
    (SpacedAfter.cons (not_isString_word name)
      (SpacedAfter.cons (not_isString_symbol _) hts).spaced).spaced
  induction h with
  | property hname htype hshape hkeyword h =>
    exact hnamed _ (SpacedAfter.cons (not_isString_word _) (Literal.spaced_tokens h)).spaced
  | @function name line f hname h =>
    exact hnamed _ (spaced_of_forall fun t ht ↦ (f.allPlain_tokens t ht).2)
  | frame hname hclass h ih =>
    refine hnamed _ (SpacedAfter.cons (not_isString_word _) ?_).spaced
    exact (SpacedAfter.cons (not_isString_symbol _) (spaced_listTokens ih).spaced).spaced

theorem Frame.spaced_tokens {f : Frame} (h : f.WellFormed enums) : Spaced f.tokens := by
  have hmembers := (Member.spaced_listTokens fun m hm ↦
    Member.spaced_tokens (h.members m hm)).spaced
  refine (SpacedAfter.cons (not_isString_word _)
    (SpacedAfter.cons (not_isString_symbol _) ?_).spaced).spaced
  exact (SpacedAfter.cons (not_isString_word _)
    (SpacedAfter.cons (not_isString_symbol _) hmembers).spaced).spaced

/-- String literals that stand apart are not joined. -/
theorem FrameTokens.joinStrings_of_spaced {ts : List LocatedToken} (h : Spaced (written ts)) :
    joinStrings ts = ts := by
  induction ts with
  | nil => rfl
  | cons t ts ih =>
    have hts := ih (List.isChain_cons.1 h).2
    unfold joinStrings
    split
    · rename_i s s' position rest' hstring hrest
      rw [hts] at hrest
      subst hrest
      have hapart := (List.isChain_cons.1 h).1 (some (.string s')) rfl
      exact absurd ⟨s', rfl⟩ (hapart ⟨s, congrArg some hstring⟩)
    · rw [hts]

/-! ## Every character belongs to a token -/

theorem Scalar.token?_ne_none {s : Scalar} (h : NoInfinity s.floats) : s.token? ≠ none := by
  cases s with
  | float x =>
    unfold token?
    dsimp only
    split
    · rename_i hx
      exact absurd ⟨true, hx⟩ (h x (by simp [floats]))
    · simp
    · simp
  | _ => simp [token?]

theorem none_notMem_separated {s : FrameSymbol} {lists : List WrittenTokens}
    (h : ∀ ts ∈ lists, none ∉ ts) : none ∉ separated s lists := by
  intro hnone
  rcases mem_separated hnone with hnone | ⟨ts, hts, hnone⟩
  · cases hnone
  · exact h ts hts hnone

theorem Literal.none_notMem_tokens {l : Literal} (h : l.WellFormed enums leaf)
    (hno : NoInfinity l.floats) : none ∉ l.tokens := by
  induction h with
  | @scalar s hs => simpa [tokens] using (Scalar.token?_ne_none hno).symm
  | @array items h ih =>
    have hitems : none ∉ separated .comma (itemTokens items) := by
      rw [itemTokens_eq]
      refine none_notMem_separated fun ts hts ↦ ?_
      obtain ⟨item, hitem, rfl⟩ := List.mem_map.1 hts
      exact ih item hitem fun x hx ↦ hno x (mem_itemFloats.2 ⟨item, hitem, hx⟩)
    simpa [tokens] using hitems
  | @dictionary entries hkeys hascending h ih =>
    have hentries : none ∉ separated .comma (entryTokens entries) := by
      rw [entryTokens_eq]
      refine none_notMem_separated fun ts hts ↦ ?_
      obtain ⟨e, he, rfl⟩ := List.mem_map.1 hts
      simpa using ih e he fun x hx ↦ hno x (mem_entryFloats.2 ⟨e, he, hx⟩)
    simpa [tokens] using hentries

theorem Member.none_notMem_listTokens {members : List Member} (h : ∀ m ∈ members, none ∉ m.tokens) :
    none ∉ listTokens members := by
  induction members with
  | nil => simp [listTokens]
  | cons m members ih =>
    rw [List.forall_mem_cons] at h
    rw [listTokens, List.mem_append]
    exact not_or.2 ⟨h.1, ih h.2⟩

theorem Member.none_notMem_tokens {m : Member} (h : m.WellFormed enums)
    (hno : NoInfinity m.floats) : none ∉ m.tokens := by
  induction h with
  | property hname htype hshape hkeyword h =>
    simpa [tokens] using Literal.none_notMem_tokens h hno
  | @function name line f hname h =>
    have hplain : none ∉ f.tokens := fun hnone ↦ (f.allPlain_tokens none hnone).1 rfl
    simpa [tokens] using hplain
  | frame hname hclass h ih =>
    simpa [tokens] using none_notMem_listTokens fun m hm ↦
      ih m hm fun x hx ↦ hno x (mem_listFloats.2 ⟨m, hm, hx⟩)

theorem Frame.none_notMem_tokens {f : Frame} (h : f.WellFormed enums)
    (hno : NoInfinity f.floats) : none ∉ f.tokens := by
  simpa [tokens] using Member.none_notMem_listTokens fun m hm ↦
    Member.none_notMem_tokens (h.members m hm) fun x hx ↦
      hno x (Member.mem_listFloats.2 ⟨m, hm, hx⟩)

theorem exists_map_some {tokens : WrittenTokens} (h : none ∉ tokens) :
    ∃ ts : List FrameToken, tokens = ts.map some := by
  induction tokens with
  | nil => exact ⟨[], rfl⟩
  | cons t tokens ih =>
    rw [List.mem_cons, not_or] at h
    obtain ⟨ts, hts⟩ := ih h.2
    cases t with
    | none => exact absurd rfl h.1
    | some token => exact ⟨token :: ts, by rw [hts, List.map_cons]⟩

/-- What is put together is all that was given. -/
theorem FrameTokens.foldr_put_map (ts : List FrameToken) :
    (ts.map some).foldr put (some []) = some ts := by
  induction ts with
  | nil => rfl
  | cons t ts ih =>
    rw [List.map_cons, List.foldr_cons, ih]
    rfl

theorem FrameTokens.eq_map_of_foldr_put {tokens : WrittenTokens} {ts : List FrameToken}
    (h : tokens.foldr put (some []) = some ts) : tokens = ts.map some := by
  induction tokens generalizing ts with
  | nil =>
    cases h
    rfl
  | cons t tokens ih =>
    rw [List.foldr_cons] at h
    cases htokens : tokens.foldr put (some []) with
    | none =>
      rw [htokens] at h
      cases t <;> cases h
    | some us =>
      rw [htokens] at h
      cases t with
      | none => cases h
      | some token =>
        cases h
        rw [ih htokens, List.map_cons]

/-! ## The round trip -/

/-- The canonical source of a well-formed frame is read as the frame with other lines, or not at all
if there is an infinity in the frame. -/
theorem Frame.parse_source_of_wellFormed {f : Frame} (h : f.WellFormed enums)
    (hfloats : ∀ x ∈ f.floats, ReadsBack x) :
    (NoInfinity f.floats → ∃ f', parse enums f.source = .ok f' ∧ f'.unlined = f.unlined) ∧
      (¬NoInfinity f.floats → ∃ e, parse enums f.source = .error e) := by
  have hcut := cut_source h hfloats
  unfold FrameTokens.cut at hcut
  cases hscan : FrameTokens.scan {} f.source.toList with
  | error e =>
    have herror : parse enums f.source = .error e := by
      simp [parse, FrameTokens.ofSource, hscan, bind, Except.bind]
    refine ⟨fun hno ↦ ?_, fun _ ↦ ⟨e, herror⟩⟩
    obtain ⟨ts, hts⟩ := exists_map_some (none_notMem_tokens h hno)
    rw [hscan, hts, FrameTokens.foldr_put_map] at hcut
    cases hcut
  | ok scanned =>
    rw [hscan] at hcut
    have hwritten : written scanned.tokens = f.tokens := by
      rw [FrameTokens.eq_map_of_foldr_put hcut.symm, List.map_map]
      rfl
    have hjoin : FrameTokens.joinStrings scanned.tokens = scanned.tokens :=
      FrameTokens.joinStrings_of_spaced (hwritten ▸ spaced_tokens h)
    have hparse : parse enums f.source
        = (FrameParser.root enums scanned.tokens).mapError (ParseError.ofStop scanned.finish) := by
      simp [parse, ofTokens, FrameTokens.ofSource, hscan, hjoin, bind, Except.bind, pure,
        Except.pure]
    obtain ⟨hreads, hfails⟩ := FrameParser.root_tokens h hwritten
    rw [hparse]
    refine ⟨fun hno ↦ ?_, fun hinfinite ↦ ?_⟩
    · obtain ⟨f', hread, heq⟩ := hreads hno
      exact ⟨f', by rw [hread]; rfl, heq⟩
    · obtain ⟨stop, hread⟩ := hfails hinfinite
      exact ⟨ParseError.ofStop scanned.finish stop, by rw [hread]; rfl⟩

/-- A frame that is read from a source is read from its canonical source again, with other lines, if
and only if none of its doubles is an infinity. If one of them is, reading fails. -/
theorem Frame.parse_source {source : String} {f : Frame} (h : parse enums source = .ok f)
    (hfloats : ∀ x ∈ f.floats, ReadsBack x) :
    ((∃ f', parse enums f.source = .ok f' ∧ f'.unlined = f.unlined) ↔
        ∀ x ∈ f.floats, ¬IsInfinite x) ∧
      ((∃ x ∈ f.floats, IsInfinite x) → ∃ e, parse enums f.source = .error e) := by
  obtain ⟨hreads, hfails⟩ := parse_source_of_wellFormed (wellFormed_of_parse h) hfloats
  refine ⟨⟨?_, hreads⟩, ?_⟩
  · rintro ⟨f', hparse, -⟩
    by_contra hinfinite
    obtain ⟨e, herror⟩ := hfails hinfinite
    rw [hparse] at herror
    cases herror
  · rintro ⟨x, hx, hinfinite⟩
    exact hfails fun hno ↦ hno x hx hinfinite

/-- A frame with doubles in a property and inside an array is read again from its canonical
source. -/
theorem Frame.parse_source_probe :
    ∃ f, parse Table.empty "p: Probe \x7b rate: Float 1.5, log: Array [[-2.25], 3] \x7d" = .ok f ∧
      f.floats = [1.5, -2.25] ∧ (∀ x ∈ f.floats, ReadsBack x) ∧
      ((∃ f', parse Table.empty f.source = .ok f' ∧ f'.unlined = f.unlined) ↔
          ∀ x ∈ f.floats, ¬IsInfinite x) ∧
        ((∃ x ∈ f.floats, IsInfinite x) → ∃ e, parse Table.empty f.source = .error e) := by
  have hread : (match parse Table.empty
        "p: Probe \x7b rate: Float 1.5, log: Array [[-2.25], 3] \x7d" with
      | .ok f => some f.floats
      | .error _ => none) = some [1.5, -2.25] := by
    decide +kernel
  split at hread
  · rename_i f hparse
    have hfloats : f.floats = [1.5, -2.25] := Option.some.inj hread
    have hback : ∀ x ∈ f.floats, ReadsBack x := by
      rw [hfloats]
      have htexts : ∀ x ∈ [(1.5 : Float), -2.25],
          Decimal.float? (Decimal.literal x).toList = some x := by
        decide +kernel
      exact fun x hx _ ↦ htexts x hx
    exact ⟨f, hparse, hfloats, hback, parse_source hparse hback⟩
  · cases hread

end ReactiveFrames
