import ReactiveFrames.Proofs.Frame.WellFormed

/-!
# Tokens of canonical source

The tokens that the canonical source of a well-formed frame is cut into. They are written down
beside the source, one list for every function that writes source, and the two are shown to belong
together. An infinity is the exception: its text is the word `inf`, and with a minus sign no text of
tokens.

That a finite double is read back from its text is a premise here, for the doubles of the frame.

## Main definitions

* `Frame.floats`: the doubles of a frame.
* `Frame.tokens`: the tokens of its canonical source.

## Main statements

* `Frame.cut_source`: the canonical source of a frame is cut into its tokens.
-/

namespace ReactiveFrames

open FrameLexeme (Closes ClosesNumber IsWord)
open FrameTokens (cut put)

/-! ## Doubles -/

namespace Decimal

/-- The double is a real number. -/
def IsFinite (x : Float) : Prop := ∃ negative m e, Binary.ofFloat x = .finite negative m e

/-- The double is an infinity. -/
def IsInfinite (x : Float) : Prop := ∃ negative, Binary.ofFloat x = .infinite negative

/-- The text of the double is read as the double, if it is a real number. -/
def ReadsBack (x : Float) : Prop := IsFinite x → float? (literal x).toList = some x

end Decimal

open Decimal (ReadsBack)

/-- Doubles of a scalar. -/
def Scalar.floats : Scalar → List Float
  | float x => [x]
  | _ => []

mutual

/-- Doubles of a literal. -/
def Literal.floats : Literal → List Float
  | .scalar s => s.floats
  | .array items => Literal.itemFloats items
  | .dictionary entries => Literal.entryFloats entries

/-- Doubles of the items of an array. -/
def Literal.itemFloats : List Literal → List Float
  | [] => []
  | item :: items => item.floats ++ Literal.itemFloats items

/-- Doubles of the entries of a dictionary. -/
def Literal.entryFloats : List (String × Literal) → List Float
  | [] => []
  | (_, value) :: entries => value.floats ++ Literal.entryFloats entries

end

mutual

/-- Doubles of a member. -/
def Member.floats : Member → List Float
  | .property _ _ _ value => value.floats
  | .function .. => []
  | .frame _ _ _ members => Member.listFloats members

/-- Doubles of the members of a frame. -/
def Member.listFloats : List Member → List Float
  | [] => []
  | m :: ms => m.floats ++ Member.listFloats ms

end

/-- Doubles of a frame, those of nested frames among them. -/
def Frame.floats (f : Frame) : List Float := Member.listFloats f.members

theorem Literal.mem_itemFloats {items : List Literal} {x : Float} :
    x ∈ itemFloats items ↔ ∃ item ∈ items, x ∈ item.floats := by
  induction items with
  | nil => simp [itemFloats]
  | cons item items ih => simp [itemFloats, ih]

theorem Literal.mem_entryFloats {entries : List (String × Literal)} {x : Float} :
    x ∈ entryFloats entries ↔ ∃ e ∈ entries, x ∈ e.2.floats := by
  induction entries with
  | nil => simp [entryFloats]
  | cons e entries ih => simp [entryFloats, ih]

theorem Member.mem_listFloats {members : List Member} {x : Float} :
    x ∈ listFloats members ↔ ∃ m ∈ members, x ∈ m.floats := by
  induction members with
  | nil => simp [listFloats]
  | cons m members ih => simp [listFloats, ih]

/-! ## Tokens -/

/-- Tokens of a text, where `none` stands for a character with which no token starts. -/
abbrev WrittenTokens := List (Option FrameToken)

/-- Lists of tokens with a symbol between them. -/
def separated (s : FrameSymbol) : List WrittenTokens → WrittenTokens
  | [] => []
  | first :: more => first ++ more.flatMap (some (.symbol s) :: ·)

/-- Token of a scalar. -/
def Scalar.token? : Scalar → Option FrameToken
  | bool b => some (.bool b)
  | int i => some (.int i)
  | float x =>
    match Decimal.Binary.ofFloat x with
    | .infinite true => none
    | .infinite false => some (.word "inf")
    | _ => some (.float x)
  | string s => some (.string s)
  | url s => some (.string s)
  | enum _ member _ => some (.word member)

mutual

/-- Tokens of a literal. -/
def Literal.tokens : Literal → WrittenTokens
  | .scalar s => [s.token?]
  | .array items =>
    some (.symbol .openBracket) :: separated .comma (Literal.itemTokens items) ++
      [some (.symbol .closeBracket)]
  | .dictionary entries =>
    some (.symbol .openBrace) :: separated .comma (Literal.entryTokens entries) ++
      [some (.symbol .closeBrace)]

/-- Tokens of the items of an array. -/
def Literal.itemTokens : List Literal → List WrittenTokens
  | [] => []
  | item :: items => item.tokens :: Literal.itemTokens items

/-- Tokens of the entries of a dictionary. -/
def Literal.entryTokens : List (String × Literal) → List WrittenTokens
  | [] => []
  | (key, value) :: entries =>
    (some (.word key) :: some (.symbol .colon) :: value.tokens) :: Literal.entryTokens entries

end

/-- Tokens of an argument. -/
def Argument.tokens (a : Argument) : WrittenTokens :=
  match a.annotation with
  | some type => [some (.word a.name), some (.symbol .colon), some (.word type.keyword)]
  | none => [some (.word a.name)]

/-- Tokens of an argument of a listener. -/
def PathArgument.tokens (a : PathArgument) : WrittenTokens :=
  some (.word a.name) :: some (.symbol .colon) ::
    separated .dot (a.path.map fun segment ↦ [some (.word segment)])

/-- Tokens of a list of arguments. -/
def argumentTokens (arguments : List WrittenTokens) : WrittenTokens :=
  some (.symbol .openParen) :: separated .comma arguments ++ [some (.symbol .closeParen)]

/-- Type that stands before the keyword of a function. -/
def Function.returns? : Function → Option ValueType
  | listener _ returns _ => some returns
  | procedure _ returns _ => returns
  | _ => none

/-- Tokens of the arguments of a function. -/
def Function.argumentTokens : Function → WrittenTokens
  | init none _ => []
  | init (some a) _ => ReactiveFrames.argumentTokens ([a].map Argument.tokens)
  | event arguments _ => ReactiveFrames.argumentTokens (arguments.map Argument.tokens)
  | listener arguments _ _ => ReactiveFrames.argumentTokens (arguments.map PathArgument.tokens)
  | procedure arguments _ _ => ReactiveFrames.argumentTokens (arguments.map Argument.tokens)

/-- Tokens of a function. -/
def Function.tokens (f : Function) : WrittenTokens :=
  (f.returns?.toList.map fun type ↦ some (.word type.keyword)) ++
    some (.word f.kind.keyword) :: f.argumentTokens ++ [some (.text f.script)]

mutual

/-- Tokens of a member. -/
def Member.tokens : Member → WrittenTokens
  | .property name _ type value =>
    some (.word name) :: some (.symbol .colon) :: some (.word type.keyword) :: value.tokens
  | .function name _ f => some (.word name) :: some (.symbol .colon) :: f.tokens
  | .frame name _ className members =>
    some (.word name) :: some (.symbol .colon) :: some (.word className) ::
      some (.symbol .openBrace) :: Member.listTokens members ++ [some (.symbol .closeBrace)]

/-- Tokens of the members of a frame. -/
def Member.listTokens : List Member → WrittenTokens
  | [] => []
  | m :: ms => m.tokens ++ Member.listTokens ms

end

/-- Tokens of the canonical source of a frame. -/
def Frame.tokens (f : Frame) : WrittenTokens :=
  some (.word f.instanceName) :: some (.symbol .colon) :: some (.word f.className) ::
    some (.symbol .openBrace) :: Member.listTokens f.members ++ [some (.symbol .closeBrace)]

/-! ## Scalars and literals -/

theorem toList_intercalate_cons (separator text : String) (texts : List String) :
    (separator.intercalate (text :: texts)).toList
      = text.toList ++ texts.flatMap fun t ↦ separator.toList ++ t.toList := by
  induction texts generalizing text with
  | nil => simp
  | cons t texts ih =>
    rw [String.intercalate_cons_cons]
    simp [ih]

/-- A list of texts with separators is cut into the tokens of the texts with the symbol of the
separator between them, if what ends a text may be the separator. -/
theorem cut_intercalate {α : Type} {ends : List Char → Prop} {separator : String} {s : FrameSymbol}
    (hends : ∀ tail, ends (separator.toList ++ tail))
    (hcut : ∀ tail, cut (separator.toList ++ tail) = put (some (.symbol s)) (cut tail))
    {source : α → String} {tokens : α → WrittenTokens} {as : List α}
    (h : ∀ a ∈ as, ∀ tail, ends tail →
      cut ((source a).toList ++ tail) = (tokens a).foldr put (cut tail))
    {tail : List Char} (htail : ends tail) :
    cut ((separator.intercalate (as.map source)).toList ++ tail)
      = (separated s (as.map tokens)).foldr put (cut tail) := by
  cases as with
  | nil => simp [separated]
  | cons a as =>
    rw [List.forall_mem_cons] at h
    obtain ⟨ha, has⟩ := h
    have hmore : ends ((as.map source).flatMap (fun t ↦ separator.toList ++ t.toList) ++ tail) ∧
        cut ((as.map source).flatMap (fun t ↦ separator.toList ++ t.toList) ++ tail)
          = ((as.map tokens).flatMap (some (.symbol s) :: ·)).foldr put (cut tail) := by
      induction as with
      | nil => exact ⟨htail, rfl⟩
      | cons b as ih =>
        rw [List.forall_mem_cons] at has
        obtain ⟨hend, hrest⟩ := ih has.2
        simp only [List.map_cons, List.flatMap_cons, List.append_assoc, List.foldr_append,
          List.foldr_cons, List.cons_append]
        exact ⟨hends _, by rw [hcut, has.1 _ hend, hrest]⟩
    rw [List.map_cons, List.map_cons, toList_intercalate_cons, separated, List.append_assoc,
      List.foldr_append, ha _ hmore.1, hmore.2]

/-- A text is cut into tokens before every text with which no number goes on. -/
def Cuts (source : String) (tokens : WrittenTokens) : Prop :=
  ∀ tail, ClosesNumber tail → cut (source.toList ++ tail) = tokens.foldr put (cut tail)

theorem closesNumber_cons {c : Char}
    (h : FrameLexeme.continuesWord c = false ∧ c ≠ '.') (rest : List Char) :
    ClosesNumber (c :: rest) := by
  rintro _ ⟨⟩
  exact h

theorem closes_cons {c : Char} (h : FrameLexeme.continuesWord c = false) (rest : List Char) :
    Closes (c :: rest) := by
  rintro _ ⟨⟩
  exact h

/-- Commas separate texts that end before a comma. -/
theorem cuts_commas {α : Type} {source : α → String} {tokens : α → WrittenTokens} {as : List α}
    (h : ∀ a ∈ as, Cuts (source a) (tokens a)) :
    Cuts (", ".intercalate (as.map source)) (separated .comma (as.map tokens)) := by
  intro tail htail
  refine cut_intercalate (fun rest ↦ ?_) (fun rest ↦ ?_) h htail
  · exact closesNumber_cons (by decide) _
  · change cut (',' :: ' ' :: rest) = _
    rw [FrameTokens.cut_symbol .comma ',' rfl, FrameTokens.cut_blank (by decide)]

theorem Decimal.literal_of_infinite {x : Float} {negative : Bool}
    (h : Binary.ofFloat x = .infinite negative) : literal x = withSign negative "inf" := by
  simp [literal, plain, h]

variable {enums : EnumTable} {leaf : Option ScalarType}

theorem Scalar.cuts_source {s : Scalar} (h : s.WellFormed enums leaf)
    (hfloats : ∀ x ∈ s.floats, ReadsBack x) : Cuts s.source [s.token?] := by
  intro tail htail
  cases s with
  | bool b => exact FrameTokens.cut_bool b htail.closes
  | int i => exact FrameTokens.cut_int h.2.1 h.2.2 htail
  | float x =>
    have hread : ReadsBack x := hfloats x (by simp [floats])
    cases hx : Decimal.Binary.ofFloat x with
    | nan => exact absurd hx h.2
    | infinite negative =>
      have htext := Decimal.literal_of_infinite hx
      cases negative with
      | true =>
        simp only [token?, hx, source, htext]
        exact FrameTokens.cut_negativeInfinity tail
      | false =>
        simp only [token?, hx, source, htext]
        exact FrameTokens.cut_word (by decide : IsWord "inf") htail.closes
    | finite negative m e =>
      simp only [token?, hx]
      exact FrameTokens.cut_float hx (hread ⟨negative, m, e, hx⟩) htail.closes
  | string s => exact FrameTokens.cut_string s tail
  | url s => exact FrameTokens.cut_string s tail
  | enum type member value => exact FrameTokens.cut_word h.2.1 htail.closes

theorem Literal.itemSources_eq (items : List Literal) : itemSources items = items.map source := by
  induction items with
  | nil => rfl
  | cons item items ih => rw [itemSources, ih, List.map_cons]

theorem Literal.itemTokens_eq (items : List Literal) : itemTokens items = items.map tokens := by
  induction items with
  | nil => rfl
  | cons item items ih => rw [itemTokens, ih, List.map_cons]

theorem Literal.entrySources_eq (entries : List (String × Literal)) :
    entrySources entries = entries.map fun e ↦ e.1 ++ ": " ++ e.2.source := by
  induction entries with
  | nil => rfl
  | cons e entries ih => rw [entrySources, ih, List.map_cons]

theorem Literal.entryTokens_eq (entries : List (String × Literal)) :
    entryTokens entries
      = entries.map fun e ↦ some (.word e.1) :: some (.symbol .colon) :: e.2.tokens := by
  induction entries with
  | nil => rfl
  | cons e entries ih => rw [entryTokens, ih, List.map_cons]

/-- A word, a colon and a text are cut into the word, the colon and the tokens of the text. -/
theorem cut_named {name : String} (hname : IsWord name) (rest : List Char) :
    cut (name.toList ++ ':' :: ' ' :: rest)
      = put (some (.word name)) (put (some (.symbol .colon)) (cut rest)) := by
  rw [FrameTokens.cut_word hname (closes_cons (by decide) _), FrameTokens.cut_symbol .colon ':' rfl,
    FrameTokens.cut_blank (by decide)]

theorem Literal.cuts_source {l : Literal} (h : l.WellFormed enums leaf)
    (hfloats : ∀ x ∈ l.floats, ReadsBack x) : Cuts l.source l.tokens := by
  induction h with
  | scalar hs => exact Scalar.cuts_source hs hfloats
  | @array items h ih =>
    intro tail htail
    have hitems : Cuts (", ".intercalate (items.map source))
        (separated .comma (items.map tokens)) :=
      cuts_commas fun item hitem ↦ ih item hitem fun x hx ↦
        hfloats x (mem_itemFloats.2 ⟨item, hitem, hx⟩)
    rw [source, tokens, itemSources_eq, itemTokens_eq]
    simp only [String.toList_append, List.append_assoc, List.foldr_append, List.foldr_cons,
      List.foldr_nil, List.cons_append]
    change cut ('[' :: (_ ++ ']' :: tail)) = _
    rw [FrameTokens.cut_symbol .openBracket '[' rfl, hitems _ (closesNumber_cons (by decide) _),
      FrameTokens.cut_symbol .closeBracket ']' rfl]
  | @dictionary entries hkeys hascending h ih =>
    intro tail htail
    have hentries : Cuts (", ".intercalate (entries.map fun e ↦ e.1 ++ ": " ++ e.2.source))
        (separated .comma
          (entries.map fun e ↦ some (.word e.1) :: some (.symbol .colon) :: e.2.tokens)) := by
      refine cuts_commas fun e he rest hrest ↦ ?_
      have hvalue := ih e he (fun x hx ↦ hfloats x (mem_entryFloats.2 ⟨e, he, hx⟩)) rest hrest
      simp only [String.toList_append, List.append_assoc, List.foldr_cons]
      rw [← hvalue]
      exact cut_named (hkeys e he) _
    rw [source, tokens, entrySources_eq, entryTokens_eq]
    simp only [String.toList_append, List.append_assoc, List.foldr_append, List.foldr_cons,
      List.foldr_nil, List.cons_append]
    change cut ('\x7b' :: (_ ++ '\x7d' :: tail)) = _
    rw [FrameTokens.cut_symbol .openBrace '\x7b' rfl, hentries _ (closesNumber_cons (by decide) _),
      FrameTokens.cut_symbol .closeBrace '\x7d' rfl]

/-! ## Functions -/

theorem Argument.cuts_source {a : Argument} (h : a.WellFormed enums) : Cuts a.source a.tokens := by
  intro tail htail
  obtain ⟨name, annotation⟩ := a
  cases annotation with
  | none => exact FrameTokens.cut_word h.isWord htail.closes
  | some type =>
    have htype : IsWord type.keyword := (h.annotation type rfl).isWord
    simp only [source, tokens, String.toList_append, List.append_assoc, List.foldr_cons,
      List.foldr_nil]
    rw [← FrameTokens.cut_word htype htail.closes]
    exact cut_named h.isWord _

theorem PathArgument.cuts_source {a : PathArgument} (h : a.WellFormed) :
    Cuts a.source a.tokens := by
  intro tail htail
  have hends (rest : List Char) : Closes (".".toList ++ rest) := closes_cons (by decide) rest
  have hpath : cut ((".".intercalate (a.path.map id)).toList ++ tail)
      = (separated .dot (a.path.map fun segment ↦ [some (.word segment)])).foldr put (cut tail) :=
    cut_intercalate hends (FrameTokens.cut_symbol .dot '.' rfl)
      (fun segment hsegment rest hrest ↦ FrameTokens.cut_word (h.path segment hsegment) hrest)
      htail.closes
  rw [List.map_id] at hpath
  simp only [source, tokens, String.toList_append, List.append_assoc, List.foldr_cons]
  rw [← hpath]
  exact cut_named h.isWord _

theorem cut_argumentList {α : Type} {source : α → String} {tokens : α → WrittenTokens} {as : List α}
    (h : ∀ a ∈ as, Cuts (source a) (tokens a)) (tail : List Char) :
    cut ((argumentList (as.map source)).toList ++ tail)
      = (argumentTokens (as.map tokens)).foldr put (cut tail) := by
  simp only [argumentList, argumentTokens, String.toList_append, List.append_assoc,
    List.foldr_append, List.foldr_cons, List.foldr_nil, List.cons_append]
  change cut ('(' :: (_ ++ ')' :: tail)) = _
  rw [FrameTokens.cut_symbol .openParen '(' rfl, cuts_commas h _ (closesNumber_cons (by decide) _),
    FrameTokens.cut_symbol .closeParen ')' rfl]

theorem cut_bodySource {script : String} (h : FrameLexeme.IsScript script) (tail : List Char) :
    cut ((bodySource script).toList ++ tail) = put (some (.text script)) (cut tail) := by
  simp only [bodySource, String.toList_append, List.append_assoc]
  change cut (' ' :: '%' :: '\x7b' :: (script.toList ++ '%' :: '\x7d' :: tail)) = _
  rw [FrameTokens.cut_blank (by decide)]
  exact FrameTokens.cut_script h tail

/-- A keyword, arguments and a body. -/
theorem cut_signature {α : Type} {source : α → String} {tokens : α → WrittenTokens} {as : List α}
    {keyword script : String} (hkeyword : IsWord keyword)
    (h : ∀ a ∈ as, Cuts (source a) (tokens a)) (hscript : FrameLexeme.IsScript script)
    (tail : List Char) :
    cut (keyword.toList ++ ((argumentList (as.map source)).toList
        ++ ((bodySource script).toList ++ tail)))
      = put (some (.word keyword)) ((argumentTokens (as.map tokens)).foldr put
          (put (some (.text script)) (cut tail))) := by
  have hopen : Closes ((argumentList (as.map source)).toList
      ++ ((bodySource script).toList ++ tail)) := by
    simp only [argumentList, String.toList_append, List.append_assoc]
    exact closes_cons (c := '(') (by decide) _
  rw [FrameTokens.cut_word hkeyword hopen, cut_argumentList h, cut_bodySource hscript]

/-- A type of a result before the keyword of a function. -/
theorem cut_returns {type : ValueType} (h : type.WellFormed enums) (rest : List Char) :
    cut (type.keyword.toList ++ ' ' :: rest) = put (some (.word type.keyword)) (cut rest) := by
  rw [FrameTokens.cut_word h.isWord (closes_cons (c := ' ') (by decide) _),
    FrameTokens.cut_blank (by decide)]

theorem Function.cut_declaration {f : Function} (h : f.WellFormed enums) (tail : List Char) :
    cut (f.declaration.toList ++ tail) = f.tokens.foldr put (cut tail) := by
  obtain ⟨hhead, hscript⟩ := h
  have hargument : ∀ a : Argument, a.WellFormed enums → Cuts a.source a.tokens :=
    fun _ ↦ Argument.cuts_source
  cases f with
  | init argument script =>
    cases argument with
    | none =>
      have hclose : Closes ((bodySource script).toList ++ tail) := by
        simp only [bodySource, String.toList_append, List.append_assoc]
        exact closes_cons (c := ' ') (by decide) _
      rw [declaration, String.toList_append, List.append_assoc,
        FrameTokens.cut_word (by decide : IsWord "Init") hclose]
      exact congrArg _ (cut_bodySource hscript tail)
    | some a =>
      have harguments : ∀ b ∈ [a], Cuts b.source b.tokens := by
        rintro b (_ | ⟨_, ⟨⟩⟩)
        exact hargument a (hhead.1 a rfl).1
      simp only [declaration, tokens, String.toList_append, List.append_assoc, List.foldr_append]
      exact cut_signature (by decide : IsWord "Init") harguments hscript tail
  | event arguments script =>
    simp only [declaration, tokens, String.toList_append, List.append_assoc, List.foldr_append]
    exact cut_signature (by decide : IsWord "Event") (fun a ha ↦ hargument a (hhead.1 a ha))
      hscript tail
  | listener arguments returns script =>
    simp only [declaration, tokens, String.toList_append, List.append_assoc, List.foldr_append]
    refine (cut_returns hhead.2 _).trans (congrArg _ ?_)
    exact cut_signature (by decide : IsWord "Listner")
      (fun a ha ↦ PathArgument.cuts_source (hhead.1 a ha)) hscript tail
  | procedure arguments returns script =>
    have harguments : ∀ a ∈ arguments, Cuts a.source a.tokens :=
      fun a ha ↦ hargument a (hhead.1 a ha)
    cases returns with
    | none =>
      simp only [declaration, tokens, String.toList_append, List.append_assoc, List.foldr_append]
      exact cut_signature (by decide : IsWord "Func") harguments hscript tail
    | some type =>
      simp only [declaration, tokens, String.toList_append, List.append_assoc, List.foldr_append]
      refine (cut_returns hhead.2 _).trans (congrArg _ ?_)
      exact cut_signature (by decide : IsWord "Func") harguments hscript tail

/-! ## Members -/

theorem cut_indentation (level : Nat) (rest : List Char) :
    cut ((indentation level).toList ++ rest) = cut rest := by
  unfold indentation
  rw [String.toList_ofList]
  induction 2 * level with
  | zero => rfl
  | succ n ih =>
    rw [List.replicate_succ, List.cons_append, FrameTokens.cut_blank (by decide), ih]

theorem PropertyType.keyword_opening (type : PropertyType) :
    type.opening.keyword = type.keyword := by
  cases type with
  | scalar type => rfl
  | array leaf => cases leaf <;> rfl
  | dictionary leaf => cases leaf <;> rfl

/-- Members one after the other, if each of them is cut into its tokens. -/
theorem Member.cut_listSource {level : Nat} {members : List Member}
    (h : ∀ m ∈ members, ∀ tail,
      cut ((m.source level).toList ++ tail) = m.tokens.foldr put (cut tail)) (tail : List Char) :
    cut ((listSource level members).toList ++ tail)
      = (listTokens members).foldr put (cut tail) := by
  induction members with
  | nil => rfl
  | cons m members ih =>
    rw [List.forall_mem_cons] at h
    rw [listSource, listTokens, String.toList_append, List.append_assoc, h.1, ih h.2,
      List.foldr_append]

theorem cut_newline (rest : List Char) : cut ('\n' :: rest) = cut rest :=
  FrameTokens.cut_blank (by decide) rest

/-- Members of a frame between braces on lines of their own. -/
theorem Member.cut_block {className : String} (hclass : IsWord className) {level : Nat}
    {members : List Member}
    (h : ∀ m ∈ members, ∀ tail,
      cut ((m.source (level + 1)).toList ++ tail) = m.tokens.foldr put (cut tail))
    (tail : List Char) :
    cut (className.toList ++ ' ' :: '\x7b' :: '\n' :: ((listSource (level + 1) members).toList
        ++ ((indentation level).toList ++ '\x7d' :: '\n' :: tail)))
      = put (some (.word className)) (put (some (.symbol .openBrace))
          ((listTokens members).foldr put (put (some (.symbol .closeBrace)) (cut tail)))) := by
  rw [FrameTokens.cut_word hclass (closes_cons (c := ' ') (by decide) _),
    FrameTokens.cut_blank (by decide), FrameTokens.cut_symbol .openBrace '\x7b' rfl, cut_newline,
    cut_listSource h, cut_indentation, FrameTokens.cut_symbol .closeBrace '\x7d' rfl, cut_newline]

theorem Member.cut_source {m : Member} (h : m.WellFormed enums)
    (hfloats : ∀ x ∈ m.floats, ReadsBack x) (level : Nat) (tail : List Char) :
    cut ((m.source level).toList ++ tail) = m.tokens.foldr put (cut tail) := by
  induction h generalizing level tail with
  | @property name line type value hname htype hshape hkeyword hvalue =>
    have htypeWord : IsWord type.keyword := PropertyType.keyword_opening type ▸ htype.isWord
    simp only [source, tokens, String.toList_append, String.reduceToList, List.append_assoc,
      List.cons_append, List.nil_append, List.foldr_cons]
    rw [cut_indentation, cut_named hname,
      FrameTokens.cut_word htypeWord (closes_cons (by decide) _), FrameTokens.cut_blank (by decide),
      Literal.cuts_source hvalue hfloats _ (closesNumber_cons (by decide) _), cut_newline]
  | @function name line f hname hf =>
    simp only [source, tokens, String.toList_append, String.reduceToList, List.append_assoc,
      List.cons_append, List.nil_append, List.foldr_cons]
    rw [cut_indentation, cut_named hname, Function.cut_declaration hf, cut_newline]
  | @frame name line className members hname hclass h ih =>
    have hmembers : ∀ m ∈ members, ∀ tail,
        cut ((m.source (level + 1)).toList ++ tail) = m.tokens.foldr put (cut tail) :=
      fun m hm ↦ ih m hm (fun x hx ↦ hfloats x (mem_listFloats.2 ⟨m, hm, hx⟩)) (level + 1)
    simp only [source, tokens, String.toList_append, String.reduceToList, List.append_assoc,
      List.cons_append, List.nil_append, List.foldr_cons, List.foldr_append, List.foldr_nil]
    rw [cut_indentation, cut_named hname]
    rw [cut_block hclass.isWord hmembers]

/-- The canonical source of a well-formed frame is cut into its tokens. -/
theorem Frame.cut_source {f : Frame} (h : f.WellFormed enums)
    (hfloats : ∀ x ∈ f.floats, ReadsBack x) :
    cut f.source.toList = f.tokens.foldr put (some []) := by
  have hmembers : ∀ m ∈ f.members, ∀ tail,
      cut ((m.source 1).toList ++ tail) = m.tokens.foldr put (cut tail) :=
    fun m hm ↦ Member.cut_source (h.members m hm)
      (fun x hx ↦ hfloats x (Member.mem_listFloats.2 ⟨m, hm, hx⟩)) 1
  simp only [source, tokens, String.toList_append, String.reduceToList, List.append_assoc,
    List.cons_append, List.nil_append, List.foldr_cons, List.foldr_append, List.foldr_nil]
  have hblock := Member.cut_block h.isClass.isWord hmembers []
  rw [FrameTokens.cut_nil] at hblock
  rw [cut_named h.isWord]
  exact congrArg _ (congrArg _ hblock)

end ReactiveFrames
