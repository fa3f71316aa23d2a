import ReactiveFrames.Proofs.Frame.Phrases

/-!
# Typed frames

What later passes take for granted of a frame that was read: every member, however deep, holds a
value of the type it is declared with. That no collection holds a function or a frame is in the
types already. The rest is read off the conditions of well-formed frames, which are about words and
tokens and say for every literal separately what is said here of its leaves.

## Main definitions

* `Literal.leaves`: the scalars of a literal at any nesting of arrays and dictionaries.
* `PropertyType.Holds`: the values of a type.
* `Member.WellTyped`, `Frame.WellTyped`: typed members, at every depth.

## Main statements

* `Frame.wellTyped_of_parse`: a frame that is read from a source is well typed.
-/

namespace ReactiveFrames

open FrameGrammar (NamesBuiltIn NamesFunction)
open FrameLexeme (IsWord)

variable {enums : EnumTable}

/-! ## Leaves -/

mutual

/-- Scalars of a literal, in order. -/
def Literal.leaves : Literal → List Scalar
  | .scalar s => [s]
  | .array items => Literal.itemLeaves items
  | .dictionary entries => Literal.entryLeaves entries

/-- Scalars of the items of an array. -/
def Literal.itemLeaves : List Literal → List Scalar
  | [] => []
  | item :: items => item.leaves ++ Literal.itemLeaves items

/-- Scalars of the entries of a dictionary. -/
def Literal.entryLeaves : List (String × Literal) → List Scalar
  | [] => []
  | (_, value) :: entries => value.leaves ++ Literal.entryLeaves entries

end

theorem Literal.mem_itemLeaves {items : List Literal} {s : Scalar} :
    s ∈ itemLeaves items ↔ ∃ item ∈ items, s ∈ item.leaves := by
  induction items with
  | nil => simp [itemLeaves]
  | cons item items ih => simp [itemLeaves, ih]

theorem Literal.mem_entryLeaves {entries : List (String × Literal)} {s : Scalar} :
    s ∈ entryLeaves entries ↔ ∃ e ∈ entries, s ∈ e.2.leaves := by
  induction entries with
  | nil => simp [entryLeaves]
  | cons e entries ih => simp [entryLeaves, ih]

/-- The leaves of a well-formed literal are well-formed. -/
theorem Literal.WellFormed.of_mem_leaves {leaf : Option ScalarType} {value : Literal}
    (h : value.WellFormed enums leaf) : ∀ s ∈ value.leaves, s.WellFormed enums leaf := by
  induction h with
  | scalar h => simpa [leaves] using h
  | array _ ih =>
    intro s hs
    obtain ⟨item, hitem, hs⟩ := mem_itemLeaves.1 hs
    exact ih item hitem s hs
  | dictionary _ _ _ ih =>
    intro s hs
    obtain ⟨e, he, hs⟩ := mem_entryLeaves.1 hs
    exact ih e he s hs

/-! ## Types -/

/-- The type is built in, or an enum type of the table. -/
def ScalarType.Known (enums : EnumTable) : ScalarType → Prop
  | .enum name => (enums.type? name).isSome
  | _ => True

/-- The type is built in, or an enum type of the table. -/
def ValueType.Known (enums : EnumTable) : ValueType → Prop
  | .scalar type => type.Known enums
  | _ => True

theorem ValueType.known_of_means {name : String} {type : ValueType}
    (h : FrameGrammar.Means enums name (.value type)) : type.Known enums := by
  cases h with
  | builtIn h =>
    obtain ⟨hmem, -⟩ := h
    simp only [FrameGrammar.builtIns, List.mem_cons, List.not_mem_nil, or_false] at hmem
    rcases hmem with rfl | rfl | rfl | rfl | rfl | rfl | rfl <;> trivial
  | enum _ h => simp [Known, ScalarType.Known, h]

theorem ValueType.WellFormed.known {type : ValueType} (h : type.WellFormed enums) :
    type.Known enums :=
  ValueType.known_of_means (FrameGrammar.means_iff.2 h.ofName)

/-- An enum member has the value that its type gives it in the table. -/
def Scalar.Registered (enums : EnumTable) : Scalar → Prop
  | .enum type member value => ∃ t, enums.type? type = some t ∧ t.valueOf? member = some value
  | _ => True

/-- Types of the scalars that a collection without a leaf type may hold. -/
def plainTypes : List ScalarType := [.bool, .int, .float, .string]

/-- The scalar may be a leaf where all leaves have a type, or where none is fixed. -/
def Scalar.IsLeaf (leaf : Option ScalarType) (s : Scalar) : Prop :=
  match leaf with
  | some type => s.type = type
  | none => s.type ∈ plainTypes

/-- A well-formed scalar has the type of its place, and an enum member its registered value. -/
theorem Scalar.WellFormed.typed {leaf : Option ScalarType} {s : Scalar}
    (h : s.WellFormed enums leaf) : s.IsLeaf leaf ∧ s.Registered enums := by
  cases s with
  | bool => rcases h with rfl | rfl <;> simp [IsLeaf, Registered, type, plainTypes]
  | int => rcases h.1 with rfl | rfl <;> simp [IsLeaf, Registered, type, plainTypes]
  | float => rcases h.1 with rfl | rfl <;> simp [IsLeaf, Registered, type, plainTypes]
  | string => rcases h with rfl | rfl <;> simp [IsLeaf, Registered, type, plainTypes]
  | url => cases h; simp [IsLeaf, Registered, type]
  | enum name member value =>
    obtain ⟨rfl, -, hvalue⟩ := h
    exact ⟨rfl, Option.bind_eq_some_iff.1 hvalue⟩

/-- The literal is a value of the type: a scalar of it, or a collection all of whose leaves fit. -/
structure PropertyType.Holds (enums : EnumTable) (type : PropertyType) (value : Literal) :
    Prop where
  known : ∀ leaf ∈ type.leaf, leaf.Known enums
  shapes : type.Shapes value
  leaves : ∀ s ∈ value.leaves, s.IsLeaf type.leaf ∧ s.Registered enums

/-! ## Members -/

/-- No dot is in the name, so it is one segment of a path. -/
def IsDotless (name : String) : Prop := '.' ∉ name.toList

/-- No type and no function has the name. -/
structure IsClassName (enums : EnumTable) (name : String) : Prop where
  notBuiltIn : ∀ type, ¬NamesBuiltIn name type
  notEnum : enums.type? name = none
  notFunction : ∀ kind, ¬NamesFunction name kind

/-- Types that a function names: annotations of its arguments and the type of its result. -/
def Function.types : Function → List ValueType
  | .init argument _ => argument.toList.filterMap Argument.annotation
  | .event arguments _ => arguments.filterMap Argument.annotation
  | .listener _ returns _ => [returns]
  | .procedure arguments returns _ => arguments.filterMap Argument.annotation ++ returns.toList

/-- Paths of a listener. -/
def Function.paths : Function → List (List String)
  | .listener arguments _ _ => arguments.map (·.path)
  | _ => []

structure Function.WellTyped (enums : EnumTable) (f : Function) : Prop where
  types : ∀ type ∈ f.types, type.Known enums
  length : ∀ path ∈ f.paths, 2 ≤ path.length
  segments : ∀ path ∈ f.paths, ∀ segment ∈ path, IsDotless segment

/-- A typed member. A nested frame bears the name of its member, and its class is its type. -/
structure Member.WellTyped (enums : EnumTable) (m : Member) : Prop where
  name : IsDotless m.name
  property : ∀ {name line type value}, m = .property name line type value → type.Holds enums value
  function : ∀ f ∈ m.function?, f.WellTyped enums
  frame : ∀ f ∈ m.frame?, f.instanceName = m.name ∧ m.declared = .frame f.className ∧
    IsClassName enums f.className

theorem isDotless_of_isWord {name : String} (h : IsWord name) : IsDotless name := by
  obtain ⟨c, rest, hname, hstart, hrest⟩ := h.exists_cons
  rw [IsDotless, hname, List.mem_cons, not_or]
  constructor
  · rintro rfl
    exact absurd hstart (by decide)
  · intro hmem
    exact absurd (hrest _ hmem) (by decide)

theorem IsClass.isClassName {name : String} (h : IsClass enums name) : IsClassName enums name := by
  cases FrameGrammar.means_iff.2 h.ofName with
  | «class» hbuiltIn henum hfunction => exact ⟨hbuiltIn, henum, hfunction⟩

theorem known_of_annotated {arguments : List Argument}
    (h : ∀ a ∈ arguments, a.WellFormed enums) :
    ∀ type ∈ arguments.filterMap Argument.annotation, type.Known enums := by
  intro type htype
  obtain ⟨a, ha, hannotation⟩ := List.mem_filterMap.1 htype
  have htype := Argument.WellFormed.annotation (h a ha) type hannotation
  exact htype.known

theorem Function.WellFormed.wellTyped {f : Function} (h : f.WellFormed enums) :
    f.WellTyped enums := by
  have hhead := h.head
  cases f with
  | init argument script =>
    refine ⟨known_of_annotated fun a ha ↦ ?_, by simp [paths], by simp [paths]⟩
    exact (hhead.1 a (Option.mem_toList.1 ha)).1
  | event arguments script =>
    exact ⟨known_of_annotated hhead.1, by simp [paths], by simp [paths]⟩
  | listener arguments returns script =>
    obtain ⟨harguments, hreturns⟩ := hhead
    refine ⟨by simpa [types] using hreturns.known, ?_, ?_⟩
    · intro path hpath
      obtain ⟨a, ha, rfl⟩ := List.mem_map.1 hpath
      exact (harguments a ha).length
    · intro path hpath segment hsegment
      obtain ⟨a, ha, rfl⟩ := List.mem_map.1 hpath
      exact isDotless_of_isWord ((harguments a ha).path segment hsegment)
  | procedure arguments returns script =>
    obtain ⟨harguments, hreturns⟩ := hhead
    refine ⟨?_, by simp [paths], by simp [paths]⟩
    intro type htype
    rcases List.mem_append.1 htype with htype | htype
    · exact known_of_annotated harguments type htype
    · obtain rfl := Option.mem_toList.1 htype
      exact hreturns.known

theorem PropertyType.holds_of_wellFormed {type : PropertyType} {value : Literal}
    (htype : type.opening.WellFormed enums) (hshapes : type.Shapes value)
    (h : value.WellFormed enums type.leaf) : type.Holds enums value where
  known := by
    intro leaf hleaf
    have hopening : type.opening = .scalar leaf := by
      cases type with
      | scalar => cases hleaf; rfl
      | array => cases hleaf; rfl
      | dictionary => cases hleaf; rfl
    have hknown := htype.known
    rwa [hopening] at hknown
  shapes := hshapes
  leaves := fun s hs ↦ (h.of_mem_leaves s hs).typed

theorem Member.WellFormed.wellTyped {m : Member} (h : m.WellFormed enums) :
    m.WellTyped enums := by
  cases h with
  | property hname htype hshapes _ h =>
    refine ⟨isDotless_of_isWord hname, ?_, by simp [function?], by simp [frame?]⟩
    rintro _ _ _ _ ⟨⟩
    exact PropertyType.holds_of_wellFormed htype hshapes h
  | function hname h =>
    exact ⟨isDotless_of_isWord hname, by simp, by simpa [function?] using h.wellTyped,
      by simp [frame?]⟩
  | frame hname hclass _ =>
    refine ⟨isDotless_of_isWord hname, by simp, by simp [function?], ?_⟩
    rintro f ⟨⟩
    exact ⟨rfl, rfl, hclass.isClassName⟩

mutual

/-- What lies in a well-formed member is well-formed. -/
theorem Member.WellFormed.of_mem_preorder {m : Member} (h : m.WellFormed enums) (path : String) :
    ∀ p ∈ m.preorder path, p.2.WellFormed enums := by
  match m with
  | .property .. => simpa [Member.preorder] using h
  | .function .. => simpa [Member.preorder] using h
  | .frame name _ _ members =>
    obtain _ | _ | ⟨_, _, hmembers⟩ := id h
    rw [Member.preorder]
    exact List.forall_mem_cons.2 ⟨h, of_mem_preorderList hmembers _⟩

theorem Member.WellFormed.of_mem_preorderList {ms : List Member}
    (h : ∀ m ∈ ms, m.WellFormed enums) (path : String) :
    ∀ p ∈ Member.preorderList path ms, p.2.WellFormed enums := by
  match ms with
  | [] => simp [Member.preorderList]
  | m :: ms =>
    obtain ⟨hm, hms⟩ := List.forall_mem_cons.1 h
    rw [Member.preorderList]
    exact List.forall_mem_append.2 ⟨of_mem_preorder hm path, of_mem_preorderList hms path⟩

end

/-- A frame all of whose members are typed, at every depth. -/
structure Frame.WellTyped (enums : EnumTable) (f : Frame) : Prop where
  name : IsDotless f.instanceName
  isClassName : IsClassName enums f.className
  members : ∀ p ∈ f.preorder, p.2.WellTyped enums

/-- A frame that is read from a source is well typed. -/
theorem Frame.wellTyped_of_parse {source : String} {f : Frame}
    (h : Frame.parse enums source = .ok f) : f.WellTyped enums where
  name := isDotless_of_isWord (Frame.wellFormed_of_parse h).isWord
  isClassName := (Frame.wellFormed_of_parse h).isClass.isClassName
  members := fun p hp ↦
    (Member.WellFormed.of_mem_preorderList (Frame.wellFormed_of_parse h).members _ p hp).wellTyped

theorem Frame.wellTyped_of_parse_palette :
    ∃ f, parse (EnumTable.register Table.empty (EnumType.ofMembers "Tint" [("red", 3)]))
        "p: Probe \x7b q: Pen \x7b tints: Tint [[red], red], width: Float 2 \x7d \x7d" = .ok f ∧
      f.preorder.map (·.1) = ["p.q", "p.q.tints", "p.q.width"] ∧
        f.WellTyped (EnumTable.register Table.empty (EnumType.ofMembers "Tint" [("red", 3)])) := by
  have hread : (match parse
        (EnumTable.register Table.empty (EnumType.ofMembers "Tint" [("red", 3)]))
        "p: Probe \x7b q: Pen \x7b tints: Tint [[red], red], width: Float 2 \x7d \x7d" with
      | .ok f => some (f.preorder.map (·.1))
      | .error _ => none) = some ["p.q", "p.q.tints", "p.q.width"] := by
    decide +kernel
  split at hread
  · rename_i f hparse
    exact ⟨f, hparse, Option.some.inj hread, wellTyped_of_parse hparse⟩
  · cases hread

end ReactiveFrames
