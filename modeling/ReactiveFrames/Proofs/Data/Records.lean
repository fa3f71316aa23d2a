import ReactiveFrames.Proofs.Data.Literals
import ReactiveFrames.Proofs.Reactive.Declarations

/-!
# Data frames as records

A frame that declares literals and further such frames is read as a record. It has an entry for the
name of the frame, one for its class and one for each member, in which a literal is a value of its
shape and a nested frame is a record again. A frame that declares a function, at any depth, is no
data, and the first one in the order of declaration is the one that is reported.

## Main definitions

* `Frame.firstFunction?`: name and kind of the first function in a frame.
* `Member.IsData`: a member without functions, where names differ at every depth.
* `Member.Shows`: the value of such a member.

## Main statements

* `Frame.toValue_of_firstFunction?`: a frame with a function cannot be read.
* `Member.IsData.exists_toValue`: data has a value that shows it.
-/

namespace ReactiveFrames

open Script (Heap RecordRef Value)

/-! ## Functions -/

/-- Name and kind of a function member. -/
def Member.functionKind? (m : Member) : Option (String × FunctionKind) :=
  m.function?.map fun f ↦ (m.name, f.kind)

/-- Name and kind of the first function among members and all below them. -/
def Member.firstFunctionIn (ps : List (String × Member)) : Option (String × FunctionKind) :=
  ps.findSome? fun p ↦ p.2.functionKind?

mutual

/-- A member has a value unless it is a function or has one below it; then the first one is the
reason. -/
theorem Member.toValue_cases (path : String) (m : Member) (h : Heap) :
    (Member.firstFunctionIn (m.preorder path) = none ∧ ∃ r, m.toValue h = .ok r) ∨
      ∃ e, Member.firstFunctionIn (m.preorder path) = some e ∧
        m.toValue h = .error (.unsupported e.1 e.2) := by
  match m with
  | .property .. => exact .inl ⟨rfl, _, rfl⟩
  | .function _ _ f => exact .inr ⟨_, rfl, rfl⟩
  | .frame child _ className members =>
    rw [Member.toValue]
    rcases Member.listToValues_cases (path ++ "." ++ child) members
      (initialProperties className child) h with ⟨hnone, r, hr⟩ | ⟨e, he, hr⟩
    · rw [hr]
      exact .inl ⟨hnone, _, rfl⟩
    · rw [hr]
      exact .inr ⟨e, he, rfl⟩

theorem Member.listToValues_cases (path : String) (ms : List Member) (entries : Table Value)
    (h : Heap) :
    (Member.firstFunctionIn (Member.preorderList path ms) = none ∧
        ∃ r, Member.listToValues ms entries h = .ok r) ∨
      ∃ e, Member.firstFunctionIn (Member.preorderList path ms) = some e ∧
        Member.listToValues ms entries h = .error (.unsupported e.1 e.2) := by
  match ms with
  | [] => exact .inl ⟨rfl, _, rfl⟩
  | m :: ms =>
    have happend : Member.firstFunctionIn (Member.preorderList path (m :: ms))
        = (Member.firstFunctionIn (m.preorder path)).or
            (Member.firstFunctionIn (Member.preorderList path ms)) := List.findSome?_append
    rw [happend, Member.listToValues]
    rcases Member.toValue_cases path m h with ⟨hnone, r, hr⟩ | ⟨e, he, hr⟩
    · rw [hnone, Option.none_or, hr]
      exact Member.listToValues_cases path ms _ r.2
    · rw [he, hr]
      exact .inr ⟨e, rfl, rfl⟩

end

/-- Name and kind of the first function in a frame, in the order of declaration. -/
def Frame.firstFunction? (f : Frame) : Option (String × FunctionKind) :=
  Member.firstFunctionIn f.preorder

/-- A frame with a function cannot be read, and the first one is the reason. -/
theorem Frame.toValue_of_firstFunction? {f : Frame} {name : String} {kind : FunctionKind}
    (hf : f.firstFunction? = some (name, kind)) (h : Heap) :
    f.toValue h = .error (.unsupported name kind) := by
  rcases Member.listToValues_cases f.instanceName f.members
    (initialProperties f.className f.instanceName) h with ⟨hnone, -⟩ | ⟨e, he, hr⟩
  · cases hnone.symm.trans hf
  · cases he.symm.trans hf
    rw [Frame.toValue, hr]
    rfl

/-! ## Data -/

/-- A member without functions, all of whose literals are well-formed, and where the members of a
frame differ in name. -/
inductive Member.IsData (enums : EnumTable) : Member → Prop
  | property {name : String} {line : ℕ} {type : PropertyType} {l : Literal}
    {leaf : Option ScalarType} (hl : l.WellFormed enums leaf) :
    IsData enums (.property name line type l)
  | frame {name : String} {line : ℕ} {className : String} {members : List Member}
    (hnames : (members.map Member.name).Nodup) (hmembers : ∀ m ∈ members, IsData enums m) :
    IsData enums (.frame name line className members)

mutual

theorem Member.isData_of_preorder {enums : EnumTable} {path : String} {m : Member}
    (hm : m.WellFormed enums) (hfirst : Member.firstFunctionIn (m.preorder path) = none)
    (hnames : ∀ p ∈ m.preorder path, ∀ g, p.2.frame? = some g → g.NamesDiffer) :
    m.IsData enums := by
  match m with
  | .property .. =>
    cases hm with
    | property _ _ _ _ hl => exact .property hl
  | .function .. => cases hfirst
  | .frame name _ className members =>
    cases hm with
    | frame _ _ hmembers =>
      rw [Member.preorder, List.forall_mem_cons] at hnames
      exact .frame (hnames.1 _ rfl) (Member.isData_of_preorderList hmembers hfirst hnames.2)

theorem Member.isData_of_preorderList {enums : EnumTable} {path : String} {ms : List Member}
    (hms : ∀ m ∈ ms, m.WellFormed enums)
    (hfirst : Member.firstFunctionIn (Member.preorderList path ms) = none)
    (hnames : ∀ p ∈ Member.preorderList path ms, ∀ g, p.2.frame? = some g → g.NamesDiffer) :
    ∀ m ∈ ms, m.IsData enums := by
  match ms with
  | [] => exact fun _ hm ↦ absurd hm List.not_mem_nil
  | m :: ms =>
    have happend : Member.firstFunctionIn (Member.preorderList path (m :: ms))
        = (Member.firstFunctionIn (m.preorder path)).or
            (Member.firstFunctionIn (Member.preorderList path ms)) := List.findSome?_append
    rw [happend, Option.or_eq_none_iff] at hfirst
    rw [List.forall_mem_cons] at hms ⊢
    rw [Member.preorderList, List.forall_mem_append] at hnames
    exact ⟨Member.isData_of_preorder hms.1 hfirst.1 hnames.1,
      Member.isData_of_preorderList hms.2 hfirst.2 hnames.2⟩

end

/-! ## Records -/

/-- In the heap, the value shows the member: a literal by a value of its shape, a frame by a record
of its name, its class and its members. -/
inductive Member.Shows (h : Heap) : Member → Value → Prop
  | property {name : String} {line : ℕ} {type : PropertyType} {l : Literal} {v : Value}
    (hl : l.Shows (fun s v ↦ v = s.toValue) h v) : Shows h (.property name line type l) v
  | frame {name : String} {line : ℕ} {className : String} {members : List Member} {ref : RecordRef}
    {table : Table Value} (hcell : h.records[ref.index]? = some table)
    (hnames : ∀ p, p ∈ table.names ↔
      p ∈ (initialProperties className name).names ∨ p ∈ members.map Member.name)
    (hinitial : ∀ p ∉ members.map Member.name,
      table.find? p = (initialProperties className name).find? p)
    (hmembers : ∀ m ∈ members, ∀ v, table.find? m.name = some v → Shows h m v) :
    Shows h (.frame name line className members) (.record ref)

namespace Member

variable {enums : EnumTable} {h h' : Heap}

theorem Shows.mono {m : Member} {v : Value} (hm : m.Shows h v) (hh : h.Keeps h') :
    m.Shows h' v := by
  induction hm with
  | property hl => exact .property (hl.mono hh)
  | frame hcell hnames hinitial _ ih => exact .frame (hh.records _ _ hcell) hnames hinitial ih

/-- The entries of a record after the values of members have been put to it. -/
structure Fill (ms : List Member) (entries entries' : Table Value) (h h' : Heap) : Prop where
  keeps : h.Keeps h'
  names : ∀ p, p ∈ entries'.names ↔ p ∈ entries.names ∨ p ∈ ms.map Member.name
  others : ∀ p ∉ ms.map Member.name, entries'.find? p = entries.find? p
  shows : ∀ m ∈ ms, ∀ v, entries'.find? m.name = some v → m.Shows h' v

mutual

/-- Data has a value that shows it. -/
theorem IsData.exists_toValue {m : Member} (hm : m.IsData enums) (h : Heap) :
    ∃ v h', m.toValue h = .ok (v, h') ∧ h.Keeps h' ∧ m.Shows h' v := by
  match m with
  | .property _ _ _ l =>
    cases hm with
    | property hl =>
      obtain ⟨hkeeps, hshows⟩ := hl.shows (R := fun s v ↦ v = s.toValue) (fun s _ ↦ rfl) h
      exact ⟨_, _, rfl, hkeeps, .property hshows⟩
  | .function .. => cases hm
  | .frame name _ className members =>
    cases hm with
    | frame hnames hmembers =>
      obtain ⟨entries', h', hrun, hfill⟩ :=
        IsData.exists_listToValues hmembers hnames (initialProperties className name) h
      have hnew := h'.keeps_newRecord entries'
      rw [Member.toValue, hrun]
      refine ⟨_, _, rfl, hfill.keeps.trans hnew, .frame Array.getElem?_push_size hfill.names
        hfill.others fun m hm v hv ↦ (hfill.shows m hm v hv).mono hnew⟩

theorem IsData.exists_listToValues {ms : List Member} (hms : ∀ m ∈ ms, m.IsData enums)
    (hnames : (ms.map Member.name).Nodup) (entries : Table Value) (h : Heap) :
    ∃ entries' h', Member.listToValues ms entries h = .ok (entries', h') ∧
      Fill ms entries entries' h h' := by
  match ms with
  | [] =>
    exact ⟨entries, h, rfl, .refl h, fun p ↦ by simp, fun _ _ ↦ rfl,
      fun _ hm ↦ absurd hm List.not_mem_nil⟩
  | m :: ms =>
    rw [List.forall_mem_cons] at hms
    rw [List.map_cons, List.nodup_cons] at hnames
    obtain ⟨v, h₁, hvalue, hkeeps, hshows⟩ := hms.1.exists_toValue h
    obtain ⟨entries', h', hrun, hfill⟩ :=
      IsData.exists_listToValues hms.2 hnames.2 (entries.insert m.name v) h₁
    refine ⟨entries', h', ?_, hkeeps.trans hfill.keeps, fun p ↦ ?_, fun p hp ↦ ?_, ?_⟩
    · rw [Member.listToValues, hvalue]
      exact hrun
    · rw [hfill.names, Table.mem_names_insert, List.map_cons, List.mem_cons, or_comm (a := p = _),
        or_assoc]
    · rw [List.map_cons, List.mem_cons, not_or] at hp
      rw [hfill.others p hp.2, Table.find?_insert, if_neg hp.1]
    · rw [List.forall_mem_cons]
      refine ⟨fun u hu ↦ ?_, hfill.shows⟩
      rw [hfill.others m.name hnames.1, Table.find?_insert, if_pos rfl] at hu
      cases hu
      exact hshows.mono hfill.keeps

end

end Member

/-- A frame is read as a nested frame of its name is. -/
theorem Frame.toValue_eq (f : Frame) (line : ℕ) (h : Heap) :
    f.toValue h = (Member.frame f.instanceName line f.className f.members).toValue h := rfl

end ReactiveFrames
