import ReactiveFrames.Proofs.Script.Growth

/-!
# Places of variables

A variable is in the table of a local scope, or in the global table, which every chain of scopes
ends with. The place that a lookup reads is the innermost scope that holds the name, and the global
table if no scope does. A declaration binds the name in the innermost scope, and an assignment binds
it where a lookup would read it. No other variable is touched by either.

## Main definitions

* `Place`, `Heap.binding`: where a variable is, and what is there.
* `Heap.holder`: the place that a lookup reads.
* `Heap.Rooted`: a chain of scopes that exist and lead outwards.
* `Heap.SameVariables`: heaps that differ in arrays and records only.
* `Heap.Assigns`: what an assignment does.

## Main statements

* `Heap.binding_declare`, `Heap.binding_assign`: what a declaration and an assignment bind.
* `Heap.assigns_assign`: an assignment does what it should.
-/

namespace ReactiveFrames.Script

/-- Where a variable can be: in a local scope, or among the global ones. -/
abbrev Place := Option FrameRef

/-- Where the variables of the innermost scope are. -/
def Scope.place (scope : Scope) : Place := scope.head?

namespace Heap

/-- Variables at a place. -/
def bindingsAt (h : Heap) : Place → Table Value
  | none => h.globals
  | some ref => h.locals ref

/-- Value of the variable of a name at a place. -/
def binding (h : Heap) (p : Place) (name : String) : Option Value := (h.bindingsAt p).find? name

/-- There is a variable of the name at the place. -/
def Binds (h : Heap) (p : Place) (name : String) : Prop := (h.binding p name).isSome

/-- The place is a scope that is still to be opened. -/
def Fresh (h : Heap) (p : Place) : Prop := ∃ ref, p = some ref ∧ h.frames.size ≤ ref.index

/-- The innermost of the scopes that holds a variable of the name, or else the global one. -/
def holder (h : Heap) (name : String) (scope : Scope) : Place :=
  scope.find? fun ref ↦ ((h.locals ref).find? name).isSome

/-- The scopes exist, and each was opened after the ones around it. -/
structure Rooted (h : Heap) (scope : Scope) : Prop where
  exist : ∀ ref ∈ scope, ref.index < h.frames.size
  descending : scope.Pairwise fun inner outer ↦ outer.index < inner.index

/-- The two heaps differ in arrays and records at most. -/
structure SameVariables (h h' : Heap) : Prop where
  globals : h'.globals = h.globals
  frames : h'.frames = h.frames
  closures : h'.closures = h.closures

variable {h h' h'' : Heap} {name : String} {v : Value} {scope : Scope}

namespace SameVariables

protected theorem refl (h : Heap) : h.SameVariables h := ⟨rfl, rfl, rfl⟩

protected theorem trans (h₁ : h.SameVariables h') (h₂ : h'.SameVariables h'') :
    h.SameVariables h'' :=
  ⟨h₂.globals.trans h₁.globals, h₂.frames.trans h₁.frames, h₂.closures.trans h₁.closures⟩

theorem binding (hh : h.SameVariables h') (p : Place) (x : String) :
    h'.binding p x = h.binding p x := by
  cases p with
  | none => rw [Heap.binding, bindingsAt, hh.globals]; rfl
  | some ref => rw [Heap.binding, bindingsAt, locals, hh.frames]; rfl

end SameVariables

/-! ## Chains of scopes -/

theorem rooted_nil (h : Heap) : h.Rooted [] := ⟨fun _ hr ↦ absurd hr List.not_mem_nil, .nil⟩

theorem Rooted.mono (hs : h.Rooted scope) (hsize : h.frames.size ≤ h'.frames.size) :
    h'.Rooted scope :=
  ⟨fun ref hr ↦ Nat.lt_of_lt_of_le (hs.exist ref hr) hsize, hs.descending⟩

theorem Rooted.openScope (hs : h.Rooted scope) :
    (h.openScope scope).2.Rooted (h.openScope scope).1 where
  exist ref hr := by
    rw [Heap.openScope, Array.size_push]
    rcases List.mem_cons.1 hr with rfl | hr
    · exact Nat.lt_succ_self _
    · exact Nat.lt_succ_of_lt (hs.exist ref hr)
  descending := List.pairwise_cons.2 ⟨hs.exist, hs.descending⟩

theorem fresh_place_openScope (h : Heap) (scope : Scope) :
    h.Fresh (h.openScope scope).1.place :=
  ⟨⟨h.frames.size⟩, rfl, Nat.le_refl _⟩

/-! ## Reading -/

/-- A lookup reads the place that holds the name. -/
theorem lookup_eq_binding (h : Heap) (name : String) (scope : Scope) :
    h.lookup name scope = h.binding (h.holder name scope) name := by
  induction scope with
  | nil => rfl
  | cons ref outer ih =>
    rw [lookup, holder, List.find?_cons]
    cases href : (h.locals ref).find? name with
    | some v => exact href.symm
    | none => exact ih

/-- Where the innermost scope holds the name, a lookup reads it there. -/
theorem lookup_of_place (hv : h.binding scope.place name = some v) :
    h.lookup name scope = some v := by
  cases scope with
  | nil => exact hv
  | cons ref outer =>
    have hlocal : (h.locals ref).find? name = some v := hv
    rw [lookup, hlocal]

/-- A name that no place holds is unknown. -/
theorem lookup_eq_none (hnone : ∀ p, h.binding p name = none) : h.lookup name scope = none := by
  rw [lookup_eq_binding]
  exact hnone _

/-! ## Writing -/

theorem locals_bindLocal {ref : FrameRef} (href : ref.index < h.frames.size) (other : FrameRef) :
    (h.bindLocal ref name v).locals other
      = if other = ref then (h.locals ref).insert name v else h.locals other := by
  rw [locals, bindLocal, Array.getElem?_modify]
  by_cases heq : other = ref
  · subst heq
    rw [if_pos rfl, if_pos rfl, Array.getElem?_eq_getElem href, locals,
      Array.getElem?_eq_getElem href]
    rfl
  · have hindex : ref.index ≠ other.index := fun hindex ↦ heq (by
      cases other
      cases ref
      cases hindex
      rfl)
    rw [if_neg hindex, if_neg heq, locals]

/-- A variable of an open scope is bound, and no other variable changes. -/
theorem binding_bindLocal {ref : FrameRef} (href : ref.index < h.frames.size) (p : Place)
    (x : String) : (h.bindLocal ref name v).binding p x
      = if p = some ref ∧ x = name then some v else h.binding p x := by
  cases p with
  | none => rw [if_neg fun hp ↦ Option.some_ne_none ref hp.1.symm]; rfl
  | some other =>
    rw [binding, bindingsAt, locals_bindLocal href]
    by_cases heq : other = ref
    · subst heq
      rw [if_pos rfl, Table.find?_insert]
      by_cases hx : x = name
      · rw [if_pos hx, if_pos ⟨rfl, hx⟩]
      · rw [if_neg hx, if_neg fun hp ↦ hx hp.2]
        rfl
    · rw [if_neg heq, if_neg fun hp ↦ heq (Option.some.inj hp.1)]
      rfl

theorem binding_bindGlobal (h : Heap) (name : String) (v : Value) (p : Place) (x : String) :
    (h.bindGlobal name v).binding p x
      = if p = none ∧ x = name then some v else h.binding p x := by
  cases p with
  | some ref => rw [if_neg fun hp ↦ Option.some_ne_none ref hp.1]; rfl
  | none =>
    rw [binding, bindingsAt, bindGlobal, Table.find?_insert]
    by_cases hx : x = name
    · rw [if_pos hx, if_pos ⟨rfl, hx⟩]
    · rw [if_neg hx, if_neg fun hp ↦ hx hp.2]
      rfl

/-- A declaration binds the name in the innermost scope. -/
theorem binding_declare (hs : h.Rooted scope) (name : String) (v : Value) (p : Place) (x : String) :
    (h.declare name v scope).binding p x
      = if p = scope.place ∧ x = name then some v else h.binding p x := by
  cases scope with
  | nil => exact binding_bindGlobal h name v p x
  | cons ref outer => exact binding_bindLocal (hs.exist ref List.mem_cons_self) p x

/-- A scope that holds a name is open. -/
theorem lt_size_of_isSome {ref : FrameRef} (hv : ((h.locals ref).find? name).isSome) :
    ref.index < h.frames.size := by
  by_contra hnew
  rw [locals, Array.getElem?_eq_none (Nat.le_of_not_lt hnew)] at hv
  cases hv

/-- An assignment binds the name where a lookup would read it. -/
theorem binding_assign (h : Heap) (name : String) (v : Value) (scope : Scope) (p : Place)
    (x : String) : (h.assign name v scope).binding p x
      = if p = h.holder name scope ∧ x = name then some v else h.binding p x := by
  induction scope with
  | nil => exact binding_bindGlobal h name v p x
  | cons ref outer ih =>
    rw [assign, holder, List.find?_cons]
    by_cases href : ((h.locals ref).find? name).isSome
    · rw [if_pos href, href]
      exact binding_bindLocal (lt_size_of_isSome href) p x
    · rw [if_neg href, Bool.eq_false_iff.2 href]
      exact ih

theorem frames_bindLocal (h : Heap) (ref : FrameRef) (name : String) (v : Value) :
    (h.bindLocal ref name v).frames.size = h.frames.size := by
  rw [bindLocal, Array.size_modify]

theorem frames_declare (h : Heap) (name : String) (v : Value) (scope : Scope) :
    (h.declare name v scope).frames.size = h.frames.size := by
  cases scope with
  | nil => rfl
  | cons ref outer => exact h.frames_bindLocal ref name v

theorem frames_assign (h : Heap) (name : String) (v : Value) (scope : Scope) :
    (h.assign name v scope).frames.size = h.frames.size := by
  induction scope with
  | nil => rfl
  | cons ref outer ih =>
    rw [assign]
    split
    · exact h.frames_bindLocal ref name v
    · exact ih

/-- The place that an assignment binds is the one that a lookup reads afterwards. -/
theorem lookup_assign (h : Heap) (name : String) (v : Value) (scope : Scope) :
    (h.assign name v scope).lookup name scope = some v := by
  induction scope with
  | nil => exact (binding_bindGlobal h name v none name).trans (if_pos ⟨rfl, rfl⟩)
  | cons ref outer ih =>
    rw [assign]
    by_cases href : ((h.locals ref).find? name).isSome
    · rw [if_pos href]
      exact lookup_of_place
        ((binding_bindLocal (lt_size_of_isSome href) _ _).trans (if_pos ⟨rfl, rfl⟩))
    · have hnone : h.binding (some ref) name = none := Option.not_isSome_iff_eq_none.1 href
      have hother : some ref ≠ h.holder name outer := by
        intro hholder
        have hholds := List.find?_some (p := fun ref ↦ ((h.locals ref).find? name).isSome)
          hholder.symm
        exact href hholds
      -- The assignment goes further out, so the scope still does not hold the name.
      have hstill : ((h.assign name v outer).locals ref).find? name = none :=
        (binding_assign h name v outer (some ref) name).trans
          ((if_neg fun hp ↦ hother hp.1).trans hnone)
      rw [if_neg href, lookup, hstill]
      exact ih

/-- The value has been assigned to the name: it is where a lookup reads the name, in the innermost
scope that holds it or else among the global variables, and no other variable has changed. -/
structure Assigns (h h' : Heap) (name : String) (v : Value) (scope : Scope) : Prop where
  read : h.lookup name scope = h.binding (h.holder name scope) name
  global : h.holder name scope = none ↔ ∀ ref ∈ scope, ¬h.Binds (some ref) name
  lookup : h'.lookup name scope = some v
  assigned : h'.binding (h.holder name scope) name = some v
  others : ∀ p x, ¬(p = h.holder name scope ∧ x = name) → h'.binding p x = h.binding p x

theorem assigns_assign (h : Heap) (name : String) (v : Value) (scope : Scope) :
    h.Assigns (h.assign name v scope) name v scope where
  read := h.lookup_eq_binding name scope
  global := List.find?_eq_none
  lookup := h.lookup_assign name v scope
  assigned := (h.binding_assign name v scope _ _).trans (if_pos ⟨rfl, rfl⟩)
  others p x hp := (h.binding_assign name v scope p x).trans (if_neg hp)

/-- Opening a scope binds nothing. -/
theorem binding_openScope (h : Heap) (scope : Scope) (p : Place) (x : String) :
    (h.openScope scope).2.binding p x = h.binding p x := by
  cases p with
  | none => rfl
  | some ref =>
    rw [binding, bindingsAt, locals, openScope, Array.getElem?_push]
    split
    · next hindex =>
      rw [binding, bindingsAt, locals, Array.getElem?_eq_none hindex.ge]
      rfl
    · rfl

theorem frames_openScope (h : Heap) (scope : Scope) :
    h.frames.size ≤ (h.openScope scope).2.frames.size := by
  rw [openScope, Array.size_push]
  exact Nat.le_succ _

end Heap

end ReactiveFrames.Script
