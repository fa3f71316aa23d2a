import ReactiveFrames.Proofs.Script.Sites
import ReactiveFrames.Proofs.Script.Variables
import Mathlib.Data.Set.Insert

/-!
# What code does to variables

Code changes variables at its sites only. Given what sites the code on a machine can have, and the
places that it may declare names in, the relation `Heap.Rebinds` says what becomes of the variables:
a variable that was there stays there; a name is new at a place only if a site declares it there, or
assigns it and the place is the global one; and a value is new only if a site of that name gave it.
In particular a function that is declared at the only site of its name keeps its variable.

## Main definitions

* `Heap.Sound`: the code of all closures has sites of a given kind, and their scopes are rooted.
* `Heap.Rebinds`: what may have become of the variables of a heap.
* `Heap.Hoisted`: the innermost scope holds a function, unless a further site has its name.

## Main statements

* `Heap.rebinds_declare`, `Heap.rebinds_assign`, `Heap.rebinds_hoist`: what is done to variables.
-/

namespace ReactiveFrames.Script

/-- Declares the functions of a statement list, on the heap. -/
def Heap.hoist (body : List Stmt) (scope : Scope) (h : Heap) : Heap :=
  body.foldl (fun h s ↦
    match s with
    | .function f =>
      let (closure, h) := h.newClosure ⟨f, scope⟩
      h.declare (f.name.getD "") closure scope
    | _ => h) h

namespace Heap

variable {P : Site → Prop} {S S' : Set Place} {h h' h'' : Heap} {scope : Scope} {name : String}
  {f : FunctionDecl} {v : Value}

/-! ## Sound heaps -/

/-- The scopes of all closures are rooted, and the sites of their code are of the given kind. -/
def Sound (P : Site → Prop) (h : Heap) : Prop :=
  ∀ (n : Nat) (c : Closure), h.closures[n]? = some c →
    h.Rooted c.scope ∧ ∀ s ∈ c.function.sites, P s

/-- The value is a closure of the function. -/
def IsClosureOf (h : Heap) (v : Value) (f : FunctionDecl) : Prop :=
  ∃ ref c, v = .closure ref ∧ h.closures[ref.index]? = some c ∧ c.function = f

theorem IsClosureOf.mono (hv : h.IsClosureOf v f) (hh : h.Extends h') : h'.IsClosureOf v f := by
  obtain ⟨ref, c, rfl, hc, hf⟩ := hv
  exact ⟨ref, c, rfl, hh _ c hc, hf⟩

theorem isClosureOf_newClosure (h : Heap) (f : FunctionDecl) (scope : Scope) :
    (h.newClosure ⟨f, scope⟩).2.IsClosureOf (h.newClosure ⟨f, scope⟩).1 f :=
  ⟨⟨h.closures.size⟩, ⟨f, scope⟩, rfl, by rw [newClosure, Array.getElem?_push_size], rfl⟩

/-- Closures stay sound while no closure is made. -/
theorem Sound.of_closures_eq (hh : h.Sound P) (hsize : h.frames.size ≤ h'.frames.size)
    (hclosures : h'.closures = h.closures) : h'.Sound P := by
  intro n c hc
  rw [hclosures] at hc
  obtain ⟨hrooted, hsites⟩ := hh n c hc
  exact ⟨hrooted.mono hsize, hsites⟩

theorem Sound.newClosure (hh : h.Sound P) (hs : h.Rooted scope) (hf : ∀ s ∈ f.sites, P s) :
    (h.newClosure ⟨f, scope⟩).2.Sound P := by
  intro n c hc
  rw [Heap.newClosure, Array.getElem?_push] at hc
  split at hc
  · cases hc
    exact ⟨hs.mono (Nat.le_refl _), hf⟩
  · obtain ⟨hrooted, hsites⟩ := hh n c hc
    exact ⟨hrooted.mono (Nat.le_refl _), hsites⟩

/-! ## Rebinding -/

/-- The site is one that can give a variable of the name the value. -/
structure Declares (P : Site → Prop) (h : Heap) (x : String) (v : Option Value) (s : Site) :
    Prop where
  allowed : P s
  names : s.Names x
  closure : ∀ f, s = .listed f → ∃ u, v = some u ∧ h.IsClosureOf u f

/-- What may have become of the variables of the one heap in the other one, by code with sites of
the given kind. Names are declared in the places of the set and in scopes that were opened
meanwhile. -/
structure Rebinds (P : Site → Prop) (S : Set Place) (h h' : Heap) : Prop where
  frames : h.frames.size ≤ h'.frames.size
  closures : h.Extends h'
  /-- No variable is lost. -/
  kept : ∀ p x, h.Binds p x → h'.Binds p x
  /-- A name is new where it is declared, or global and assigned. -/
  named : ∀ p x, h'.Binds p x → h.Binds p x ∨ p = none ∧ P (.assigned x) ∨
    (p ∈ S ∨ h.Fresh p) ∧ ∃ s, P s ∧ s.Names x
  /-- A value is assigned, or given where the name is declared. -/
  valued : ∀ p x, h'.binding p x = h.binding p x ∨ P (.assigned x) ∨
    (p ∈ S ∨ h.Fresh p) ∧ ∃ s, Declares P h' x (h'.binding p x) s
  sound : h'.Sound P

theorem Fresh.of_le {p : Place} (hp : h'.Fresh p) (hsize : h.frames.size ≤ h'.frames.size) :
    h.Fresh p := by
  obtain ⟨ref, rfl, hnew⟩ := hp
  exact ⟨ref, rfl, Nat.le_trans hsize hnew⟩

/-- No variable changes if all places hold what they held. -/
theorem rebinds_of_binding_eq (hsize : h.frames.size ≤ h'.frames.size) (hclosures : h.Extends h')
    (hbinding : ∀ p x, h'.binding p x = h.binding p x) (hsound : h'.Sound P) :
    h.Rebinds P S h' where
  frames := hsize
  closures := hclosures
  kept p x hp := by rwa [Binds, hbinding]
  named p x hp := by
    rw [Binds, hbinding] at hp
    exact .inl hp
  valued p x := .inl (hbinding p x)
  sound := hsound

theorem rebinds_of_sameVariables (hh : h.Sound P) (hsame : h.SameVariables h') :
    h.Rebinds P S h' := by
  have hsize : h.frames.size ≤ h'.frames.size := by rw [hsame.frames]
  exact rebinds_of_binding_eq hsize (.of_closures_eq hsame.closures) hsame.binding
    (hh.of_closures_eq hsize hsame.closures)

namespace Rebinds

protected theorem refl (hh : h.Sound P) : h.Rebinds P S h :=
  rebinds_of_sameVariables hh (.refl h)

/-- Code that declares in a scope which was opened meanwhile declares in no other place. -/
protected theorem trans (h₁ : h.Rebinds P S h') (h₂ : h'.Rebinds P S' h'')
    (hS : ∀ p ∈ S', p ∈ S ∨ h.Fresh p) : h.Rebinds P S h'' := by
  have hplace {p : Place} (hp : p ∈ S' ∨ h'.Fresh p) : p ∈ S ∨ h.Fresh p :=
    hp.elim (hS p) fun hp ↦ .inr (hp.of_le h₁.frames)
  refine {
    frames := Nat.le_trans h₁.frames h₂.frames
    closures := h₁.closures.trans h₂.closures
    kept := fun p x hp ↦ h₂.kept p x (h₁.kept p x hp)
    named := fun p x hp ↦ ?_
    valued := fun p x ↦ ?_
    sound := h₂.sound }
  · rcases h₂.named p x hp with hp | hp | ⟨hp, hs⟩
    · exact h₁.named p x hp
    · exact .inr (.inl hp)
    · exact .inr (.inr ⟨hplace hp, hs⟩)
  · rcases h₂.valued p x with heq | hassigned | ⟨hp, hs⟩
    · rcases h₁.valued p x with heq' | hassigned | ⟨hp, s, hs⟩
      · exact .inl (heq.trans heq')
      · exact .inr (.inl hassigned)
      · refine .inr (.inr ⟨hp, s, hs.allowed, hs.names, fun f hf ↦ ?_⟩)
        obtain ⟨u, hu, hclosure⟩ := hs.closure f hf
        exact ⟨u, heq.trans hu, hclosure.mono h₂.closures⟩
    · exact .inr (.inl hassigned)
    · exact .inr (.inr ⟨hplace hp, hs⟩)

theorem mono (hh : h.Rebinds P S h') (hS : S ⊆ S') : h.Rebinds P S' h' where
  frames := hh.frames
  closures := hh.closures
  kept := hh.kept
  named p x hp := (hh.named p x hp).imp_right fun hp ↦ hp.imp_right fun ⟨hp, hs⟩ ↦
    ⟨hp.imp_left fun hp ↦ hS hp, hs⟩
  valued p x := (hh.valued p x).imp_right fun hp ↦ hp.imp_right fun ⟨hp, hs⟩ ↦
    ⟨hp.imp_left fun hp ↦ hS hp, hs⟩
  sound := hh.sound

end Rebinds

/-! ## What is done to variables -/

/-- A declaration names a variable of the innermost scope. -/
theorem rebinds_declare (hh : h.Sound P) (hs : h.Rooted scope) (name : String) (v : Value)
    {s : Site} (hdeclares : Declares P h name (some v) s) :
    h.Rebinds P {scope.place} (h.declare name v scope) := by
  have hsize : (h.declare name v scope).frames.size = h.frames.size := h.frames_declare name v scope
  have hclosures : (h.declare name v scope).closures = h.closures := closures_declare h name v scope
  refine {
    frames := hsize.ge
    closures := .of_closures_eq hclosures
    kept := fun p x hp ↦ ?_
    named := fun p x hp ↦ ?_
    valued := fun p x ↦ ?_
    sound := hh.of_closures_eq hsize.ge hclosures }
  · rw [Binds, binding_declare hs]
    split
    · rfl
    · exact hp
  · rw [Binds, binding_declare hs] at hp
    split at hp
    · next heq =>
      obtain ⟨rfl, rfl⟩ := heq
      exact .inr (.inr ⟨.inl rfl, s, hdeclares.allowed, hdeclares.names⟩)
    · exact .inl hp
  · rw [binding_declare hs]
    split
    · next heq =>
      obtain ⟨rfl, rfl⟩ := heq
      refine .inr (.inr ⟨.inl rfl, s, hdeclares.allowed, hdeclares.names, fun f hf ↦ ?_⟩)
      obtain ⟨u, hu, hclosure⟩ := hdeclares.closure f hf
      exact ⟨u, hu, hclosure.mono (.of_closures_eq hclosures)⟩
    · exact .inl rfl

/-- An assignment names a variable only among the global ones. -/
theorem rebinds_assign (hh : h.Sound P) (name : String) (v : Value) (scope : Scope)
    (hassigned : P (.assigned name)) : h.Rebinds P ∅ (h.assign name v scope) := by
  have hsize : (h.assign name v scope).frames.size = h.frames.size := h.frames_assign name v scope
  have hclosures : (h.assign name v scope).closures = h.closures := closures_assign h name v scope
  refine {
    frames := hsize.ge
    closures := .of_closures_eq hclosures
    kept := fun p x hp ↦ ?_
    named := fun p x hp ↦ ?_
    valued := fun p x ↦ ?_
    sound := hh.of_closures_eq hsize.ge hclosures }
  · rw [Binds, binding_assign]
    split
    · rfl
    · exact hp
  · rw [Binds, binding_assign] at hp
    split at hp
    · next heq =>
      obtain ⟨rfl, rfl⟩ := heq
      -- The place that a lookup reads holds the name, unless it is the global one.
      cases hholder : h.holder x scope with
      | none => exact .inr (.inl ⟨rfl, hassigned⟩)
      | some ref =>
        exact .inl (List.find?_some (p := fun ref ↦ ((h.locals ref).find? x).isSome) hholder)
    · exact .inl hp
  · rw [binding_assign]
    split
    · next heq =>
      obtain ⟨rfl, rfl⟩ := heq
      exact .inr (.inl hassigned)
    · exact .inl rfl

theorem rebinds_openScope (hh : h.Sound P) (scope : Scope) :
    h.Rebinds P S (h.openScope scope).2 :=
  rebinds_of_binding_eq (h.frames_openScope scope) (.of_closures_eq rfl) (h.binding_openScope scope)
    (hh.of_closures_eq (h.frames_openScope scope) rfl)

theorem rebinds_newClosure (hh : h.Sound P) (hs : h.Rooted scope) (hf : ∀ s ∈ f.sites, P s) :
    h.Rebinds P S (h.newClosure ⟨f, scope⟩).2 :=
  rebinds_of_binding_eq (Nat.le_refl _) (h.extends_newClosure _)
    (fun p _ ↦ by cases p <;> rfl) (hh.newClosure hs hf)

theorem rebinds_bindParameters (hh : h.Sound P) (hs : h.Rooted scope) {parameters : List String}
    (hparameters : ∀ x ∈ parameters, P (.parameter x)) (arguments : List Value) :
    h.Rebinds P {scope.place} (bindParameters scope parameters arguments h) := by
  have hdeclare {h : Heap} {x : String} (v : Value) (hh : h.Sound P) (hs : h.Rooted scope)
      (hx : P (.parameter x)) : h.Rebinds P {scope.place} (h.declare x v scope) :=
    rebinds_declare hh hs x v ⟨hx, rfl, fun f hf ↦ nomatch hf⟩
  induction parameters generalizing h arguments with
  | nil => exact .refl hh
  | cons x xs ih =>
    obtain ⟨hx, hxs⟩ := List.forall_mem_cons.1 hparameters
    cases arguments with
    | nil =>
      have hfirst := hdeclare .undefined hh hs hx
      exact hfirst.trans (ih hfirst.sound (hs.mono hfirst.frames) hxs []) fun _ hp ↦ .inl hp
    | cons v vs =>
      have hfirst := hdeclare v hh hs hx
      exact hfirst.trans (ih hfirst.sound (hs.mono hfirst.frames) hxs vs) fun _ hp ↦ .inl hp

/-! ## Functions that are hoisted -/

/-- The innermost scope holds the function under its name, unless there can be a further site of
that name. -/
def Hoisted (P : Site → Prop) (h : Heap) (scope : Scope) (f : FunctionDecl) : Prop :=
  (∀ s, P s → s.name = f.declaredName → s = .listed f) →
    ∃ v, h.binding scope.place f.declaredName = some v ∧ h.IsClosureOf v f

/-- Nothing takes the place of a function that is hoisted. -/
theorem Hoisted.mono (hf : h.Hoisted P scope f) (hh : h.Rebinds P S h') : h'.Hoisted P scope f := by
  intro honly
  obtain ⟨v, hv, hclosure⟩ := hf honly
  rcases hh.valued scope.place f.declaredName with heq | hassigned | ⟨-, s, hs⟩
  · exact ⟨v, heq.trans hv, hclosure.mono hh.closures⟩
  · exact nomatch honly _ hassigned rfl
  · exact hs.closure f (honly s hs.allowed hs.names.name_eq)

/-- The functions of a list of statements are declared in its scope. -/
theorem rebinds_hoist (hh : h.Sound P) (hs : h.Rooted scope) {body : List Stmt}
    (hbody : ∀ s ∈ Stmt.sitesOfAll body, P s) : h.Rebinds P {scope.place} (h.hoist body scope) ∧
      ∀ f, Stmt.function f ∈ body → (h.hoist body scope).Hoisted P scope f := by
  induction body generalizing h with
  | nil => exact ⟨.refl hh, fun _ hf ↦ absurd hf List.not_mem_nil⟩
  | cons s rest ih =>
    rw [Stmt.sitesOfAll, List.forall_mem_append, List.forall_mem_append] at hbody
    obtain ⟨⟨hlisted, hsites⟩, hrest⟩ := hbody
    cases s with
    | function f =>
      -- The function is declared first, and what follows does not take its place.
      have hnew := rebinds_newClosure (S := {scope.place}) hh hs hsites
      have hdeclares : Declares P (h.newClosure ⟨f, scope⟩).2 f.declaredName
          (some (h.newClosure ⟨f, scope⟩).1) (.listed f) := by
        refine ⟨hlisted _ List.mem_cons_self, rfl, fun g hg ↦ ?_⟩
        cases hg
        exact ⟨_, rfl, isClosureOf_newClosure h f scope⟩
      have hdeclared := rebinds_declare hnew.sound (hs.mono hnew.frames) f.declaredName _ hdeclares
      have hfirst := hnew.trans hdeclared fun _ hp ↦ .inl hp
      obtain ⟨hlater, hhoisted⟩ := ih hfirst.sound (hs.mono hfirst.frames) hrest
      refine ⟨hfirst.trans hlater fun _ hp ↦ .inl hp, fun g hg ↦ ?_⟩
      rcases List.mem_cons.1 hg with heq | hg
      · cases heq
        refine Hoisted.mono (fun _ ↦ ⟨(h.newClosure ⟨f, scope⟩).1, ?_, ?_⟩) hlater
        · rw [binding_declare (hs.mono hnew.frames), if_pos ⟨rfl, rfl⟩]
        · exact (isClosureOf_newClosure h f scope).mono hdeclared.closures
      · exact hhoisted g hg
    | _ =>
      obtain ⟨hlater, hhoisted⟩ := ih hh hs hrest
      refine ⟨hlater, fun g hg ↦ hhoisted g ?_⟩
      refine (List.mem_cons.1 hg).resolve_left fun heq ↦ ?_
      cases heq

end Heap

end ReactiveFrames.Script
