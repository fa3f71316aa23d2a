import ReactiveFrames.Proofs.Reactive.Enrolling
import ReactiveFrames.Proofs.Reactive.Faults
import ReactiveFrames.Proofs.Reactive.Scopes

/-!
# Variables while a frame is compiled

Compiling a frame evaluates a script for each of its functions, and then runs its listeners. Between
these the objects are resolved and linked, which runs nothing. So all that becomes of the variables
is what the scripts and the closures of the world may do at their sites. In particular a variable of
the global scope keeps its value if no code names it: compiling sets none by itself, other than
those that the functions are assigned to.

## Main definitions

* `Frame.programs`: the scripts that the functions of a frame are compiled by.

## Main statements

* `World.rebinds_of_compileObject`: compiling rebinds variables as the code may.
* `World.binding_of_compileObject`: a global variable that no code names keeps its value.
-/

namespace ReactiveFrames

open Script (Value Heap Task)

/-! ## Scripts of a frame -/

/-- Functions of a frame and of the frames in it, in the order in which they are compiled. -/
def Frame.functions (f : Frame) : List Function := f.preorder.filterMap fun p ↦ p.2.function?

/-- Scripts that functions are compiled by, when `n` have been compiled before. -/
def assignments (n : Nat) (fs : List Function) : List String :=
  (fs.zipIdx n).map fun p ↦ functionVariable p.2 ++ " = " ++ p.1.source

theorem assignments_append (n : Nat) (fs gs : List Function) :
    assignments n (fs ++ gs) = assignments n fs ++ assignments (n + fs.length) gs := by
  rw [assignments, List.zipIdx_append, List.map_append]
  rfl

/-- Scripts that the functions of a frame are compiled by, in order. -/
def Frame.programs (f : Frame) : List String := assignments 0 f.functions

/-- Function that a step compiles. -/
def BuildStep.function? (s : BuildStep) : Option Function :=
  s.declaration?.bind fun d ↦ d.member.function?

theorem Frame.functions_eq (f : Frame) : f.functions = f.steps.filterMap BuildStep.function? := by
  rw [functions, ← f.map_declarations, List.filterMap_map, declarations, List.filterMap_filterMap]
  rfl

/-! ## Scopes while a frame is compiled -/

variable {P : Script.Site → Prop} {ε : Type}

namespace World

variable {w u : World}

theorem heap_storeFunction (o : ObjectRef) (name : String) (f : Function) (callable : Value)
    (w : World) : (storeFunction o name f callable w).heap = w.heap := by
  cases f <;> rfl

/-- A step of building runs the script of a function at most. -/
theorem rebinds_of_run {s : BuildStep} {p p' : Progress} (hrun : s.run p w = .ok p' u)
    (hw : w.heap.Sound P) (hs : ∀ source ∈ assignments p.functions s.function?.toList,
      ∀ t ∈ (Task.program source).sites, P t) :
    w.heap.Rebinds P {none} u.heap ∧ p'.functions = p.functions + s.function?.toList.length := by
  cases s with
  | complete =>
    obtain ⟨owner, outer, n⟩ := p
    cases outer with
    | nil =>
      cases hrun
      exact ⟨.refl hw, rfl⟩
    | cons parent outer =>
      cases hrun
      exact ⟨.refl hw, rfl⟩
  | declare d =>
    obtain ⟨path, earlier, m⟩ := d
    change Declaration.run _ p w = _ at hrun
    unfold Declaration.run at hrun
    split_ifs at hrun
    cases m with
    | property name line type value =>
      cases hrun
      exact ⟨Heap.rebinds_of_sameVariables hw (value.sameVariables_toValue w.heap), rfl⟩
    | frame name line className members =>
      cases hrun
      exact ⟨.refl hw, rfl⟩
    | function name line f =>
      have hrebinds : w.heap.Rebinds P {none}
          (Declaration.evaluate ⟨path, earlier, .function name line f⟩ f p w).state.heap :=
        rebinds_evaluate (w := { w.recorded p.owner name with failures := 0 })
          (hs _ (List.mem_singleton.2 rfl)) hw
      dsimp only at hrun
      cases heval : Declaration.evaluate ⟨path, earlier, .function name line f⟩ f p w with
      | ok v x =>
        rw [heval] at hrun hrebinds
        dsimp only at hrun
        split_ifs at hrun
        cases hrun
        rw [heap_storeFunction]
        exact ⟨hrebinds, rfl⟩
      | error e x =>
        rw [heval] at hrun
        cases hrun
      | exhausted x =>
        rw [heval] at hrun
        cases hrun

/-- Building runs the scripts of functions one after the other. -/
theorem rebinds_of_runSteps {steps : List BuildStep} {p p' : Progress}
    (hrun : runSteps steps p w = .ok p' u) (hw : w.heap.Sound P)
    (hs : ∀ source ∈ assignments p.functions (steps.filterMap BuildStep.function?),
      ∀ t ∈ (Task.program source).sites, P t) : w.heap.Rebinds P {none} u.heap := by
  induction steps generalizing p w with
  | nil =>
    cases hrun
    exact .refl hw
  | cons s steps ih =>
    have hsplit : (s :: steps).filterMap BuildStep.function?
        = s.function?.toList ++ steps.filterMap BuildStep.function? := by
      rw [List.filterMap_cons]
      cases s.function? <;> rfl
    rw [hsplit, assignments_append] at hs
    obtain ⟨hfirst, hrest⟩ := List.forall_mem_append.1 hs
    rw [runSteps_cons] at hrun
    obtain ⟨p'', v, hstep, hrun⟩ := Run.bind_eq_ok.1 hrun
    obtain ⟨hrebinds, hfunctions⟩ := rebinds_of_run hstep hw hfirst
    rw [← hfunctions] at hrest
    exact hrebinds.trans (ih hrun hrebinds.sound hrest) fun _ hp ↦ .inl hp

theorem encloses_forM {γ : Type} {act : γ → Effect ε Unit} (hact : ∀ c, Encloses P (act c))
    (cs : List γ) : Encloses P (cs.forM act) := by
  induction cs with
  | nil => exact .pure ()
  | cons c cs ih => exact (hact c).bind fun _ ↦ ih

theorem encloses_visit {act : ObjectRef → Effect ε Unit} (hact : ∀ o, Encloses P (act o))
    (depth : Nat) (o : ObjectRef) : Encloses P (visit act depth o) := by
  induction depth generalizing o with
  | zero => exact .exhaust
  | succ depth ih =>
    exact .bind (.of_heap_eq fun _ ↦ rfl) fun _ ↦ (encloses_forM ih _).bind fun _ ↦ hact o

theorem encloses_linkTree (o : ObjectRef) : Encloses P (linkTree o : Effect ε Unit) := by
  have hlink (o : ObjectRef) : Encloses P (linkListeners o : Effect ε Unit) :=
    .bind (.of_heap_eq fun _ ↦ rfl) fun _ ↦ encloses_forM (fun name ↦ .update (heap_link o name)) _
  exact fun (w : World) ↦ encloses_visit hlink w.treeDepth o w

theorem encloses_seedTree (o : ObjectRef) : Encloses P (seedTree o : Effect ε Unit) := by
  have hfire (o : ObjectRef) (name : String) : Encloses P (fire o name : Effect ε Unit) :=
    encloses_reporting (encloses_invokeListener encloses_set stepBound o name)
  have hseed (o : ObjectRef) : Encloses P (seedListeners o : Effect ε Unit) :=
    .bind (.of_heap_eq fun _ ↦ rfl) fun _ ↦ encloses_forM (hfire o) _
  exact fun (w : World) ↦ encloses_visit hseed w.treeDepth o w

/-- Compiling a frame does no more to variables than the scripts of its functions and the closures
may do that there are. -/
theorem rebinds_of_compileObject {f : Frame} {root : ObjectRef} (hw : w.heap.Sound P)
    (hs : ∀ source ∈ f.programs, ∀ t ∈ (Task.program source).sites, P t)
    (h : compileObject f w = .ok root u) : w.heap.Rebinds P {none} u.heap := by
  rw [Frame.programs, f.functions_eq] at hs
  obtain ⟨x, hassemble, hseed⟩ := exists_assemble_of_compileObject h
  obtain ⟨v, v', hbuild, hresolve, hlink⟩ := exists_build_of_assemble hassemble
  rw [build_eq_buildTo, map_eq_pure_bind] at hbuild
  obtain ⟨p, v'', hrun, hroot⟩ := Run.bind_eq_ok.1 hbuild
  cases hroot
  obtain ⟨_, _, hadd, hrun⟩ := Run.bind_eq_ok.1 hrun
  cases hadd
  -- Objects are built by the scripts of functions; resolving and linking run nothing.
  have hbuilt : w.heap.Rebinds P {none} v.heap := (rebinds_of_runSteps hrun hw hs :)
  have hresolved : v'.heap = v.heap :=
    congrArg (·.heap) ((preserves_sameButPointers_resolve v _ _ _).of_ok (.refl v) hresolve).rest
  have hlinked : v.heap.Rebinds P ∅ x.heap :=
    hresolved ▸ (encloses_linkTree p.owner).of_ok hlink (hresolved ▸ hbuilt.sound)
  have hall := hbuilt.trans hlinked fun _ hp ↦ hp.elim
  exact hall.trans ((encloses_seedTree p.owner).of_ok hseed hall.sound) fun _ hp ↦ hp.elim

/-- A global variable that no code names keeps its value while a frame is compiled. -/
theorem binding_of_compileObject {f : Frame} {root : ObjectRef} {x : String}
    (hw : w.heap.Sound fun s ↦ s.name ≠ x)
    (hs : ∀ source ∈ f.programs, ∀ s ∈ (Task.program source).sites, s.name ≠ x)
    (h : compileObject f w = .ok root u) : u.heap.binding none x = w.heap.binding none x := by
  rcases (rebinds_of_compileObject hw hs h).valued none x with heq | hassigned | ⟨-, s, hdeclares⟩
  · exact heq
  · exact absurd rfl hassigned
  · exact absurd hdeclares.names.name_eq hdeclares.allowed

end World

end ReactiveFrames
