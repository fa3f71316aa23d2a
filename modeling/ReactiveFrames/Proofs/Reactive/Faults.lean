import ReactiveFrames.Proofs.Reactive.Assembly
import ReactiveFrames.Proofs.Reactive.Declarations
import ReactiveFrames.Proofs.Reactive.References

/-!
# Faults of a frame

A frame is compiled as a whole or not at all. There are three faults that it can have: a name that
two members of one frame share, a function member whose script does not yield a function, and a path
of a listener argument that leads nowhere. Without them the objects are built, resolved and linked.
The listeners that run then can fail, but that is no fault of the frame. They can also run forever,
and so can the script of a function member that closes the brace of its function; then compiling
does not come to an end, and nothing else stands in its way.

With a fault there is an error, and it is the first one. The members of a frame are declared before
any path is resolved, those of a nested frame in its place. Paths are resolved in each frame before
the frames in it. Both are done before any listener is linked or run.

## Main definitions

* `Frame.FirstFault`: the first fault of a frame in a world, and the world that it leaves.

## Main statements

* `compileObject_eq_error_iff`: linking and running listeners raise no error.
* `Frame.FirstFault.observers`: no object has a further observer after a fault.
* `World.all_or_nothing`: a frame is compiled if and only if it has no fault.
-/

namespace ReactiveFrames

open Script (Value)

/-! ## Runs without errors -/

namespace Run

variable {σ ε α β : Type}

/-- The run does not end with an error. -/
def NeverFails (x : Run σ ε α) : Prop := ∀ s e s', x s ≠ .error e s'

namespace NeverFails

variable {x : Run σ ε α}

protected theorem pure (a : α) : NeverFails (Pure.pure a : Run σ ε α) := fun _ _ _ h ↦ nomatch h

protected theorem exhaust : NeverFails (Run.exhaust : Run σ ε α) := fun _ _ _ h ↦ nomatch h

protected theorem state : NeverFails (Run.state : Run σ ε σ) := fun _ _ _ h ↦ nomatch h

protected theorem bind {f : α → Run σ ε β} (hx : NeverFails x) (hf : ∀ a, NeverFails (f a)) :
    NeverFails (x >>= f) := by
  intro s e s' h
  cases hrun : x s with
  | ok a u =>
    rw [bind_of_ok hrun] at h
    exact hf a u e s' h
  | error e' u => exact hx s e' u hrun
  | exhausted u =>
    rw [bind_of_exhausted hrun] at h
    cases h

theorem forM {γ : Type} {f : γ → Run σ ε Unit} (hf : ∀ c, NeverFails (f c)) (cs : List γ) :
    NeverFails (cs.forM f) := by
  induction cs with
  | nil => exact .pure ()
  | cons c cs ih => exact (hf c).bind fun _ ↦ ih

end NeverFails

end Run

namespace World

/-- Whatever listeners run into while they are run, it is reported and does not get in the way. -/
theorem neverFails_seedTree {ε : Type} (o : ObjectRef) :
    Run.NeverFails (seedTree o : Effect ε Unit) := by
  have hfire (o : ObjectRef) (name : String) : Run.NeverFails (fire o name : Effect ε Unit) := by
    intro w e w' h
    unfold fire reporting at h
    split at h <;> cases h
  have hseed (o : ObjectRef) : Run.NeverFails (seedListeners o : Effect ε Unit) :=
    Run.NeverFails.state.bind fun _ ↦ .forM (hfire o) _
  have hvisit (depth : Nat) (o : ObjectRef) :
      Run.NeverFails (visit seedListeners depth o : Effect ε Unit) := by
    induction depth generalizing o with
    | zero => exact .exhaust
    | succ depth ih =>
      exact Run.NeverFails.state.bind fun _ ↦ (Run.NeverFails.forM ih _).bind fun _ ↦ hseed o
  exact fun (w : World) ↦ hvisit w.treeDepth o w

/-! ## Linking -/

section Link

variable {w w' u v : World} {f : Frame} {root : ObjectRef}

protected theorem SamePlaces.refl (w : World) : w.SamePlaces w := ⟨rfl, fun _ ↦ rfl⟩

theorem samePlaces_link (owner : ObjectRef) (listener : String) (w : World) :
    w.SamePlaces (link owner listener w) := by
  have hfold (ps : List Pointer) (w : World) :
      w.SamePlaces (ps.foldl (linkPointer owner listener) w) := by
    induction ps generalizing w with
    | nil => exact .refl w
    | cons p ps ih =>
      refine SamePlaces.trans ?_ (ih _)
      unfold linkPointer
      split
      · exact w.samePlaces_modify p.object fun _ ↦ rfl
      · exact ⟨rfl, fun _ ↦ rfl⟩
  exact hfold _ w

theorem exists_linkListeners_samePlaces {ε : Type} (o : ObjectRef) (w : World) :
    ∃ w', (linkListeners o : Effect ε Unit) w = .ok () w' ∧ w.SamePlaces w' := by
  have hall (names : List String) (w : World) :
      ∃ w', (names.forM fun name ↦ Run.update (World.link o name) : Effect ε Unit) w = .ok () w' ∧
        w.SamePlaces w' := by
    induction names generalizing w with
    | nil => exact ⟨w, rfl, .refl w⟩
    | cons name names ih =>
      obtain ⟨w', hrun, hplaces⟩ := ih (World.link o name w)
      exact ⟨w', Run.bind_eq_ok.2 ⟨(), _, rfl, hrun⟩, (samePlaces_link o name w).trans hplaces⟩
  obtain ⟨w', hrun, hplaces⟩ := hall (w.object o).listenerNames w
  exact ⟨w', Run.bind_eq_ok.2 ⟨w, w, rfl, hrun⟩, hplaces⟩

/-- A tree whose objects have stayed in their places can be linked. -/
theorem IsTreeOf.exists_linkTree {ε : Type} (h : u.IsTreeOf root f) (hv : u.SamePlaces v) :
    ∃ v', (linkTree root : Effect ε Unit) v = .ok () v' := by
  have hchildren (w : World) (hw : u.SamePlaces w) (o : ObjectRef) :
      (w.object o).children = (u.object o).children :=
    congrArg (fun p ↦ p.2.2.2) (hw.place o)
  have hact (o : ObjectRef) (w : World) (hw : u.SamePlaces w) (_ : o.index < u.host.objects.size) :
      ∃ w', (linkListeners o : Effect ε Unit) w = .ok () w' ∧ u.SamePlaces w' ∧ True ∧
        ∀ _ : ObjectRef, True → True := by
    obtain ⟨w', hrun, hplaces⟩ := exists_linkListeners_samePlaces (ε := ε) o w
    exact ⟨w', hrun, hw.trans hplaces, trivial, fun _ _ ↦ trivial⟩
  obtain ⟨v', hrun, -⟩ := exists_visit hchildren hact v.treeDepth root
    (fun a ha ↦ (h.planted a ha).newer) h.size (by rw [treeDepth, hv.size]; omega) hv
  exact ⟨v', hrun⟩

end Link

/-! ## What is left after a fault -/

/-- Between two worlds arguments of listeners have been bound, and nothing else has happened. -/
structure SameButPointers (w w' : World) : Prop where
  size : w'.host.objects.size = w.host.objects.size
  object : ∀ o, { w'.object o with pointers := Table.empty }
    = { w.object o with pointers := Table.empty }
  rest : { w' with host := { w'.host with objects := w.host.objects } } = w

section SameButPointers

variable {w w' : World}

protected theorem SameButPointers.refl (w : World) : w.SameButPointers w := ⟨rfl, fun _ ↦ rfl, rfl⟩

theorem SameButPointers.samePlaces (h : w.SameButPointers w') : w.SamePlaces w' :=
  ⟨h.size, fun o ↦ (congrArg ReactiveObject.place (h.object o) :)⟩

theorem SameButPointers.observers (h : w.SameButPointers w') (o : ObjectRef) :
    (w'.object o).observers = (w.object o).observers :=
  (congrArg ReactiveObject.observers (h.object o) :)

theorem SameButPointers.setPointers (h : w.SameButPointers w') (o : ObjectRef) (name : String)
    (ps : List Pointer) : w.SameButPointers (w'.modify o (·.setPointers name ps)) := by
  refine ⟨(w'.size_modify o _).trans h.size, fun a ↦ ?_, h.rest⟩
  rw [object_modify]
  split_ifs
  · exact h.object a
  · exact h.object a

theorem preserves_sameButPointers_resolve (w : World) (objects : Table ObjectRef) (depth : Nat)
    (o : ObjectRef) : Run.Preserves w.SameButPointers (resolve objects depth o) := by
  have hlisteners (o : ObjectRef) (ms : List Member) :
      Run.Preserves w.SameButPointers (resolveListeners objects o ms) := by
    rw [resolveListeners_eq]
    refine Run.Tracks.forM fun s _ ↦ Run.Tracks.state.bind fun _ ↦
      (Run.Tracks.ofExcept _).bind fun ps ↦ ?_
    exact .update fun u hu ↦ hu.setPointers s.owner s.listener ps
  induction depth generalizing o with
  | zero => exact .exhaust
  | succ depth ih =>
    exact Run.Tracks.state.bind fun _ ↦ (hlisteners o _).bind fun _ ↦ Run.Tracks.forM fun c _ ↦ ih c

end SameButPointers

/-- No object has other observers than before. A new object has none. -/
def SameObservers (w w' : World) : Prop := ∀ o, (w'.object o).observers = (w.object o).observers

section SameObservers

variable {w w' : World} {p : Progress}

theorem SameObservers.modify (h : w.SameObservers w') (o : ObjectRef)
    {f : ReactiveObject → ReactiveObject}
    (hf : (f (w'.object o)).observers = (w'.object o).observers) :
    w.SameObservers (w'.modify o f) := by
  intro a
  rw [object_modify]
  split_ifs with ha
  · rw [ha.1, hf, h o]
  · exact h a

theorem SameObservers.addObject (h : w.SameObservers w') (f : Frame) (path : String) :
    w.SameObservers (World.addObject (.ofFrame f path) w').2 := by
  intro a
  rw [object_addObject]
  split_ifs with ha
  · have hblank : w'.object a = .blank := by
      rw [object, ObjectGraph.object, ha, Array.getElem?_size]
      rfl
    rw [← h a, hblank]
    rfl
  · exact h a

theorem SameObservers.storeFunction (h : w.SameObservers w') (o : ObjectRef) (name : String)
    (f : Function) (callable : Value) :
    w.SameObservers (ReactiveFrames.storeFunction o name f callable w') := by
  cases f with
  | init => exact h.modify o rfl
  | listener => exact h.modify o rfl
  | event => exact h.modify o rfl
  | procedure => exact h.modify o rfl

theorem SameObservers.evaluate (h : w.SameObservers w') (d : Declaration) (f : Function)
    (hr : (d.evaluate f p w').Returns) : w.SameObservers (d.evaluate f p w').state := by
  have hrecorded : w.SameObservers { w'.recorded p.owner d.member.name with failures := 0 } :=
    h.modify p.owner rfl
  have hsame := ((writeClosed_sameWiring _).evaluate _).state_of_returns (.refl _) hr
  intro o
  exact (hsame.observers o).trans (hrecorded o)

theorem SameObservers.declare (h : w.SameObservers w') (d : Declaration)
    (hr : (d.run p w').Returns) : w.SameObservers (d.run p w').state := by
  by_cases hname : d.member.name ∈ d.earlier
  · rw [Declaration.run_of_mem hname]
    exact h
  obtain ⟨path, earlier, m⟩ := d
  unfold Declaration.run at hr ⊢
  rw [if_neg hname] at hr ⊢
  have hrecorded (name : String) : w.SameObservers (w'.recorded p.owner name) :=
    h.modify p.owner rfl
  cases m with
  | property name line type value => exact (hrecorded name).modify p.owner rfl
  | frame name line className members => exact (hrecorded name).addObject _ _
  | function name line f =>
    have hevaluate := h.evaluate (p := p) ⟨path, earlier, .function name line f⟩ f
    dsimp only at hr ⊢
    cases heval : Declaration.evaluate ⟨path, earlier, .function name line f⟩ f p w' with
    | ok v u =>
      rw [heval] at hevaluate
      dsimp only
      split
      · exact (hevaluate trivial).storeFunction p.owner name f v
      · exact hevaluate trivial
    | error e u =>
      rw [heval] at hevaluate
      exact hevaluate trivial
    | exhausted u =>
      rw [heval] at hr
      exact absurd hr (Outcome.not_returns_exhausted u)

/-- No step of building adds an observer. -/
theorem preserves_sameObservers_run (w : World) (s : BuildStep) (p : Progress) :
    Run.Preserves w.SameObservers (s.run p) := by
  intro u hu hr
  refine ⟨?_, .of_forall fun _ ↦ rfl⟩
  cases s with
  | declare d => exact hu.declare d hr
  | complete =>
    obtain ⟨owner, outer, n⟩ := p
    cases outer with
    | nil => exact hu
    | cons parent outer => exact (hu.modify parent rfl).modify parent rfl

theorem sameObservers_of_buildTo {f : Frame} {steps : List BuildStep} {u : World}
    (hrun : f.buildTo steps w = .ok p u) : w.SameObservers u := by
  have hsteps (steps : List BuildStep) (p : Progress) :
      Run.Preserves w.SameObservers (runSteps steps p) := by
    induction steps generalizing p with
    | nil => exact .pure p
    | cons s steps ih =>
      rw [runSteps_cons]
      exact (preserves_sameObservers_run w s p).bind ih
  have hall : Run.Preserves w.SameObservers (f.buildTo steps) :=
    (Run.Tracks.step fun u hu ↦ hu.addObject f f.instanceName).bind fun root ↦ hsteps steps _
  exact hall.of_ok (s := w) (fun _ ↦ rfl) hrun

theorem sameObservers_of_build {f : Frame} {root : ObjectRef} (hbuild : build f w = .ok root w') :
    w.SameObservers w' := by
  rw [build_eq_buildTo, map_eq_pure_bind] at hbuild
  obtain ⟨p, u, hrun, hroot⟩ := Run.bind_eq_ok.1 hbuild
  cases hroot
  exact sameObservers_of_buildTo hrun

end SameObservers

end World

/-! ## Faults -/

/-- The first fault of a frame that is compiled in a world, and the world that it leaves: a member
that cannot be declared after those before it have been, or a reference that leads nowhere after all
members have been declared. -/
inductive Frame.FirstFault (f : Frame) (w : World) : CompileError → World → Prop
  | declaration {before after : List BuildStep} {d : Declaration} {p : Progress} {u w' : World}
    {e : CompileError} : f.steps = before ++ .declare d :: after → f.buildTo before w = .ok p u →
      d.Offends p u e w' → FirstFault f w e w'
  | reference {before after : List Reference} {r : Reference} {p : Progress} {u w' : World} :
    f.buildTo f.steps w = .ok p u → f.references = before ++ r :: after →
      (∀ q ∈ before, (f.target? q).isSome) → f.target? r = none → u.SameButPointers w' →
      FirstFault f w r.unresolved w'

/-- After a fault no object has another observer than before. -/
theorem Frame.FirstFault.observers {f : Frame} {w w' : World} {e : CompileError}
    (h : f.FirstFault w e w') : w.SameObservers w' := by
  cases h with
  | declaration _ hbuild hoffends =>
    have hrun := Declaration.run_eq_error_iff.2 hoffends
    have hsame := (World.sameObservers_of_buildTo hbuild).declare _ (by rw [hrun]; trivial)
    rwa [hrun] at hsame
  | reference hbuild _ _ _ hpointers =>
    intro o
    rw [hpointers.observers]
    exact World.sameObservers_of_buildTo hbuild o

section Faults

variable {enums : EnumTable} {f : Frame} {w w' : World} {e : CompileError}

/-- Compiling a frame fails only while it is assembled. -/
theorem compileObject_eq_error_iff :
    compileObject f w = .error e w' ↔ assemble f w = .error e w' := by
  constructor
  · intro h
    cases hrun : assemble f w with
    | ok root u =>
      rw [compileObject, Run.bind_of_ok hrun] at h
      exact absurd h (((World.neverFails_seedTree root).bind fun _ ↦ .pure root) u e w')
    | error e' u => exact (Run.bind_of_error hrun _).symm.trans h
    | exhausted u =>
      rw [compileObject, Run.bind_of_exhausted hrun] at h
      cases h
  · intro h
    exact Run.bind_of_error h _

theorem build_of_buildTo {p : Progress} {u : World} (h : f.buildTo f.steps w = .ok p u) :
    build f w = .ok p.owner u := by
  rw [build_eq_buildTo, map_eq_pure_bind]
  exact Run.bind_of_ok h _

theorem assemble_of_buildTo_error (h : f.buildTo f.steps w = .error e w') :
    assemble f w = .error e w' := by
  have hbuild : build f w = .error e w' := by
    rw [build_eq_buildTo, map_eq_pure_bind]
    exact Run.bind_of_error h _
  exact Run.bind_of_error hbuild _

theorem assemble_of_buildTo_exhausted (h : f.buildTo f.steps w = .exhausted w') :
    assemble f w = .exhausted w' := by
  have hbuild : build f w = .exhausted w' := by
    rw [build_eq_buildTo, map_eq_pure_bind]
    exact Run.bind_of_exhausted h _
  exact Run.bind_of_exhausted hbuild _

/-- A frame whose members have been declared is assembled, unless a reference leads nowhere. -/
theorem assemble_of_buildTo (hf : f.WellFormed enums) {p : Progress} {u : World}
    (h : f.buildTo f.steps w = .ok p u) :
    match f.references.find? fun r ↦ (f.target? r).isNone with
    | none => ∃ v, assemble f w = .ok p.owner v
    | some r => ∃ v, assemble f w = .error r.unresolved v ∧ u.SameButPointers v := by
  have hbuild := build_of_buildTo h
  have htree := World.isTreeOf_of_build hbuild
  have hresolve := htree.resolve_references hf
  have hpointers := World.preserves_sameButPointers_resolve u
    (collectPaths u u.treeDepth p.owner Table.empty) u.treeDepth p.owner u (.refl u)
  have hassemble : assemble f w
      = (resolve (collectPaths u u.treeDepth p.owner Table.empty) u.treeDepth p.owner >>= fun _ ↦ do
          World.linkTree p.owner
          pure p.owner) u :=
    Run.bind_of_ok hbuild _
  cases hfirst : f.references.find? fun r ↦ (f.target? r).isNone with
  | none =>
    rw [hfirst] at hresolve
    obtain ⟨v, hrun⟩ := hresolve
    rw [hrun] at hpointers
    -- Resolving sets pointers only, so the tree that is linked is the one that was built.
    have hv : u.SameButPointers v := (hpointers trivial).1
    obtain ⟨v', hlink⟩ := htree.exists_linkTree (ε := CompileError) hv.samePlaces
    rw [hassemble, Run.bind_of_ok hrun, Run.bind_of_ok hlink]
    exact ⟨v', rfl⟩
  | some r =>
    rw [hfirst] at hresolve
    obtain ⟨v, hrun⟩ := hresolve
    rw [hrun] at hpointers
    rw [hassemble, Run.bind_of_error hrun]
    exact ⟨v, rfl, (hpointers trivial).1⟩

/-- The error is that of the first fault. -/
theorem firstFault_of_assemble (hf : f.WellFormed enums) (h : assemble f w = .error e w') :
    f.FirstFault w e w' := by
  -- Only a frame that has been built is resolved: a reference is the fault if no declaration is.
  cases hrun : f.buildTo f.steps w with
  | ok p u =>
    have hassemble := assemble_of_buildTo hf hrun
    cases hfirst : f.references.find? fun r ↦ (f.target? r).isNone with
    | none =>
      rw [hfirst] at hassemble
      obtain ⟨v, hok⟩ := hassemble
      rw [h] at hok
      cases hok
    | some r =>
      rw [hfirst] at hassemble
      obtain ⟨v, herror, hpointers⟩ := hassemble
      rw [h] at herror
      cases herror
      obtain ⟨hr, before, after, hreferences, hbefore⟩ := List.find?_eq_some_iff_append.1 hfirst
      refine .reference hrun hreferences (fun q hq ↦ ?_) (Option.isNone_iff_eq_none.1 hr) hpointers
      simpa using hbefore q hq
  | error e' u =>
    rw [assemble_of_buildTo_error hrun] at h
    cases h
    obtain ⟨before, d, after, p, v, hsteps, hbefore, hoffends⟩ := Frame.buildTo_eq_error_iff.1 hrun
    exact .declaration hsteps hbefore hoffends
  | exhausted u =>
    rw [assemble_of_buildTo_exhausted hrun] at h
    cases h

/-- A fault is an error. -/
theorem Frame.FirstFault.exists_assemble (hf : f.WellFormed enums) (h : f.FirstFault w e w') :
    ∃ v, assemble f w = .error e v := by
  cases h with
  | declaration hsteps hbefore hoffends =>
    exact ⟨w', assemble_of_buildTo_error
      (Frame.buildTo_eq_error_iff.2 ⟨_, _, _, _, _, hsteps, hbefore, hoffends⟩)⟩
  | @reference before after r p u _ hbuild hreferences hbefore hr _ =>
    have hassemble := assemble_of_buildTo hf hbuild
    have hfirst : f.references.find? (fun r ↦ (f.target? r).isNone) = some r := by
      refine List.find?_eq_some_iff_append.2 ⟨Option.isNone_iff_eq_none.2 hr, before, after,
        hreferences, fun q hq ↦ ?_⟩
      simpa using hbefore q hq
    rw [hfirst] at hassemble
    obtain ⟨v, herror, -⟩ := hassemble
    exact ⟨v, herror⟩

/-- A frame is assembled if and only if it has no fault. -/
theorem exists_assemble_iff (hf : f.WellFormed enums) (w : World) :
    (∃ root u, assemble f w = .ok root u) ↔ (∀ g ∈ f.frames, g.NamesDiffer) ∧
      f.ScriptsYieldFunctions w ∧ ∀ r ∈ f.references, (f.target? r).isSome := by
  have hreferences : (f.references.find? fun r ↦ (f.target? r).isNone) = none ↔
      ∀ r ∈ f.references, (f.target? r).isSome := by
    simp [Option.isSome_iff_ne_none]
  rw [← and_assoc, ← f.exists_buildTo_iff w, ← hreferences]
  constructor
  · rintro ⟨root, v, h⟩
    cases hrun : f.buildTo f.steps w with
    | ok p u =>
      refine ⟨⟨p, u, rfl⟩, ?_⟩
      have hassemble := assemble_of_buildTo hf hrun
      cases hfirst : f.references.find? fun r ↦ (f.target? r).isNone with
      | none => rfl
      | some r =>
        rw [hfirst] at hassemble
        obtain ⟨v', herror, -⟩ := hassemble
        rw [h] at herror
        cases herror
    | error e u =>
      rw [assemble_of_buildTo_error hrun] at h
      cases h
    | exhausted u =>
      rw [assemble_of_buildTo_exhausted hrun] at h
      cases h
  · rintro ⟨⟨p, u, hrun⟩, hfirst⟩
    have hassemble := assemble_of_buildTo hf hrun
    rw [hfirst] at hassemble
    obtain ⟨v, hok⟩ := hassemble
    exact ⟨p.owner, v, hok⟩

/-- Running the listeners of the frame once, when it has been assembled, comes to an end. -/
def Frame.SeedingEnds (f : Frame) (w : World) : Prop :=
  ∀ root u, assemble f w = .ok root u →
    ∃ v, (World.seedTree root : Effect CompileError Unit) u = .ok () v

theorem exists_compileObject_iff :
    (∃ root w', compileObject f w = .ok root w') ↔
      (∃ root u, assemble f w = .ok root u) ∧ f.SeedingEnds w := by
  constructor
  · rintro ⟨root, w', h⟩
    obtain ⟨u, hassemble, hseed⟩ := exists_assemble_of_compileObject h
    refine ⟨⟨root, u, hassemble⟩, fun root u hassemble' ↦ ?_⟩
    cases hassemble.symm.trans hassemble'
    exact ⟨w', hseed⟩
  · rintro ⟨⟨root, u, hassemble⟩, hends⟩
    obtain ⟨v, hseed⟩ := hends root u hassemble
    refine ⟨root, v, ?_⟩
    rw [compileObject, Run.bind_of_ok hassemble, Run.bind_of_ok hseed]
    rfl

end Faults

namespace World

/-- A frame with all faults. In a nested frame a listener looks at an object that is not there and a
function is no program, and afterwards a name comes a second time. -/
def faulty : String :=
  "top: T \x7b p: P \x7b y: Listner(a: self.q.x) -> Int %\x7b return a %\x7d, " ++
    "f: Func(a) %\x7b return ) %\x7d \x7d, x: Int 1, x: Int 2 \x7d"

end World

end ReactiveFrames
