import ReactiveFrames.Program
import ReactiveFrames.Proofs.Reactive.Guard

/-!
# Worlds that a host can reach

A property of objects is lasting if new objects have it and if it lasts whatever becomes of an
object: it sees the observers and the guards only, and one more listener as an observer is no harm
to it. Everything that compiles and runs programs preserves it for all objects, by the structure of
frames, trees of objects and components. Two such properties matter: that no guard is in place, and
that all observers are listeners.

`World.Reachable` are the worlds that a host comes to between its own actions, while no write is
under way. In none of them is a guard in place (`World.Reachable.notifying_eq_nil`).
-/

open Filter

namespace ReactiveFrames

open Script (Value)
open Script.Machine (pinningValues)

/-! ## Properties of worlds that last -/

namespace World

/-- What is done at every object preserves a property of worlds, so a visit of a tree does. -/
theorem preserves_visit {ε : Type} {I : World → Prop} {act : ObjectRef → Effect ε Unit}
    (hact : ∀ o, Run.Preserves I (act o)) (depth : Nat) (o : ObjectRef) :
    Run.Preserves I (visit act depth o) := by
  induction depth generalizing o with
  | zero => exact .exhaust
  | succ depth ih =>
    exact Run.Tracks.state.bind fun _ ↦ (Run.Tracks.forM fun c _ ↦ ih c).bind fun _ ↦ hact o

/-- What becomes of a world while nothing runs: values are pinned, and failures are counted and
reported. -/
structure Tidies (w w' : World) : Prop where
  objects : w'.host.objects = w.host.objects
  held : w'.host.held = w.host.held
  foreigns : w'.host.foreigns = w.host.foreigns
  maxDepth : w'.maxDepth = w.maxDepth
  heap : w'.heap = w.heap

namespace Tidies

theorem pins (w : World) (p : List Script.Pin) : w.Tidies { w with pins := p } :=
  ⟨rfl, rfl, rfl, rfl, rfl⟩

theorem failures (w : World) (n : Nat) : w.Tidies { w with failures := n } :=
  ⟨rfl, rfl, rfl, rfl, rfl⟩

theorem report (e : ObserverError) (w : World) : w.Tidies (w.report e) :=
  ⟨rfl, rfl, rfl, rfl, rfl⟩

theorem drifts {w w' : World} (h : w.Tidies w') : w.Drifts w' :=
  ⟨h.objects, h.held, h.foreigns, h.maxDepth, .of_closures_eq (by rw [h.heap])⟩

end Tidies

/-- A property of worlds that lasts while scripts and listeners run and properties are written. -/
structure ScriptClosed (I : World → Prop) : Prop where
  tidies : ∀ w w', w.Tidies w' → I w → I w'
  evaluate : ∀ source, Run.Preserves I (World.evaluate source)
  call : ∀ f arguments, Run.Preserves I (World.call f arguments)
  set : ∀ o p v, Run.Preserves I (World.set o p v)
  invoke : ∀ owner listener, Run.Preserves I (World.invoke owner listener)

namespace ScriptClosed

variable {I : World → Prop} (h : ScriptClosed I) {ε : Type}

include h

theorem fire (owner : ObjectRef) (listener : String) :
    Run.Preserves I (World.fire owner listener : Effect ε Unit) :=
  tracks_reporting_of (fun e w ↦ h.tidies w _ (.report e w)) (h.invoke owner listener)

theorem seedListeners (o : ObjectRef) :
    Run.Preserves I (World.seedListeners o : Effect ε Unit) :=
  Run.Tracks.state.bind fun _ ↦ Run.Tracks.forM fun name _ ↦ h.fire o name

theorem seedTree (o : ObjectRef) : Run.Preserves I (World.seedTree o : Effect ε Unit) := by
  intro w hw hr
  have hvisit := preserves_visit (h.seedListeners (ε := ε)) w.treeDepth o
  unfold World.seedTree at hr ⊢
  exact ⟨(hvisit w hw hr).1, .of_forall fun _ ↦ rfl⟩

end ScriptClosed

/-- A property of worlds that lasts while properties are written, and in between. -/
structure WriteClosed (I : World → Prop) : Prop where
  drifts : DriftClosed I
  set : ∀ o p v, Run.Preserves I (World.set o p v)

namespace WriteClosed

variable {I : World → Prop} (h : WriteClosed I)

include h

theorem access : World.access.Tracks I fun _ ↦ World.access where
  read _ _ _ _ := .of_forall fun _ ↦ rfl
  write := h.set

theorem evaluate (source : String) : Run.Preserves I (World.evaluate source) :=
  Script.tracks_evaluate h.drifts.growthClosed (h.access.host h.drifts)
    (.of_forall fun _ ↦ le_rfl) source

theorem call (f : Value) (arguments : List Value) : Run.Preserves I (World.call f arguments) :=
  Script.tracks_callValue h.drifts.growthClosed (h.access.host h.drifts)
    (.of_forall fun _ ↦ le_rfl) f arguments

theorem scriptClosed : ScriptClosed I where
  tidies w w' htidies := h.drifts w w' htidies.drifts
  evaluate := h.evaluate
  call := h.call
  set := h.set
  invoke := tracks_invokeListener h.drifts h.access (.of_forall fun _ ↦ le_rfl)

end WriteClosed

end World

/-! ## Lasting properties of objects -/

/-- The property lasts whatever becomes of an object. -/
structure ReactiveObject.Lasting (P : ReactiveObject → Prop) : Prop where
  ofFrame : ∀ f path, P (.ofFrame f path)
  congr : ∀ x y : ReactiveObject, y.observers = x.observers → y.notifying = x.notifying → P x → P y
  listener : ∀ x p owner name, P x → P (x.addObserver p (.listener owner name))

/-- All objects have the property. -/
def World.Everywhere (P : ReactiveObject → Prop) (w : World) : Prop := ∀ o, P (w.object o)

/-! ## Init functions -/

section RunInit

variable {o : ObjectRef} {argument : Option Value} {init : String × Value} {w u : World}

theorem runInit_of_error {e : Script.ScriptError}
    (h : World.call init.2 (w.toValue o :: argument.toList) w = .error e u) :
    runInit o argument init w = .error ⟨(w.object o).path, init.1, e⟩ { u with failures := 0 } := by
  simp only [runInit, Bind.bind, Run.bind, Run.state, Run.attempt, h]
  rfl

/-- What an init function returns is stored under its name, unless it is undefined. -/
theorem runInit_of_ok {v : Value}
    (h : World.call init.2 (w.toValue o :: argument.toList) w = .ok v u) :
    runInit o argument init w = if v.isUndefined then .ok () { u with failures := 0 }
      else reporting (World.set o init.1 v) { u with failures := 0 } := by
  simp only [runInit, Bind.bind, Run.bind, Run.state, Run.attempt, h]
  cases v <;> rfl

theorem runInit_of_exhausted
    (h : World.call init.2 (w.toValue o :: argument.toList) w = .exhausted u) :
    runInit o argument init w = .exhausted u := by
  simp only [runInit, Bind.bind, Run.bind, Run.state, Run.attempt, h]

end RunInit

mutual

/-- The init functions of a tree of components preserve what those of one object do. -/
theorem preserves_runInitTree {I : World → Prop} {argument : Option Value}
    (h : ∀ o, Run.Preserves I (runInits o argument)) (c : Component) :
    Run.Preserves I (c.runInitTree argument) := by
  match c with
  | .mk object children => exact (preserves_runInitForest h children).bind fun _ ↦ h object

theorem preserves_runInitForest {I : World → Prop} {argument : Option Value}
    (h : ∀ o, Run.Preserves I (runInits o argument)) (cs : List Component) :
    Run.Preserves I (Component.runInitForest argument cs) := by
  match cs with
  | [] => exact .pure ()
  | c :: cs =>
    exact (preserves_runInitTree h c).bind fun _ ↦ preserves_runInitForest h cs

end

namespace World.ScriptClosed

variable {I : World → Prop} (h : ScriptClosed I)

include h

theorem runInit (o : ObjectRef) (argument : Option Value) (init : String × Value) :
    Run.Preserves I (ReactiveFrames.runInit o argument init) := by
  have hreset : Run.Preserves I (Script.resetFailures : Effect ExecuteError Unit) :=
    .update fun w hw ↦ h.tidies w _ (.failures w 0) hw
  refine Run.Tracks.state.bind fun w ↦ (h.call _ _).attempt.bind fun result ↦
    hreset.bind fun _ ↦ ?_
  cases result with
  | error e => exact .fail _
  | ok v =>
    cases v with
    | undefined => exact .pure ()
    | _ => exact tracks_reporting_of (fun e w ↦ h.tidies w _ (.report e w)) (h.set o init.1 _)

theorem runInits (o : ObjectRef) (argument : Option Value) :
    Run.Preserves I (ReactiveFrames.runInits o argument) :=
  Run.Tracks.state.bind fun _ ↦ Run.Tracks.forM fun init _ ↦ h.runInit o argument init

theorem execute (argument : Option Value) (c : Component) :
    Run.Preserves I (ReactiveFrames.execute argument c) :=
  Script.tracks_pinning_of (fun w p ↦ h.tidies w _ (.pins w p)) _ <|
    (preserves_runInitTree (fun o ↦ h.runInits o argument) c).bind fun _ ↦ h.seedTree c.object

end World.ScriptClosed

/-! ## Building -/

/-- Compiling a function member is no more than running a script. -/
theorem preserves_compileFunction {I : World → Prop}
    (hI : ∀ (w : World) n, I w → I { w with failures := n })
    (hevaluate : ∀ source, Run.Preserves I (World.evaluate source)) (path name : String)
    (f : Function) (n : Nat) : Run.Preserves I (compileFunction path name f n) := by
  have hreset : Run.Preserves I (Script.resetFailures : Effect CompileError Unit) :=
    .update fun w hw ↦ hI w 0 hw
  refine hreset.bind fun _ ↦ (hevaluate _).attempt.bind fun result ↦ Run.Tracks.state.bind
    fun _ ↦ hreset.bind fun _ ↦ ?_
  cases result with
  | error e => exact .fail _
  | ok callable =>
    dsimp only
    split
    · exact .fail _
    · exact .pure _

/-- A property of worlds that lasts while objects are built: it does not see the arrays and records
in the heap, and of an object only the observers and the guards. -/
structure World.BuildClosed (I : World → Prop) : Prop where
  congr : ∀ w w' : World, w'.host = w.host → w.heap.SameVariables w'.heap → I w → I w'
  modify : ∀ (w : World) (o : ObjectRef) (f : ReactiveObject → ReactiveObject),
    (f (w.object o)).observers = (w.object o).observers →
    (f (w.object o)).notifying = (w.object o).notifying → I w → I (w.modify o f)
  addObject : ∀ f path w, I w → I (World.addObject (.ofFrame f path) w).2
  evaluate : ∀ source, Run.Preserves I (World.evaluate source)

namespace World.BuildClosed

variable {I : World → Prop}

theorem recordMember (h : BuildClosed I) (o : ObjectRef) (path name : String) :
    Run.Preserves I (ReactiveFrames.recordMember o path name) := by
  refine .of_preserves fun w hw ↦ ?_
  unfold ReactiveFrames.recordMember ReactiveObject.addMemberName?
  split_ifs
  · exact hw
  · exact h.modify w o _ rfl rfl hw

theorem storeFunction (h : BuildClosed I) {w : World} (hw : I w) (o : ObjectRef) (name : String)
    (f : Function) (callable : Value) : I (ReactiveFrames.storeFunction o name f callable w) := by
  cases f with
  | init => exact h.modify w o _ rfl rfl hw
  | listener => exact h.modify w o _ rfl rfl hw
  | event => exact h.modify w o _ rfl rfl hw
  | procedure => exact h.modify w o _ rfl rfl hw

theorem storeLiteral (h : BuildClosed I) {w : World} (hw : I w) (o : ObjectRef) (name : String)
    (value : Literal) : I (ReactiveFrames.storeLiteral o name value w) :=
  h.modify _ o (·.define name _) rfl rfl (h.congr w _ rfl (value.sameVariables_toValue w.heap) hw)

mutual

theorem buildMember (h : BuildClosed I) (o : ObjectRef) (path : String) (n : Nat) (m : Member) :
    Run.Preserves I (ReactiveFrames.buildMember o path n m) := by
  match m with
  | .property name _ _ value =>
    exact (h.recordMember o path name).bind fun _ ↦
      (Run.Tracks.update (I := I) fun _ hw ↦ h.storeLiteral hw o name value).bind fun _ ↦ .pure n
  | .function name _ f =>
    have hfailures (w : World) (n : Nat) (hw : I w) : I { w with failures := n } :=
      h.congr w _ rfl (.refl _) hw
    exact (h.recordMember o path name).bind fun _ ↦
      (preserves_compileFunction hfailures h.evaluate path name f n).bind fun callable ↦
        (Run.Tracks.update (I := I) fun _ hw ↦ h.storeFunction hw o name f callable).bind
          fun _ ↦ .pure _
  | .frame name _ className members =>
    exact (h.recordMember o path name).bind fun _ ↦
      (Run.Tracks.step fun w hw ↦ h.addObject _ _ w hw).bind fun child ↦
        (h.buildMembers child _ n members).bind fun _ ↦
          (Run.Tracks.update (I := I) fun w hw ↦
            h.modify _ o _ rfl rfl (h.modify w o _ rfl rfl hw)).bind fun _ ↦ .pure _

theorem buildMembers (h : BuildClosed I) (o : ObjectRef) (path : String) (n : Nat)
    (ms : List Member) : Run.Preserves I (ReactiveFrames.buildMembers o path n ms) := by
  match ms with
  | [] => exact .pure n
  | m :: ms => exact (h.buildMember o path n m).bind fun n ↦ h.buildMembers o path n ms

end

theorem build (h : BuildClosed I) (f : Frame) : Run.Preserves I (ReactiveFrames.build f) :=
  (Run.Tracks.step fun w hw ↦ h.addObject _ _ w hw).bind fun root ↦
    (h.buildMembers root f.instanceName 0 f.members).bind fun _ ↦ .pure root

end World.BuildClosed

/-! ## Compiling and executing -/

/-- A property of worlds that lasts while frames are compiled. -/
structure World.CompileClosed (I : World → Prop) : Prop where
  script : World.ScriptClosed I
  build : World.BuildClosed I
  link : ∀ owner listener w, I w → I (World.link owner listener w)
  bindGlobal : ∀ name v (w : World), I w → I (w.mapHeap (·.bindGlobal name v))

namespace World.CompileClosed

variable {I : World → Prop} (h : CompileClosed I) {ε : Type}

include h

theorem linkListeners (o : ObjectRef) :
    Run.Preserves I (World.linkListeners o : Effect ε Unit) :=
  Run.Tracks.state.bind fun _ ↦
    Run.Tracks.forM fun name _ ↦ .update fun w hw ↦ h.link o name w hw

theorem linkTree (o : ObjectRef) : Run.Preserves I (World.linkTree o : Effect ε Unit) := by
  intro w hw hr
  have hvisit := World.preserves_visit (h.linkListeners (ε := ε)) w.treeDepth o
  unfold World.linkTree at hr ⊢
  exact ⟨(hvisit w hw hr).1, .of_forall fun _ ↦ rfl⟩

theorem resolveListeners (objects : Table ObjectRef) (o : ObjectRef) (ms : List Member) :
    Run.Preserves I (ReactiveFrames.resolveListeners objects o ms) := by
  induction ms with
  | nil => exact .pure ()
  | cons m ms ih =>
    unfold ReactiveFrames.resolveListeners
    split
    · exact .pure ()
    · next heq =>
      cases heq
      exact Run.Tracks.state.bind fun _ ↦ (Run.Tracks.ofExcept _).bind fun pointers ↦
        (Run.Tracks.update fun w hw ↦ h.build.modify w o _ rfl rfl hw).bind fun _ ↦ ih
    · next heq =>
      cases heq
      exact ih

theorem resolve (objects : Table ObjectRef) (depth : Nat) (o : ObjectRef) :
    Run.Preserves I (ReactiveFrames.resolve objects depth o) := by
  induction depth generalizing o with
  | zero => exact .exhaust
  | succ depth ih =>
    exact Run.Tracks.state.bind fun _ ↦
      (h.resolveListeners objects o _).bind fun _ ↦ Run.Tracks.forM fun c _ ↦ ih c

theorem assemble (f : Frame) : Run.Preserves I (ReactiveFrames.assemble f) :=
  (h.build.build f).bind fun root ↦ Run.Tracks.state.bind fun _ ↦
    (h.resolve _ _ root).bind fun _ ↦ (h.linkTree root).bind fun _ ↦ .pure root

theorem compileObject (f : Frame) : Run.Preserves I (ReactiveFrames.compileObject f) :=
  (h.assemble f).bind fun root ↦ (h.script.seedTree root).bind fun _ ↦ .pure root

theorem compile (registry : ComponentRegistry) (f : Frame) :
    Run.Preserves I (ReactiveFrames.compile registry f) := by
  refine (h.compileObject f).bind fun root ↦ Run.Tracks.bind (fun w hw hr ↦ ?_)
    fun component ↦ (Run.Tracks.update fun w hw ↦ h.bindGlobal _ _ w hw).bind fun _ ↦ .pure _
  exact Run.Tracks.ofExcept _ w hw hr

end World.CompileClosed

section Lasting

variable {P : ReactiveObject → Prop} (hP : ReactiveObject.Lasting P) {ε : Type}

namespace World.Everywhere

variable {w w' : World}

theorem of_objects (h : w.Everywhere P) (heq : w'.host.objects = w.host.objects) :
    w'.Everywhere P := fun o ↦ by
  have hobject : w'.object o = w.object o := by
    rw [object, object, ObjectGraph.object, ObjectGraph.object, heq]
  exact hobject ▸ h o

theorem modify (h : w.Everywhere P) (o : ObjectRef) {f : ReactiveObject → ReactiveObject}
    (hf : P (f (w.object o))) : (w.modify o f).Everywhere P := fun a ↦ by
  rw [object_modify]
  split_ifs with ha
  · exact ha.1.symm ▸ hf
  · exact h a

include hP

theorem keeps (h : w.Everywhere P) (hk : w.Keeps w') : w'.Everywhere P := fun o ↦
  hP.congr _ _ (hk.observers o) (hk.notifying o) (h o)

theorem define (h : w.Everywhere P) (o : ObjectRef) (p : String) (v : Value) :
    (w.define o p v).Everywhere P :=
  h.modify o (hP.congr (w.object o) _ rfl rfl (h o))

theorem addObject (h : w.Everywhere P) (f : Frame) (path : String) :
    (World.addObject (.ofFrame f path) w).2.Everywhere P := fun o ↦ by
  have hget : (World.addObject (.ofFrame f path) w).2.object o
      = ((w.host.objects.push (.ofFrame f path))[o.index]?).getD default := rfl
  rw [hget, Array.getElem?_push]
  split_ifs
  · exact hP.ofFrame f path
  · exact h o

theorem linkPointer (h : w.Everywhere P) (owner : ObjectRef) (listener : String) (p : Pointer) :
    (World.linkPointer owner listener w p).Everywhere P := by
  rw [World.linkPointer]
  split
  · exact h.modify _ (hP.listener _ _ _ _ (h _))
  · exact h.of_objects rfl

theorem link (h : w.Everywhere P) (owner : ObjectRef) (listener : String) :
    (World.link owner listener w).Everywhere P := by
  rw [World.link]
  generalize ((w.object owner).pointers.find? listener).getD [] = ps
  induction ps generalizing w with
  | nil => exact h
  | cons p ps ih => exact ih (h.linkPointer hP owner listener p)

end World.Everywhere

/-! ## Writes and scripts -/

include hP

omit hP in
theorem driftClosed_everywhere : World.DriftClosed (World.Everywhere P) := fun _ _ hd h ↦
  h.of_objects hd.objects

theorem preserves_set (o : ObjectRef) (p : String) (v : Value) :
    Run.Preserves (World.Everywhere P) (World.set o p v) := fun w hw hr ↦
  ⟨hw.keeps hP (keeps_setWithin _ _ _ o p v w hr), .of_forall fun _ ↦ rfl⟩

theorem writeClosed_everywhere : World.WriteClosed (World.Everywhere P) where
  drifts := driftClosed_everywhere
  set := preserves_set hP

/-! ## Compiling -/

theorem compileClosed_everywhere : World.CompileClosed (World.Everywhere P) where
  script := (writeClosed_everywhere hP).scriptClosed
  build := {
    congr := fun _ _ heq _ hw ↦ hw.of_objects (congrArg ObjectGraph.objects heq)
    modify := fun _ o _ hobservers hnotifying hw ↦
      hw.modify o (hP.congr _ _ hobservers hnotifying (hw o))
    addObject := fun f path _ hw ↦ hw.addObject hP f path
    evaluate := (writeClosed_everywhere hP).evaluate }
  link owner listener _ hw := hw.link hP owner listener
  bindGlobal _ _ _ hw := hw.of_objects rfl

end Lasting

/-! ## Reachable worlds -/

/-- Worlds that a host comes to by compiling frames, executing programs, running scripts and
listeners, writing and observing properties, while no write is under way. -/
inductive World.Reachable : World → Prop
  | create (maxDepth capacity : Nat) : Reachable (World.create maxDepth capacity)
  | defineForeign {w : World} (name : String) (f : Foreign) (hw : Reachable w) :
      Reachable (w.defineForeign name f)
  | compile {w : World} (registry : ComponentRegistry) (f : Frame) (hw : Reachable w)
      (hr : (compile registry f w).Returns) : Reachable (compile registry f w).state
  | execute {w : World} (argument : Option Value) (c : Component) (hw : Reachable w)
      (hr : (execute argument c w).Returns) : Reachable (execute argument c w).state
  | seedTree {w : World} (o : ObjectRef) (hw : Reachable w)
      (hr : (World.seedTree o w : Outcome World ObserverError Unit).Returns) :
      Reachable (World.seedTree o w : Outcome World ObserverError Unit).state
  | evaluate {w : World} (source : String) (hw : Reachable w)
      (hr : (World.evaluate source w).Returns) : Reachable (World.evaluate source w).state
  | call {w : World} (f : Value) (arguments : List Value) (hw : Reachable w)
      (hr : (World.call f arguments w).Returns) : Reachable (World.call f arguments w).state
  | fire {w : World} (owner : ObjectRef) (listener : String) (hw : Reachable w)
      (hr : (World.fire owner listener w : Outcome World ObserverError Unit).Returns) :
      Reachable (World.fire owner listener w : Outcome World ObserverError Unit).state
  | set {w : World} (o : ObjectRef) (p : String) (v : Value) (hw : Reachable w)
      (hr : (World.set o p v w).Returns) : Reachable (World.set o p v w).state
  | define {w : World} (o : ObjectRef) (p : String) (v : Value) (hw : Reachable w) :
      Reachable (w.define o p v)
  | observe {w : World} (o : ObjectRef) (p : String) (observer : Observer) (hw : Reachable w) :
      Reachable (w.modify o (·.addObserver p observer))
  | report {w : World} (e : ObserverError) (hw : Reachable w) : Reachable (w.report e)
  | letGo {w : World} (o : ObjectRef) (hw : Reachable w) : Reachable (w.letGo o)

/-- No guard is in place for an object. -/
def ReactiveObject.Unguarded (o : ReactiveObject) : Prop := o.notifying = []

theorem ReactiveObject.lasting_unguarded : ReactiveObject.Lasting Unguarded where
  ofFrame _ _ := rfl
  congr _ _ _ hn hx := hn.trans hx
  listener _ _ _ _ hx := hx

theorem ReactiveObject.observersOf_addObserver (x : ReactiveObject) (p q : String)
    (observer : Observer) : (x.addObserver p observer).observersOf q
      = if q = p then x.observersOf p ++ [observer] else x.observersOf q := by
  rw [observersOf, addObserver, Table.find?_insert]
  split_ifs <;> rfl

/-- All observers of an object are listeners. -/
def ReactiveObject.OnlyListeners (o : ReactiveObject) : Prop :=
  ∀ p, ∀ observer ∈ o.observersOf p, ∃ owner name, observer = .listener owner name

theorem ReactiveObject.lasting_onlyListeners : ReactiveObject.Lasting OnlyListeners where
  ofFrame _ _ _ _ h := (List.not_mem_nil h).elim
  congr x y ho _ hx p observer h := hx p observer (by rwa [observersOf, ← ho])
  listener x p owner name hx q observer h := by
    rw [observersOf_addObserver] at h
    split_ifs at h with hq
    · rcases List.mem_append.1 h with h | h
      · exact hx p observer h
      · exact ⟨owner, name, List.mem_singleton.1 h⟩
    · exact hx q observer h

/-- In a world that a host can reach, no guard is in place. -/
theorem World.Reachable.notifying_eq_nil {w : World} (h : w.Reachable) (o : ObjectRef) :
    (w.object o).notifying = [] := by
  have hlast := ReactiveObject.lasting_unguarded
  have hclosed := compileClosed_everywhere hlast
  suffices hw : w.Everywhere ReactiveObject.Unguarded from hw o
  induction h with
  | create => exact fun _ ↦ rfl
  | defineForeign _ _ _ ih => exact ih.of_objects rfl
  | compile registry f _ hr ih => exact (hclosed.compile registry f).state_of_returns ih hr
  | execute argument c _ hr ih => exact (hclosed.script.execute argument c).state_of_returns ih hr
  | seedTree o _ hr ih => exact (hclosed.script.seedTree o).state_of_returns ih hr
  | evaluate source _ hr ih => exact (hclosed.script.evaluate source).state_of_returns ih hr
  | call f arguments _ hr ih => exact (hclosed.script.call f arguments).state_of_returns ih hr
  | fire owner l _ hr ih => exact (hclosed.script.fire owner l).state_of_returns ih hr
  | set o p v _ hr ih => exact (hclosed.script.set o p v).state_of_returns ih hr
  | define o p v _ ih => exact ih.define hlast o p v
  | observe o p observer _ ih => exact ih.modify o (ih o)
  | report _ _ ih => exact ih.of_objects rfl
  | letGo _ _ ih => exact ih.of_objects rfl

end ReactiveFrames
