import ReactiveFrames.Proofs.Reactive.Depth
import ReactiveFrames.Proofs.Reactive.ObjectTree

/-!
# Building a frame one member at a time

A frame is built by recursion over its members, and over the members of the nested frames. The
members come in the order in which they are declared, those of a nested frame in the place of the
frame: building a frame is the same as going through a list of steps (`build_eq_buildTo`). Each step
declares a member, or completes a nested frame after its last member.

A step that declares a member fails if an earlier member of the frame has the same name, or if the
member is a function whose script does not evaluate to something that can be called. That is all
that can go wrong, and it ends the building.

## Main definitions

* `Declaration`, `BuildStep`: a member in its place, and what there is to do for it.
* `Frame.steps`: the steps of a frame, in order.
* `Declaration.Offends`: why a member cannot be declared.

## Main statements

* `Frame.map_declarations`: members are declared in the order of `Frame.preorder`.
* `build_eq_buildTo`: building a frame is going through its steps.
* `Frame.exists_buildTo_iff`: a frame is built if and only if the members of every frame differ in
  name and the scripts of all functions yield functions.
* `Frame.buildTo_eq_error_iff`: else the error is that of the first member that cannot be declared.
-/

namespace ReactiveFrames

open Script (Value)

/-! ## Steps -/

/-- A member in its place. -/
structure Declaration where
  /-- Path of the object that the member belongs to. -/
  path : String
  /-- Names of the members of the same frame before it. -/
  earlier : List String
  member : Member

/-- What there is to do at one time while a frame is built. -/
inductive BuildStep where
  | declare (d : Declaration)
  /-- The innermost frame has no more members. -/
  | complete

mutual

/-- Steps of a member after the given ones, with those of a nested frame in its place. -/
def Member.steps (path : String) (earlier : List String) : Member → List BuildStep
  | .property name line type value => [.declare ⟨path, earlier, .property name line type value⟩]
  | .function name line f => [.declare ⟨path, earlier, .function name line f⟩]
  | .frame name line className members =>
    .declare ⟨path, earlier, .frame name line className members⟩ ::
      (Member.stepsList (path ++ "." ++ name) [] members ++ [.complete])

/-- Steps of members one after the other. -/
def Member.stepsList (path : String) (earlier : List String) : List Member → List BuildStep
  | [] => []
  | m :: ms => Member.steps path earlier m ++ Member.stepsList path (earlier ++ [m.name]) ms

end

/-- Steps of a frame. -/
def Frame.steps (f : Frame) : List BuildStep := Member.stepsList f.instanceName [] f.members

/-- What a step declares. -/
def BuildStep.declaration? : BuildStep → Option Declaration
  | declare d => some d
  | complete => none

/-- All members of a frame and of the frames in it, in the order in which they are declared. -/
def Frame.declarations (f : Frame) : List Declaration := f.steps.filterMap BuildStep.declaration?

section Order

/-- Path of the member itself, and the member. -/
def Declaration.located (d : Declaration) : String × Member :=
  (d.path ++ "." ++ d.member.name, d.member)

mutual

theorem Member.map_declarations (path : String) (earlier : List String) (m : Member) :
    ((m.steps path earlier).filterMap BuildStep.declaration?).map Declaration.located
      = m.preorder path := by
  match m with
  | .property .. => rfl
  | .function .. => rfl
  | .frame name line className members =>
    have hmembers := Member.map_declarationsList (path ++ "." ++ name) [] members
    simp only [Member.steps, Member.preorder, List.filterMap_cons, List.filterMap_append,
      BuildStep.declaration?, List.filterMap_nil, List.append_nil, List.map_cons, hmembers]
    rfl

theorem Member.map_declarationsList (path : String) (earlier : List String) (ms : List Member) :
    ((Member.stepsList path earlier ms).filterMap BuildStep.declaration?).map Declaration.located
      = Member.preorderList path ms := by
  match ms with
  | [] => rfl
  | m :: ms =>
    rw [Member.stepsList, Member.preorderList, List.filterMap_append, List.map_append,
      Member.map_declarations path earlier m, Member.map_declarationsList path _ ms]

end

/-- Members are declared in the order in which they stand in the source. -/
theorem Frame.map_declarations (f : Frame) :
    f.declarations.map Declaration.located = f.preorder :=
  Member.map_declarationsList f.instanceName [] f.members

/-- A frame and all frames in it. -/
def Frame.frames (f : Frame) : List Frame := f :: f.preorder.filterMap fun p ↦ p.2.frame?

/-- Members of one frame have different names. -/
def Frame.NamesDiffer (f : Frame) : Prop := (f.members.map Member.name).Nodup

/-- The names of the members of all frames among these differ. -/
private abbrev AllDiffer (ps : List (String × Member)) : Prop :=
  ∀ g ∈ ps.filterMap fun p ↦ p.2.frame?, g.NamesDiffer

mutual

theorem Member.forall_notMem_earlier_iff (path : String) (earlier : List String) (m : Member) :
    (∀ d, .declare d ∈ m.steps path earlier → d.member.name ∉ d.earlier) ↔
      m.name ∉ earlier ∧ AllDiffer (m.preorder path) := by
  match m with
  | .property .. => simp [Member.steps, Member.preorder, AllDiffer, Member.frame?]
  | .function .. => simp [Member.steps, Member.preorder, AllDiffer, Member.frame?]
  | .frame name line className members =>
    have hmembers := Member.forall_notMem_earlierList_iff (path ++ "." ++ name) [] members
    have hsteps (d : Declaration) : .declare d ∈ Member.steps path earlier
        (.frame name line className members) ↔
          d = ⟨path, earlier, .frame name line className members⟩ ∨
          .declare d ∈ Member.stepsList (path ++ "." ++ name) [] members := by
      simp [Member.steps]
    simp only [hsteps, or_imp, forall_and, forall_eq, hmembers, List.not_mem_nil, not_false_eq_true,
      implies_true, true_and]
    refine and_congr_right fun _ ↦ ?_
    simp only [AllDiffer, Member.preorder, List.filterMap_cons, Member.frame?,
      List.forall_mem_cons]
    rfl

theorem Member.forall_notMem_earlierList_iff (path : String) (earlier : List String)
    (ms : List Member) :
    (∀ d, .declare d ∈ Member.stepsList path earlier ms → d.member.name ∉ d.earlier) ↔
      (∀ m ∈ ms, m.name ∉ earlier) ∧ (ms.map Member.name).Nodup ∧
        AllDiffer (Member.preorderList path ms) := by
  match ms with
  | [] => simp [Member.stepsList, Member.preorderList, AllDiffer]
  | m :: ms =>
    have hm := Member.forall_notMem_earlier_iff path earlier m
    have hms := Member.forall_notMem_earlierList_iff path (earlier ++ [m.name]) ms
    have hdiffer : AllDiffer (Member.preorderList path (m :: ms)) ↔
        AllDiffer (m.preorder path) ∧ AllDiffer (Member.preorderList path ms) := by
      rw [AllDiffer, Member.preorderList, List.filterMap_append, List.forall_mem_append]
    have hnames : (∀ m' ∈ ms, m'.name ∉ earlier ++ [m.name]) ↔
        (∀ m' ∈ ms, m'.name ∉ earlier) ∧ m.name ∉ ms.map Member.name := by
      simp only [List.mem_append, List.mem_singleton, not_or, List.mem_map, not_exists, not_and]
      exact forall₂_and
    have hsplit : (∀ d, .declare d ∈ Member.stepsList path earlier (m :: ms) →
          d.member.name ∉ d.earlier) ↔
        (∀ d, .declare d ∈ m.steps path earlier → d.member.name ∉ d.earlier) ∧
          ∀ d, .declare d ∈ Member.stepsList path (earlier ++ [m.name]) ms →
            d.member.name ∉ d.earlier := by
      simp only [Member.stepsList, List.mem_append, or_imp, forall_and]
    rw [hsplit, hm, hms, hnames, hdiffer, List.map_cons, List.nodup_cons, List.forall_mem_cons]
    constructor
    · rintro ⟨⟨hname, hdeep⟩, ⟨hrest, hfresh⟩, hnodup, hdeeper⟩
      exact ⟨⟨hname, hrest⟩, ⟨hfresh, hnodup⟩, hdeep, hdeeper⟩
    · rintro ⟨⟨hname, hrest⟩, ⟨hfresh, hnodup⟩, hdeep, hdeeper⟩
      exact ⟨⟨hname, hdeep⟩, ⟨hrest, hfresh⟩, hnodup, hdeeper⟩

end

theorem Frame.mem_declarations_iff (f : Frame) {d : Declaration} :
    d ∈ f.declarations ↔ .declare d ∈ f.steps := by
  rw [Frame.declarations, List.mem_filterMap]
  constructor
  · rintro ⟨s, hs, hd⟩
    cases s with
    | declare => cases hd; exact hs
    | complete => cases hd
  · exact fun hd ↦ ⟨_, hd, rfl⟩

/-- No name is declared a second time if and only if the members of every frame differ in name. -/
theorem Frame.forall_notMem_earlier_iff (f : Frame) :
    (∀ d ∈ f.declarations, d.member.name ∉ d.earlier) ↔ ∀ g ∈ f.frames, g.NamesDiffer := by
  simp only [f.mem_declarations_iff, Frame.steps, Member.forall_notMem_earlierList_iff,
    Frame.frames, List.forall_mem_cons, List.not_mem_nil, not_false_eq_true, implies_true, true_and]
  rfl

end Order

/-! ## Going through the steps -/

/-- How far a frame has been built. -/
structure Progress where
  /-- Object of the innermost frame that is not complete. -/
  owner : ObjectRef
  /-- Objects of the frames around that one, innermost first. -/
  outer : List ObjectRef
  /-- Functions that have been compiled. -/
  functions : Nat

namespace World

/-- World in which an object has one more member. -/
def recorded (o : ObjectRef) (name : String) (w : World) : World :=
  w.modify o fun _ ↦ { w.object o with memberNames := (w.object o).memberNames ++ [name] }

end World

namespace Declaration

/-- Evaluates the script of a function member. -/
def evaluate (d : Declaration) (f : Function) (p : Progress) : Effect Script.ScriptError Value :=
  fun w ↦ World.evaluate (functionVariable p.functions ++ " = " ++ f.source)
    { World.recorded p.owner d.member.name w with failures := 0 }

/-- The script of a function member yields something that can be called. -/
def YieldsFunction (d : Declaration) (f : Function) (p : Progress) (w : World) : Prop :=
  ∃ v w', d.evaluate f p w = .ok v w' ∧ v.isCallable = true

/-- The member cannot be declared in the world, for the reason that is given: its name is taken, or
it is a function whose script fails or yields something else than a function. A failure takes back
nothing of what the script did. -/
inductive Offends (d : Declaration) (p : Progress) (w : World) : CompileError → World → Prop
  | duplicate : d.member.name ∈ d.earlier →
      Offends d p w (.duplicateMember d.path d.member.name) w
  | script {f : Function} {e : Script.ScriptError} {w' : World} : d.member.name ∉ d.earlier →
      d.member.function? = some f → d.evaluate f p w = .error e w' →
      Offends d p w (.script d.path d.member.name e) { w' with failures := 0 }
  | notAFunction {f : Function} {v : Value} {w' : World} : d.member.name ∉ d.earlier →
      d.member.function? = some f → d.evaluate f p w = .ok v w' → v.isCallable = false →
      Offends d p w (.notAFunction d.path d.member.name) w'

/-- Declares a member. -/
def run (d : Declaration) (p : Progress) : Effect CompileError Progress := fun w ↦
  if d.member.name ∈ d.earlier then .error (.duplicateMember d.path d.member.name) w
  else
    match d.member with
    | .property name _ _ value => .ok p (storeLiteral p.owner name value (w.recorded p.owner name))
    | .function name _ f =>
      match d.evaluate f p w with
      | .ok v w' =>
        if v.isCallable then
          .ok { p with functions := p.functions + 1 } (storeFunction p.owner name f v w')
        else .error (.notAFunction d.path name) w'
      | .error e w' => .error (.script d.path name e) { w' with failures := 0 }
      | .exhausted w' => .exhausted w'
    | .frame name _ className members =>
      let (child, w') := World.addObject
        (.ofFrame ⟨className, name, members⟩ (d.path ++ "." ++ name))
        (w.recorded p.owner name)
      .ok ⟨child, p.owner :: p.outer, p.functions⟩ w'

end Declaration

/-- Does what there is to do. -/
def BuildStep.run : BuildStep → Progress → Effect CompileError Progress
  | declare d, p => d.run p
  | complete, p =>
    match p.outer with
    | [] => pure p
    | parent :: outer => do
      Run.update (World.addChild parent p.owner)
      pure ⟨parent, outer, p.functions⟩

/-- Goes through steps in order. -/
def runSteps (steps : List BuildStep) (p : Progress) : Effect CompileError Progress :=
  steps.foldlM (fun p s ↦ s.run p) p

/-- Builds the objects of a frame by way of the first steps of the frame, or of all of them. -/
def Frame.buildTo (f : Frame) (steps : List BuildStep) : Effect CompileError Progress := do
  let root ← Run.step (World.addObject (.ofFrame f f.instanceName))
  runSteps steps ⟨root, [], 0⟩

section Run

variable {w w' : World} {o : ObjectRef} {path name : String}

theorem runSteps_append (steps more : List BuildStep) (p : Progress) :
    runSteps (steps ++ more) p = runSteps steps p >>= runSteps more :=
  List.foldlM_append

theorem runSteps_cons (s : BuildStep) (steps : List BuildStep) (p : Progress) :
    runSteps (s :: steps) p = s.run p >>= runSteps steps :=
  List.foldlM_cons

theorem runSteps_singleton (s : BuildStep) (p : Progress) : runSteps [s] p = s.run p :=
  (runSteps_cons s [] p).trans (bind_pure (s.run p))

theorem Member.exists_steps_eq (path : String) (earlier : List String) (m : Member) :
    ∃ rest, m.steps path earlier = .declare ⟨path, earlier, m⟩ :: rest := by
  cases m with
  | property => exact ⟨[], by rw [Member.steps]⟩
  | function => exact ⟨[], by rw [Member.steps]⟩
  | frame => exact ⟨_, by rw [Member.steps]⟩

theorem Declaration.run_of_mem {d : Declaration} (h : d.member.name ∈ d.earlier) (p : Progress)
    (w : World) : d.run p w = .error (.duplicateMember d.path d.member.name) w :=
  if_pos h

theorem recordMember_of_mem (path : String) (h : name ∈ (w.object o).memberNames) :
    recordMember o path name w = .error (.duplicateMember path name) w := by
  unfold recordMember ReactiveObject.addMemberName?
  rw [if_pos h]

theorem recordMember_of_notMem (path : String) (h : name ∉ (w.object o).memberNames) :
    recordMember o path name w = .ok () (w.recorded o name) := by
  unfold recordMember ReactiveObject.addMemberName?
  rw [if_neg h]
  rfl

theorem World.exists_addObject (f : Frame) (path : String) (w : World) : ∃ o u,
    World.addObject (.ofFrame f path) w = (o, u) ∧ o.index < u.host.objects.size ∧
      u.object o = .ofFrame f path := by
  exact ⟨_, _, rfl, lt_size_addObject, object_addObject_self w f path⟩

/-- No failure is counted while a script is evaluated that succeeds, whatever the writes that it
makes run into. -/
theorem World.failures_of_evaluate {source : String} {v : Value} (hw : w.failures = 0)
    (h : World.evaluate source w = .ok v w') : w'.failures = 0 := by
  have hbalanced := Script.Task.balances World.scriptHost_balances stepBound (.program source) w
  rw [Script.Task.run, Script.Action.state_forget] at hbalanced
  rw [World.evaluate, Script.evaluate, Script.counted] at h
  cases hrun : Script.runProgram World.scriptHost stepBound source w with
  | ok v' u =>
    rw [hrun] at h hbalanced
    cases h
    exact hbalanced.failures hw
  | error e u => simp [hrun] at h
  | exhausted u => simp [hrun] at h

/-- A function member is compiled to the value of its script. -/
theorem compileFunction_eq (path name : String) (f : Function) (n : Nat) (w : World) :
    compileFunction path name f n w
      = match World.evaluate (functionVariable n ++ " = " ++ f.source) { w with failures := 0 } with
        | .ok v w' => if v.isCallable then .ok v w' else .error (.notAFunction path name) w'
        | .error e w' => .error (.script path name e) { w' with failures := 0 }
        | .exhausted w' => .exhausted w' := by
  simp only [compileFunction, bind, Run.bind, Script.resetFailures, Run.update, Run.attempt,
    Run.state]
  cases heval : World.evaluate (functionVariable n ++ " = " ++ f.source)
      { w with failures := 0 } with
  | ok v w' =>
    have hfailures : w'.failures = 0 := World.failures_of_evaluate rfl heval
    have hreset : { w' with failures := 0 } = w' := by rw [← hfailures]
    simp only [hfailures, hreset]
    cases v.isCallable <;> rfl
  | error e w' => rfl
  | exhausted w' => rfl

theorem buildMember_of_mem {m : Member} (path : String) (n : Nat)
    (h : m.name ∈ (w.object o).memberNames) :
    buildMember o path n m w = .error (.duplicateMember path m.name) w := by
  cases m with
  | property => exact Run.bind_of_error (recordMember_of_mem path h) _
  | function => exact Run.bind_of_error (recordMember_of_mem path h) _
  | frame => exact Run.bind_of_error (recordMember_of_mem path h) _

/-- The first step of a member whose name is taken fails, and there is no second one. -/
theorem runSteps_steps_of_mem {m : Member} (path : String) (outer : List ObjectRef) (n : Nat)
    (hname : m.name ∈ (w.object o).memberNames) :
    runSteps (m.steps path (w.object o).memberNames) ⟨o, outer, n⟩ w
      = (buildMember o path n m >>= fun n ↦ pure ⟨o, outer, n⟩) w := by
  obtain ⟨rest, hsteps⟩ := m.exists_steps_eq path (w.object o).memberNames
  have hrun : (BuildStep.declare ⟨path, (w.object o).memberNames, m⟩).run ⟨o, outer, n⟩ w
      = .error (.duplicateMember path m.name) w := if_pos hname
  rw [hsteps, runSteps_cons, Run.bind_of_error hrun,
    Run.bind_of_error (buildMember_of_mem path n hname)]

theorem runSteps_steps_function {name : String} (path : String) (outer : List ObjectRef) (n : Nat)
    (line : Nat) (f : Function) (hname : name ∉ (w.object o).memberNames) :
    runSteps ((Member.function name line f).steps path (w.object o).memberNames) ⟨o, outer, n⟩ w
      = (buildMember o path n (.function name line f) >>= fun n ↦ pure ⟨o, outer, n⟩) w := by
  have hbuild : buildMember o path n (.function name line f) w
      = (compileFunction path name f n >>= fun callable ↦ do
          Run.update (storeFunction o name f callable)
          pure (n + 1)) (w.recorded o name) :=
    Run.bind_of_ok (recordMember_of_notMem path hname) _
  have hrun : (BuildStep.declare ⟨path, (w.object o).memberNames, .function name line f⟩).run
      ⟨o, outer, n⟩ w = _ := if_neg hname
  rw [Member.steps, runSteps_singleton, hrun, Run.bind_congr_left hbuild]
  change _ = Run.bind (Run.bind _ _) _ _
  rw [Run.bind, Run.bind, compileFunction_eq]
  dsimp only [Declaration.evaluate, Member.name]
  cases World.evaluate (functionVariable n ++ " = " ++ f.source)
      { w.recorded o name with failures := 0 } with
  | ok v u =>
    dsimp only
    split <;> rfl
  | error e u => rfl
  | exhausted u => rfl

mutual

/-- A member is built by its steps. -/
theorem runSteps_steps {o : ObjectRef} {path : String} {earlier : List String}
    (outer : List ObjectRef) (n : Nat) (m : Member) {w : World}
    (hearlier : (w.object o).memberNames = earlier) :
    runSteps (m.steps path earlier) ⟨o, outer, n⟩ w
      = (buildMember o path n m >>= fun n ↦ pure ⟨o, outer, n⟩) w := by
  subst hearlier
  by_cases hname : m.name ∈ (w.object o).memberNames
  · exact runSteps_steps_of_mem path outer n hname
  match m with
  | .property name line type value =>
    have hbuild : buildMember o path n (.property name line type value) w
        = .ok n (storeLiteral o name value (w.recorded o name)) :=
      Run.bind_of_ok (recordMember_of_notMem path hname) _
    rw [Member.steps, runSteps_singleton, Run.bind_of_ok hbuild]
    exact if_neg hname
  | .function name line f => exact runSteps_steps_function path outer n line f hname
  | .frame name line className members =>
    -- The members of the frame are built in its new object, which is then a child.
    obtain ⟨child, u, hadd, hsize, hnew⟩ := World.exists_addObject ⟨className, name, members⟩
      (path ++ "." ++ name) (w.recorded o name)
    have hdeclare : (BuildStep.declare ⟨path, (w.object o).memberNames,
        .frame name line className members⟩).run ⟨o, outer, n⟩ w
          = .ok ⟨child, o :: outer, n⟩ u := by
      cases hadd
      exact if_neg hname
    have hbuild : buildMember o path n (.frame name line className members) w
        = (buildMembers child (path ++ "." ++ name) n members >>= fun n ↦ do
            Run.update (World.addChild o child)
            pure n) u := by
      cases hadd
      exact Run.bind_of_ok (recordMember_of_notMem path hname) _
    have hmembers : runSteps (Member.stepsList (path ++ "." ++ name) [] members)
        ⟨child, o :: outer, n⟩ u = _ :=
      runSteps_stepsList (o :: outer) n members hsize (by rw [hnew]; rfl) (by rw [hnew]; rfl)
    calc runSteps (Member.steps path _ (.frame name line className members)) ⟨o, outer, n⟩ w
        = (runSteps (Member.stepsList (path ++ "." ++ name) [] members) ⟨child, o :: outer, n⟩ >>=
            runSteps [.complete]) u := by
          rw [Member.steps, runSteps_cons, Run.bind_of_ok hdeclare, runSteps_append]
      _ = ((buildMembers child (path ++ "." ++ name) n members >>= fun n ↦
            pure ⟨child, o :: outer, n⟩) >>= runSteps [.complete]) u :=
          Run.bind_congr_left hmembers _
      _ = ((buildMembers child (path ++ "." ++ name) n members >>= fun n ↦ do
            Run.update (World.addChild o child)
            pure n) >>= fun n ↦ pure ⟨o, outer, n⟩) u := by
          rw [bind_assoc, bind_assoc]
          rfl
      _ = (buildMember o path n (.frame name line className members) >>= fun n ↦
            pure ⟨o, outer, n⟩) w :=
          (Run.bind_congr_left hbuild _).symm

/-- Members are built by their steps. -/
theorem runSteps_stepsList {o : ObjectRef} {path : String} {earlier : List String}
    (outer : List ObjectRef) (n : Nat) (ms : List Member) {w : World}
    (ho : o.index < w.host.objects.size) (hpath : (w.object o).path = path)
    (hearlier : (w.object o).memberNames = earlier) :
    runSteps (Member.stepsList path earlier ms) ⟨o, outer, n⟩ w
      = (buildMembers o path n ms >>= fun n ↦ pure ⟨o, outer, n⟩) w := by
  match ms with
  | [] => rfl
  | m :: ms =>
    calc runSteps (Member.stepsList path earlier (m :: ms)) ⟨o, outer, n⟩ w
        = (runSteps (m.steps path earlier) ⟨o, outer, n⟩ >>=
            runSteps (Member.stepsList path (earlier ++ [m.name]) ms)) w := by
          rw [Member.stepsList, runSteps_append]
      _ = (buildMember o path n m >>= fun n ↦
            runSteps (Member.stepsList path (earlier ++ [m.name]) ms) ⟨o, outer, n⟩) w := by
          rw [Run.bind_congr_left (runSteps_steps outer n m hearlier), bind_assoc]
          rfl
      _ = (buildMember o path n m >>= fun n ↦
            buildMembers o path n ms >>= fun n ↦ pure ⟨o, outer, n⟩) w := by
          -- Building the member adds its name to those that are taken, and no other.
          refine Run.bind_congr_right fun k u hrun ↦ ?_
          have hplanting := World.planting_of_buildMember m ho hpath hrun
          refine runSteps_stepsList outer k ms (ho.trans_le hplanting.size)
            (hplanting.path.trans hpath) ?_
          rw [hplanting.names, hearlier]
          rfl
      _ = (buildMembers o path n (m :: ms) >>= fun n ↦ pure ⟨o, outer, n⟩) w := by
          rw [buildMembers, bind_assoc]

end

/-- Building a frame is going through its steps. -/
theorem build_eq_buildTo (f : Frame) : build f = Progress.owner <$> f.buildTo f.steps := by
  funext w
  obtain ⟨root, u, hadd, hsize, hnew⟩ := World.exists_addObject f f.instanceName w
  have hstart : (Run.step (World.addObject (.ofFrame f f.instanceName)) : Effect CompileError _) w
      = .ok root u := by
    rw [Run.step, hadd]
  have hsteps : runSteps f.steps ⟨root, [], 0⟩ u = _ :=
    runSteps_stepsList [] 0 f.members hsize (by rw [hnew]; rfl) (by rw [hnew]; rfl)
  rw [map_eq_pure_bind, build, Frame.buildTo, bind_assoc, Run.bind_of_ok hstart,
    Run.bind_of_ok hstart, Run.bind_congr_left hsteps, bind_assoc]
  rfl

end Run

/-! ## The first step that fails -/

section Failing

variable {w w' : World} {p : Progress} {d : Declaration}

/-- Either all steps can be gone through, or there is a first one that does not succeed, and it is
the end. -/
theorem runSteps_cases (steps : List BuildStep) (p : Progress) (w : World) :
    (∃ q u, runSteps steps p w = .ok q u) ∨
      ∃ before s after q u, steps = before ++ s :: after ∧ runSteps before p w = .ok q u ∧
        runSteps steps p w = s.run q u ∧ ∀ q' u', s.run q u ≠ .ok q' u' := by
  induction steps generalizing p w with
  | nil => exact .inl ⟨p, w, rfl⟩
  | cons s steps ih =>
    rw [runSteps_cons]
    cases hrun : s.run p w with
    | ok q u =>
      rw [Run.bind_of_ok hrun]
      refine (ih q u).imp_right ?_
      rintro ⟨before, t, after, q', u', rfl, hbefore, hstop, hfails⟩
      refine ⟨s :: before, t, after, q', u', rfl, ?_, hstop, hfails⟩
      rw [runSteps_cons, Run.bind_of_ok hrun, hbefore]
    | error e u =>
      right
      refine ⟨[], s, steps, p, w, rfl, rfl, ?_, fun q' u' h ↦ ?_⟩
      · rw [Run.bind_of_error hrun, hrun]
      · rw [hrun] at h
        cases h
    | exhausted u =>
      right
      refine ⟨[], s, steps, p, w, rfl, rfl, ?_, fun q' u' h ↦ ?_⟩
      · rw [Run.bind_of_exhausted hrun, hrun]
      · rw [hrun] at h
        cases h

/-- Going through any steps of a frame starts in the same way. -/
theorem Frame.exists_buildTo_eq (f : Frame) (w : World) :
    ∃ p u, ∀ steps, f.buildTo steps w = runSteps steps p u := by
  obtain ⟨root, u, hadd, -⟩ := World.exists_addObject f f.instanceName w
  refine ⟨⟨root, [], 0⟩, u, fun steps ↦ ?_⟩
  cases hadd
  rfl

theorem Declaration.run_eq_error_iff {e : CompileError} :
    d.run p w = .error e w' ↔ d.Offends p w e w' := by
  obtain ⟨path, earlier, m⟩ := d
  constructor
  · intro h
    unfold Declaration.run at h
    split_ifs at h with hname
    · cases h
      exact .duplicate hname
    · cases m with
      | property => cases h
      | frame => cases h
      | function name line f =>
        dsimp only at h
        split at h
        · next v u heval =>
          split_ifs at h with hv
          cases h
          exact .notAFunction hname rfl heval (Bool.eq_false_iff.2 hv)
        · next e u heval =>
          cases h
          exact .script hname rfl heval
        · cases h
  · intro h
    cases h with
    | duplicate hname => exact if_pos hname
    | script hname hf heval =>
      cases m with
      | property => cases hf
      | frame => cases hf
      | function name line f =>
        cases hf
        refine (if_neg hname).trans ?_
        dsimp only
        rw [heval]
        rfl
    | notAFunction hname hf heval hv =>
      cases m with
      | property => cases hf
      | frame => cases hf
      | function name line f =>
        cases hf
        refine (if_neg hname).trans ?_
        dsimp only
        rw [heval]
        exact if_neg (Bool.eq_false_iff.1 hv)

/-- A member that is declared has a name of its own, and if it is a function, then its script yields
one. -/
theorem Declaration.of_run_eq_ok {q : Progress} (h : d.run p w = .ok q w') :
    d.member.name ∉ d.earlier ∧
      ∀ f, d.member.function? = some f → d.YieldsFunction f p w := by
  obtain ⟨path, earlier, m⟩ := d
  unfold Declaration.run at h
  split_ifs at h with hname
  refine ⟨hname, fun f hf ↦ ?_⟩
  cases m with
  | property => cases hf
  | frame => cases hf
  | function name line f =>
    cases hf
    dsimp only at h
    split at h
    · next v u heval =>
      split_ifs at h with hv
      exact ⟨v, u, heval, hv⟩
    · cases h
    · cases h

/-- Only a script can go on forever. -/
theorem Declaration.of_run_eq_exhausted (h : d.run p w = .exhausted w') :
    ∃ f, d.member.function? = some f ∧ d.evaluate f p w = .exhausted w' := by
  obtain ⟨path, earlier, m⟩ := d
  unfold Declaration.run at h
  split_ifs at h
  cases m with
  | property => cases h
  | frame => cases h
  | function name line f =>
    dsimp only at h
    split at h
    · split_ifs at h
    · cases h
    · next u heval =>
      cases h
      exact ⟨f, rfl, heval⟩

/-- Completing a frame does not fail. -/
theorem BuildStep.exists_run_complete (p : Progress) (w : World) :
    ∃ q u, BuildStep.complete.run p w = .ok q u := by
  obtain ⟨owner, outer, n⟩ := p
  cases outer with
  | nil => exact ⟨_, _, rfl⟩
  | cons parent outer => exact ⟨_, _, rfl⟩

/-- If not all members of a frame can be declared, then there is a first one that cannot, and it is
the end. -/
theorem Frame.buildTo_cases (f : Frame) (w : World) :
    (∃ p u, f.buildTo f.steps w = .ok p u) ∨
      ∃ before d after p u, f.steps = before ++ .declare d :: after ∧
        f.buildTo before w = .ok p u ∧ f.buildTo f.steps w = d.run p u ∧
        ∀ q u', d.run p u ≠ .ok q u' := by
  obtain ⟨start, v, hstart⟩ := f.exists_buildTo_eq w
  simp only [hstart]
  refine (runSteps_cases f.steps start v).imp_right ?_
  rintro ⟨before, s, after, p, u, hsteps, hbefore, hstop, hfails⟩
  cases s with
  | declare d => exact ⟨before, d, after, p, u, hsteps, hbefore, hstop, hfails⟩
  | complete =>
    obtain ⟨q, u', hok⟩ := BuildStep.exists_run_complete p u
    exact absurd hok (hfails q u')

theorem Frame.buildTo_append (f : Frame) (steps more : List BuildStep) :
    f.buildTo (steps ++ more) = f.buildTo steps >>= runSteps more := by
  simp only [Frame.buildTo, runSteps_append, bind_assoc]

/-- After some steps comes what the next one comes to, unless it succeeds. -/
theorem Frame.buildTo_of_run_eq_error {f : Frame} {before after : List BuildStep}
    {e : CompileError} {u : World} (hsteps : f.steps = before ++ .declare d :: after)
    (hbefore : f.buildTo before w = .ok p u) (hrun : d.run p u = .error e w') :
    f.buildTo f.steps w = .error e w' := by
  rw [hsteps, Frame.buildTo_append, Run.bind_of_ok hbefore, runSteps_cons]
  exact Run.bind_of_error hrun _

/-- The scripts of all function members, evaluated in the order of the steps, yield functions. -/
def Frame.ScriptsYieldFunctions (f : Frame) (w : World) : Prop :=
  ∀ before d after g, f.steps = before ++ .declare d :: after → d.member.function? = some g →
    ∃ p u, f.buildTo before w = .ok p u ∧ d.YieldsFunction g p u

/-- The objects of a frame can be built if and only if names differ and scripts yield functions. -/
theorem Frame.exists_buildTo_iff (f : Frame) (w : World) :
    (∃ p u, f.buildTo f.steps w = .ok p u) ↔
      (∀ g ∈ f.frames, g.NamesDiffer) ∧ f.ScriptsYieldFunctions w := by
  rw [← f.forall_notMem_earlier_iff]
  constructor
  · rintro ⟨q, v, hall⟩
    -- A step can be gone through if all of them can.
    have hstep (before : List BuildStep) (d : Declaration) (after : List BuildStep)
        (hsteps : f.steps = before ++ .declare d :: after) :
        ∃ p u, f.buildTo before w = .ok p u ∧ ∃ q v, d.run p u = .ok q v := by
      rw [hsteps, Frame.buildTo_append] at hall
      obtain ⟨p, u, hbefore, hrest⟩ := Run.bind_eq_ok.1 hall
      rw [runSteps_cons] at hrest
      obtain ⟨q, v, hrun, -⟩ := Run.bind_eq_ok.1 hrest
      exact ⟨p, u, hbefore, q, v, hrun⟩
    refine ⟨fun d hd ↦ ?_, fun before d after g hsteps hg ↦ ?_⟩
    · obtain ⟨before, after, hsteps⟩ := List.append_of_mem (f.mem_declarations_iff.1 hd)
      obtain ⟨p, u, -, q, v, hrun⟩ := hstep before d after hsteps
      exact (Declaration.of_run_eq_ok hrun).1
    · obtain ⟨p, u, hbefore, q, v, hrun⟩ := hstep before d after hsteps
      exact ⟨p, u, hbefore, (Declaration.of_run_eq_ok hrun).2 g hg⟩
  · rintro ⟨hnames, hscripts⟩
    refine (f.buildTo_cases w).resolve_right ?_
    rintro ⟨before, d, after, p, u, hsteps, hbefore, -, hfails⟩
    have hname := hnames d
      (f.mem_declarations_iff.2 (hsteps ▸ List.mem_append_right _ List.mem_cons_self))
    -- The script of the member that fails is evaluated where the hypothesis says it is.
    have hyields (g : Function) (hg : d.member.function? = some g) : d.YieldsFunction g p u := by
      obtain ⟨p', u', hbefore', hyields⟩ := hscripts before d after g hsteps hg
      cases hbefore.symm.trans hbefore'
      exact hyields
    cases hrun : d.run p u with
    | ok q v => exact hfails q v hrun
    | error e v =>
      cases Declaration.run_eq_error_iff.1 hrun with
      | duplicate hmem => exact hname hmem
      | script _ hg heval =>
        obtain ⟨v, u', heval', -⟩ := hyields _ hg
        cases heval.symm.trans heval'
      | notAFunction _ hg heval hv =>
        obtain ⟨v, u', heval', hv'⟩ := hyields _ hg
        cases heval.symm.trans heval'
        rw [hv] at hv'
        cases hv'
    | exhausted v =>
      obtain ⟨g, hg, heval⟩ := Declaration.of_run_eq_exhausted hrun
      obtain ⟨v, u', heval', -⟩ := hyields g hg
      cases heval.symm.trans heval'

/-- Building ends with the error of the first member that cannot be declared. -/
theorem Frame.buildTo_eq_error_iff {f : Frame} {e : CompileError} :
    f.buildTo f.steps w = .error e w' ↔ ∃ before d after p u,
      f.steps = before ++ .declare d :: after ∧ f.buildTo before w = .ok p u ∧
        d.Offends p u e w' := by
  constructor
  · intro h
    rcases f.buildTo_cases w with ⟨p, u, hall⟩ | ⟨before, d, after, p, u, hsteps, hbefore, hstop, -⟩
    · rw [hall] at h
      cases h
    · exact ⟨before, d, after, p, u, hsteps, hbefore,
        Declaration.run_eq_error_iff.1 (hstop.symm.trans h)⟩
  · rintro ⟨before, d, after, p, u, hsteps, hbefore, hoffends⟩
    exact Frame.buildTo_of_run_eq_error hsteps hbefore (Declaration.run_eq_error_iff.2 hoffends)

end Failing

end ReactiveFrames
