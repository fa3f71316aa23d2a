import Mathlib.Data.List.Forall2
import Mathlib.Data.List.Nodup
import ReactiveFrames.Proofs.Reactive.Callables
import ReactiveFrames.Proofs.Reactive.Consistency

/-!
# Parameters of function members

A call of a closure opens a scope, declares the parameters one after the other with the arguments as
their values, and runs the body there. Of two parameters of one name the later one is declared in
place of the earlier one, so that in the body a name stands for the argument of its last parameter.

The compiled callable of an init, event or listener takes its owner first, under the name `self`.
Its other parameters are those that were written. A written `self` is dropped only for an init
function. For the other kinds nothing keeps a parameter from being called `self`, or like another
one, and then the later one hides the earlier one from the body.

## Main definitions

* `Script.argumentOf`: argument of the last parameter of a name.
* `Script.Closure.valueIn`: what a name stands for where the body of a called closure starts.
* `Script.Closure.run`: running the body of a closure in the scope of its parameters.

## Main statements

* `Script.Closure.valueIn_eq`: a name stands for the argument of its last parameter, or else for a
  global variable.
* `World.reads_own_arguments`: every parameter of a function member with an owner stands for its own
  argument, whatever the arguments are, exactly if no two parameters share their name.
* `World.hides_owner`: a listener whose body does not find its owner under the name `self`.
-/

namespace ReactiveFrames

open Script (Value Host Machine Heap Closure Action)
open Script.Machine (pinning pinningValues nested)

namespace Script

/-! ## Arguments by name -/

/-- Argument of the last parameter of a name. A parameter without an argument is undefined. -/
def argumentOf (name : String) : List String → List Value → Option Value
  | [], _ => none
  | p :: ps, vs =>
    (argumentOf name ps vs.tail).or (if p = name then some (vs.headD .undefined) else none)

theorem argumentOf_of_notMem {name : String} {parameters : List String} (h : name ∉ parameters)
    (arguments : List Value) : argumentOf name parameters arguments = none := by
  induction parameters generalizing arguments with
  | nil => rfl
  | cons p ps ih =>
    rw [List.mem_cons, not_or] at h
    rw [argumentOf, ih h.2, if_neg (Ne.symm h.1)]
    rfl

theorem isSome_argumentOf_of_mem {name : String} {parameters : List String}
    (h : name ∈ parameters) (arguments : List Value) :
    (argumentOf name parameters arguments).isSome := by
  induction parameters generalizing arguments with
  | nil => cases h
  | cons p ps ih =>
    rw [argumentOf, Option.isSome_or]
    by_cases hp : p = name
    · rw [if_pos hp]
      exact Bool.or_true _
    · have hmem : name ∈ ps := (List.mem_cons.1 h).resolve_left (Ne.symm hp)
      rw [ih hmem]
      rfl

/-- Names that are all different get their own arguments. -/
theorem forall₂_argumentOf {parameters : List String} (hnodup : parameters.Nodup)
    {arguments : List Value} (hlength : arguments.length = parameters.length) :
    List.Forall₂ (fun p v ↦ argumentOf p parameters arguments = some v) parameters arguments := by
  induction parameters generalizing arguments with
  | nil =>
    rw [List.length_eq_zero_iff.1 hlength]
    exact .nil
  | cons p ps ih =>
    obtain ⟨v, vs, rfl⟩ := List.exists_cons_of_length_eq_add_one hlength
    obtain ⟨hp, hps⟩ := List.nodup_cons.1 hnodup
    refine .cons ?_ ((ih hps (Nat.succ.inj hlength)).imp fun q u hq ↦ ?_)
    · rw [argumentOf, argumentOf_of_notMem hp, if_pos rfl]
      rfl
    · rw [argumentOf, List.tail_cons, hq]
      rfl

/-- If names get their own arguments, whatever these are, no two of them are the same. -/
theorem nodup_of_forall₂_argumentOf {parameters : List String}
    (h : ∀ arguments : List Value, arguments.length = parameters.length →
      List.Forall₂ (fun p v ↦ argumentOf p parameters arguments = some v) parameters arguments) :
    parameters.Nodup := by
  -- Arguments that are all different tell the parameters apart.
  have hown := h ((List.range parameters.length).map fun i ↦ .array ⟨i⟩) (by simp)
  rw [List.forall₂_iff_get] at hown
  obtain ⟨hlength, hown⟩ := hown
  rw [List.nodup_iff_injective_get]
  intro i j hij
  have hi := hown i i.2 (hlength ▸ i.2)
  have hj := hown j j.2 (hlength ▸ j.2)
  simp only [Fin.eta] at hi hj
  rw [hij, hj] at hi
  simp at hi
  exact Fin.ext hi.symm

/-! ## The scope of a call -/

section Scope

variable {ref : FrameRef} {outer : Scope} {h : Heap}

/-- The parameters are the variables of the innermost scope, next to those that it has. -/
theorem find?_locals_bindParameters (href : ref.index < h.frames.size) (name : String)
    (parameters : List String) (arguments : List Value) :
    ((bindParameters (ref :: outer) parameters arguments h).locals ref).find? name
      = (argumentOf name parameters arguments).or ((h.locals ref).find? name) := by
  induction parameters generalizing arguments h with
  | nil => rfl
  | cons p ps ih =>
    have hdeclare : ∀ vs v, ((bindParameters (ref :: outer) ps vs
        (h.declare p v (ref :: outer))).locals ref).find? name = ((argumentOf name ps vs).or
          (if p = name then some v else none)).or ((h.locals ref).find? name) := by
      intro vs v
      rw [ih (by simpa [Heap.declare, Heap.bindLocal] using href), Heap.declare,
        Heap.locals_bindLocal href, if_pos rfl, Table.find?_insert, Option.or_assoc]
      by_cases hname : name = p
      · simp [hname]
      · simp [hname, Ne.symm hname]
    cases arguments with
    | nil => exact hdeclare [] .undefined
    | cons v vs => exact hdeclare vs v

theorem globals_bindParameters (parameters : List String) (arguments : List Value) :
    (bindParameters (ref :: outer) parameters arguments h).globals = h.globals := by
  induction parameters generalizing arguments h with
  | nil => rfl
  | cons p ps ih => cases arguments <;> exact ih _

end Scope

namespace Closure

variable {σ : Type}

/-- What a name stands for where the body of a called closure starts. -/
def valueIn (m : Machine σ) (c : Closure) (arguments : List Value) (name : String) :
    Option Value :=
  (World.calledHeap m.heap c arguments).lookup name (m.heap.openScope c.scope).1

/-- Runs the body of a closure in the scope of its parameters. -/
def run (host : Host σ) (bound : Nat) (c : Closure) (arguments : List Value) : Action σ Value :=
  fun m ↦
    let scope := (m.heap.openScope c.scope).1
    (Completion.result <$> nested (pinning [.scope scope]
      (execBlock host bound scope c.function.body)))
      { m with heap := World.calledHeap m.heap c arguments }

/-- In a function of the global scope a name stands for the argument of its last parameter, or else
for a global variable. -/
theorem valueIn_eq (m : Machine σ) {c : Closure} (hscope : c.scope = []) (arguments : List Value)
    (name : String) : c.valueIn m arguments name
      = (argumentOf name c.function.parameters arguments).or (m.heap.globals.find? name) := by
  have hfresh : (⟨m.heap.frames.size⟩ : FrameRef).index < (m.heap.openScope []).2.frames.size := by
    simp [Heap.openScope]
  have hempty : (m.heap.openScope []).2.locals ⟨m.heap.frames.size⟩ = Table.empty := by
    simp [Heap.openScope, Heap.locals]
  rw [valueIn, World.calledHeap, hscope]
  change (bindParameters [⟨m.heap.frames.size⟩] _ _ _).lookup name [⟨m.heap.frames.size⟩] = _
  rw [Heap.lookup, find?_locals_bindParameters hfresh, hempty, Table.find?_empty, Option.or_none]
  cases hargument : argumentOf name c.function.parameters arguments with
  | some v => rfl
  | none =>
    dsimp only
    rw [Heap.lookup, globals_bindParameters]
    rfl

/-- The parameters of a function of the global scope stand for their own arguments, whatever these
are, exactly if no two parameters share their name. -/
theorem nodup_iff_forall₂_valueIn (m : Machine σ) {c : Closure} (hscope : c.scope = []) :
    c.function.parameters.Nodup ↔ ∀ arguments : List Value,
      arguments.length = c.function.parameters.length →
        List.Forall₂ (fun p v ↦ c.valueIn m arguments p = some v) c.function.parameters
          arguments := by
  constructor
  · intro hnodup arguments hlength
    refine (forall₂_argumentOf hnodup hlength).imp fun p v hp ↦ ?_
    rw [valueIn_eq m hscope, hp]
    rfl
  · intro h
    refine nodup_of_forall₂_argumentOf fun arguments hlength ↦ ?_
    refine ((List.forall₂_and_left _ _).2 ⟨fun _ hp ↦ hp, h arguments hlength⟩).imp ?_
    rintro p v ⟨hp, hv⟩
    obtain ⟨u, hu⟩ := Option.isSome_iff_exists.1 (isSome_argumentOf_of_mem hp arguments)
    rw [valueIn_eq m hscope, hu] at hv
    rwa [hu]

/-- A call of a closure runs its body, unless too many are being called. -/
theorem call_eq_run {host : Host σ} {m : Machine σ} {ref : ClosureRef} {c : Closure}
    (hc : m.heap.closures[ref.index]? = some c) (hdepth : m.depth < m.maxDepth) (bound : Nat)
    (arguments : List Value) : call host (bound + 2) (.closure ref) arguments m
      = pinningValues (.closure ref :: arguments) (c.run host bound arguments) m := by
  have hrun : callClosure host (bound + 1) ref arguments
      { m with pins := (.closure ref :: arguments).map .value ++ m.pins }
      = c.run host bound arguments
        { m with pins := (.closure ref :: arguments).map .value ++ m.pins } := by
    unfold callClosure
    rw [if_neg hdepth.not_ge, hc]
    rfl
  rw [call]
  change (callClosure host (bound + 1) ref arguments _).mapState _ = _
  rw [hrun]
  rfl

end Closure

end Script

/-! ## Function members -/

/-- Closure that a function member is compiled to, with its body as a program. -/
def Function.closure (f : Function) (body : List Script.Stmt) : Closure :=
  ⟨.mk none f.parameters body, []⟩

/-- An init function has one parameter at most, which is not called like its owner. -/
theorem Function.WellFormed.nodup_parameters {enums : EnumTable} {f : Function}
    (h : f.WellFormed enums) (hinit : f.kind = .init) : f.parameters.Nodup := by
  obtain ⟨hhead, -⟩ := h
  cases f with
  | init argument script =>
    cases argument with
    | none => exact List.nodup_singleton "self"
    | some a =>
      have hname : a.name ≠ "self" := (hhead.1 a rfl).2
      simpa [Function.parameters] using hname.symm
  | _ => cases hinit

theorem Function.exists_parameters {f : Function} (h : f.kind ≠ .procedure) :
    ∃ names, f.parameters = "self" :: names := by
  cases f with
  | procedure => exact absurd rfl h
  | _ => exact ⟨_, rfl⟩

namespace World

/-- A function member with an owner that was read, and whose body stays within its braces, is
compiled to a closure that runs this body in the scope of its parameters. There `self` is the owner
and every other parameter its own argument, whatever the owner and the arguments are, exactly if no
two parameters share their name. The parameters of an init function never do. -/
theorem reads_own_arguments {enums : EnumTable} {source : String} {frame : Frame}
    (hparse : Frame.parse enums source = .ok frame) {p : String × Member} (hp : p ∈ frame.preorder)
    {f : Function} (hf : p.2.function? = some f) (howner : f.kind ≠ .procedure)
    (hclosed : Script.closesOuterBrace f.script = false) {path name : String} {n : Nat}
    {w w' : World} {callable : Value}
    (hcompile : compileFunction path name f n w = .ok callable w') :
    ∃ body, Script.parse f.script = .ok body ∧
      (∀ (σ : Type) (host : Host σ) (bound : Nat) (m : Machine σ) (arguments : List Value),
        w'.heap.Extends m.heap → m.depth < m.maxDepth →
          Script.call host (bound + 2) callable arguments m
            = pinningValues (callable :: arguments) ((f.closure body).run host bound arguments) m) ∧
      (∀ (σ : Type) (m : Machine σ), f.parameters.Nodup ↔
        ∀ owner values, (owner :: values).length = f.parameters.length →
          (f.closure body).valueIn m (owner :: values) "self" = some owner ∧
            List.Forall₂ (fun p v ↦ (f.closure body).valueIn m (owner :: values) p = some v)
              f.parameters.tail values) ∧
      (f.kind = .init → f.parameters.Nodup) := by
  have hwellFormed := Frame.wellFormed_function_of_parse hparse hp hf
  obtain ⟨body, hbody⟩ :=
    exists_parse_of_compileFunction hwellFormed.isWord_parameters hclosed hcompile
  rw [compileFunction_of_parse hwellFormed.isWord_parameters hbody] at hcompile
  cases hcompile
  refine ⟨body, hbody, ?_, ?_, hwellFormed.nodup_parameters⟩
  · intro σ host bound m arguments hextends hdepth
    have hc : m.heap.closures[w.heap.closures.size]? = some (f.closure body) :=
      hextends _ _ Array.getElem?_push_size
    exact Closure.call_eq_run hc hdepth bound arguments
  · intro σ m
    obtain ⟨names, hnames⟩ := Function.exists_parameters howner
    rw [show f.parameters = (f.closure body).function.parameters from rfl,
      Closure.nodup_iff_forall₂_valueIn m rfl]
    change (∀ arguments : List Value, arguments.length = f.parameters.length →
      List.Forall₂ (fun p v ↦ (f.closure body).valueIn m arguments p = some v) f.parameters
        arguments) ↔ ∀ owner values, (owner :: values).length = f.parameters.length → _ ∧
      List.Forall₂ (fun p v ↦ (f.closure body).valueIn m (owner :: values) p = some v)
        f.parameters.tail values
    rw [hnames]
    constructor
    · intro h owner values hlength
      exact List.forall₂_cons.1 (h (owner :: values) hlength)
    · intro h arguments hlength
      obtain ⟨owner, values, rfl⟩ := List.exists_cons_of_length_eq_add_one hlength
      exact List.forall₂_cons.2 (h owner values hlength)

/-- A listener with parameters that are all different. -/
def distinct : String :=
  "root: Object \x7b x: Bool true, y: Bool false, " ++
    "l: Listner(a: self.x, b: self.y) -> Bool %\x7b return a; %\x7d \x7d"

theorem reads_own_arguments_distinct : ∃ frame p f callable w' body,
    Frame.parse Table.empty distinct = .ok frame ∧ p ∈ frame.preorder ∧
      p.2.function? = some f ∧ f.kind = .listener ∧ f.parameters = ["self", "a", "b"] ∧
      compileFunction "root" "l" f 0 (World.create 256 16) = .ok callable w' ∧
      Script.parse f.script = .ok body ∧
      ∀ owner u v, (f.closure body).valueIn w' [owner, u, v] "self" = some owner ∧
        (f.closure body).valueIn w' [owner, u, v] "a" = some u ∧
        (f.closure body).valueIn w' [owner, u, v] "b" = some v := by
  have hrun : Except.okWith (fun frame ↦ frame.preorder.any fun p ↦ p.2.function?.any fun f ↦
      f.kind == .listener && f.parameters == ["self", "a", "b"] &&
        !Script.closesOuterBrace f.script &&
        (compileFunction "root" "l" f 0 (World.create 256 16)).okWith fun _ _ ↦ true)
      (Frame.parse Table.empty distinct) = true := by
    rw [Frame.parse_eq]
    delta distinct
    repeat rewrite [String.toList_append]
    repeat rewrite [String.toList_ofList]
    decide +kernel
  obtain ⟨frame, hparse, hrun⟩ := Except.exists_of_okWith hrun
  obtain ⟨p, hp, hrun⟩ := List.any_eq_true.1 hrun
  obtain ⟨f, hf, hrun⟩ := (Option.any_eq_true _ _).1 hrun
  simp only [Bool.and_eq_true, Bool.not_eq_true', beq_iff_eq] at hrun
  obtain ⟨⟨⟨hkind, hparameters⟩, hclosed⟩, hcompile⟩ := hrun
  obtain ⟨callable, w', hcompile, -⟩ := Outcome.exists_of_okWith hcompile
  obtain ⟨body, hbody, -, hown, -⟩ := reads_own_arguments hparse hp hf (by rw [hkind]; decide)
    hclosed hcompile
  have hnodup : f.parameters.Nodup := by
    rw [hparameters]
    decide
  refine ⟨frame, p, f, callable, w', body, hparse, hp, hf, hkind, hparameters, hcompile, hbody, ?_⟩
  intro owner u v
  obtain ⟨hself, hothers⟩ := (hown _ w').1 hnodup owner [u, v] (by rw [hparameters]; rfl)
  rw [hparameters] at hothers
  obtain ⟨ha, hothers⟩ := List.forall₂_cons.1 hothers
  exact ⟨hself, ha, (List.forall₂_cons.1 hothers).1⟩

/-- A listener with a parameter that is called like its owner. -/
def shadowing : String :=
  "root: Object \x7b x: Bool true, " ++
    "l: Listner(self: self.x) -> String %\x7b return typeof self; %\x7d \x7d"

theorem eq_string_of_strictEquals {v : Value} {s : String}
    (h : v.strictEquals (.string s) = true) : v = .string s := by
  cases v with
  | string t => exact congrArg Value.string (beq_iff_eq.1 h)
  | _ => cases h

/-- A listener whose body does not find its owner under the name `self`, but the argument of a
parameter that hides it. What the listener returns shows it. -/
theorem hides_owner : ∃ frame p f callable w' body,
    Frame.parse Table.empty shadowing = .ok frame ∧ p ∈ frame.preorder ∧
      p.2.function? = some f ∧ f.kind = .listener ∧ f.parameters = ["self", "self"] ∧
      compileFunction "root" "l" f 0 (World.create 256 16) = .ok callable w' ∧
      Script.parse f.script = .ok body ∧
      (∀ owner v, (f.closure body).valueIn w' [owner, v] "self" = some v) ∧
      ∃ root w, compileObject frame (World.create 256 16) = .ok root w ∧
        w.get? root "l" = some (.string "boolean") := by
  have hrun : Except.okWith (fun frame ↦ (frame.preorder.any fun p ↦ p.2.function?.any fun f ↦
      f.kind == .listener && f.parameters == ["self", "self"] &&
        (compileFunction "root" "l" f 0 (World.create 256 16)).okWith (fun _ _ ↦ true) &&
        Except.okWith (fun _ ↦ true) (Script.parse f.script)) &&
      (compileObject frame (World.create 256 16)).okWith fun root w ↦
        (w.get? root "l").any fun v ↦ v.strictEquals (.string "boolean"))
      (Frame.parse Table.empty shadowing) = true := by
    rw [Frame.parse_eq]
    delta shadowing
    repeat rewrite [String.toList_append]
    repeat rewrite [String.toList_ofList]
    decide +kernel
  obtain ⟨frame, hparse, hrun⟩ := Except.exists_of_okWith hrun
  rw [Bool.and_eq_true] at hrun
  obtain ⟨hmember, hobject⟩ := hrun
  obtain ⟨p, hp, hmember⟩ := List.any_eq_true.1 hmember
  obtain ⟨f, hf, hmember⟩ := (Option.any_eq_true _ _).1 hmember
  simp only [Bool.and_eq_true, beq_iff_eq] at hmember
  obtain ⟨⟨⟨hkind, hparameters⟩, hcompile⟩, hbody⟩ := hmember
  obtain ⟨callable, w', hcompile, -⟩ := Outcome.exists_of_okWith hcompile
  obtain ⟨body, hbody, -⟩ := Except.exists_of_okWith hbody
  obtain ⟨root, w, hobject, hl⟩ := Outcome.exists_of_okWith hobject
  obtain ⟨v, hget, hv⟩ := (Option.any_eq_true _ _).1 hl
  refine ⟨frame, p, f, callable, w', body, hparse, hp, hf, hkind, hparameters, hcompile, hbody, ?_,
    root, w, hobject, ?_⟩
  · intro owner v
    rw [Closure.valueIn_eq w' rfl]
    change (Script.argumentOf "self" f.parameters [owner, v]).or _ = some v
    rw [hparameters]
    rfl
  · rw [hget, eq_string_of_strictEquals hv]

end World

end ReactiveFrames
