import ReactiveFrames.Program
import ReactiveFrames.Proofs.Frame.Typing
import ReactiveFrames.Proofs.Script.Bodies

/-!
# Callables of function members

A function member is compiled by running a script that assigns its source to a variable. The body
stands in this script as it is, so that it can end the function expression early and be run in part.
It does so only by closing a brace that it did not open. Any other body either is a program of its
own, and then the body of the callable is this program and nothing is run, or the script is
malformed.

## Main definitions

* `Script.Machine.bindClosure`: a new closure in a global variable.

## Main statements

* `compileFunction_of_parse`: a program of its own is compiled to itself.
* `World.valid_body_compiles`: this holds of the function members of every frame that was read, on
  every machine.
* `World.callable_of_compileFunction`: no other body is compiled, unless it closes a brace that it
  did not open.
* `World.callable_of_compileFunction_escaping`: such a body can be compiled to another function, and
  be run by that.
-/

namespace ReactiveFrames

open Script (Value Host Machine)
open Script.Lexeme (IsWord)
open Decimal (isDigit)

/-! ## Names -/

/-- An identifier of frames is one of scripts. -/
theorem FrameLexeme.IsWord.isScriptWord {name : String} (h : IsWord name) :
    Script.Lexeme.IsWord name := by
  obtain ⟨c, rest, hname, hc, hrest⟩ := h.exists_cons
  refine ⟨c, rest, hname, ?_, fun d hd ↦ ?_⟩
  · rw [FrameLexeme.startsWord] at hc
    rw [Script.Lexeme.startsWord, hc, Bool.true_or]
  · have hcontinues := hrest d hd
    rw [FrameLexeme.continuesWord] at hcontinues
    rw [Script.Lexeme.continuesWord, hcontinues, Bool.true_or]

theorem isWord_self : IsWord "self" :=
  Script.Lexeme.isWord_of_all (show _ = 's' :: ['e', 'l', 'f'] from rfl) (by decide +kernel)

/-- The parameters of a function member are identifiers of scripts. -/
theorem Function.WellFormed.isWord_parameters {enums : EnumTable} {f : Function}
    (h : f.WellFormed enums) : ∀ name ∈ f.parameters, IsWord name := by
  obtain ⟨hhead, -⟩ := h
  cases f with
  | init argument script =>
    refine List.forall_mem_cons.2 ⟨isWord_self, List.forall_mem_map.2 fun a ha ↦ ?_⟩
    exact (hhead.1 a (Option.mem_toList.1 ha)).1.isWord.isScriptWord
  | event arguments script =>
    refine List.forall_mem_cons.2 ⟨isWord_self, List.forall_mem_map.2 fun a ha ↦ ?_⟩
    exact (hhead.1 a ha).isWord.isScriptWord
  | listener arguments returns script =>
    refine List.forall_mem_cons.2 ⟨isWord_self, List.forall_mem_map.2 fun a ha ↦ ?_⟩
    exact (hhead.1 a ha).isWord.isScriptWord
  | procedure arguments returns script =>
    refine List.forall_mem_map.2 fun a ha ↦ ?_
    exact (hhead.1 a ha).isWord.isScriptWord

/-- The function members of a frame that was read are well formed. -/
theorem Frame.wellFormed_function_of_parse {enums : EnumTable} {source : String} {frame : Frame}
    (hparse : Frame.parse enums source = .ok frame) {p : String × Member} (hp : p ∈ frame.preorder)
    {f : Function} (hf : p.2.function? = some f) : f.WellFormed enums := by
  have hmember := Member.WellFormed.of_mem_preorderList (wellFormed_of_parse hparse).members _ p hp
  cases hmember' : p.2 with
  | function name line g =>
    rw [hmember'] at hmember hf
    cases hf
    cases hmember with
    | function _ h => exact h
  | _ =>
    rw [hmember'] at hf
    cases hf

/-- They have identifiers of scripts as parameters. -/
theorem Frame.isWord_parameters_of_parse {enums : EnumTable} {source : String} {frame : Frame}
    (hparse : Frame.parse enums source = .ok frame) {p : String × Member} (hp : p ∈ frame.preorder)
    {f : Function} (hf : p.2.function? = some f) : ∀ name ∈ f.parameters, IsWord name :=
  (Frame.wellFormed_function_of_parse hparse hp hf).isWord_parameters

theorem toList_functionVariable (n : Nat) :
    (functionVariable n).toList = "_amber_temp_var".toList ++ Nat.toDigits 10 n := by
  change ("_amber_temp_var" ++ n.repr).toList = _
  rw [String.toList_append, Nat.toList_repr]

theorem isWord_functionVariable (n : Nat) : IsWord (functionVariable n) := by
  have htext : (functionVariable n).toList
      = '_' :: ("amber_temp_var".toList ++ Nat.toDigits 10 n) := by
    rw [toList_functionVariable]
    rfl
  have hname : "amber_temp_var".toList.all Script.Lexeme.continuesWord = true := by
    decide +kernel
  refine ⟨'_', _, htext, by decide +kernel,
    List.forall_mem_append.2 ⟨List.all_eq_true.1 hname, fun d hd ↦ ?_⟩⟩
  have hdigit : isDigit d = true := Decimal.allDigits_toDigits n d hd
  simp [Script.Lexeme.continuesWord, FrameLexeme.isNumeric_of_isDigit hdigit]

theorem functionVariable_notMem_reservedWords (n : Nat) :
    functionVariable n ∉ Script.Parser.reservedWords := by
  intro hmem
  have hhead : ∀ word ∈ Script.Parser.reservedWords, word.toList.head? ≠ some '_' := by
    decide +kernel
  exact hhead _ hmem (by rw [toList_functionVariable]; rfl)

/-! ## Assigned functions -/

namespace Script

variable {σ : Type}

/-- Machine with a new closure of the global scope in a global variable. -/
def Machine.bindClosure (name : String) (f : FunctionDecl) : Machine σ → Machine σ :=
  Machine.mapHeap fun h ↦ (h.newClosure ⟨f, []⟩).2.bindGlobal name (h.newClosure ⟨f, []⟩).1

/-- A script that assigns a function expression to a variable does nothing else. -/
theorem runProgram_of_assigned (host : Host σ) {source name : String} {f : FunctionDecl}
    (h : parse source = .ok [.expression (.assign none (.variable name) (.function f))])
    (bound : Nat) (m : Machine σ) : runProgram host (bound + 2) source m
      = .ok (.closure ⟨m.heap.closures.size⟩) (m.bindClosure name f) := by
  rw [runProgram, h]
  rfl

theorem runProgram_of_error (host : Host σ) {source : String} {e : SyntaxError}
    (h : parse source = .error e) (bound : Nat) (m : Machine σ) :
    runProgram host bound source m = .error (.malformed e) m := by
  rw [runProgram, h]
  rfl

end Script

/-! ## Function members -/

section Members

variable {path name : String} {f : Function} {n : Nat} {w w' : World}

theorem compileFunction_of_evaluate {callable : Value}
    (h : World.evaluate (functionVariable n ++ " = " ++ f.source) { w with failures := 0 }
      = .ok callable w') (hfailures : w'.failures = 0) (hcallable : callable.isCallable = true) :
    compileFunction path name f n w = .ok callable w' := by
  have hreset : { w' with failures := 0 } = w' := by rw [← hfailures]
  simp only [compileFunction, bind, Run.bind, Script.resetFailures, Run.update, Run.attempt,
    Run.state, h, hfailures, hcallable, hreset]
  rfl

theorem compileFunction_of_evaluate_error {e : Script.ScriptError}
    (h : World.evaluate (functionVariable n ++ " = " ++ f.source) { w with failures := 0 }
      = .error e w') :
    compileFunction path name f n w = .error (.script path name e) { w' with failures := 0 } := by
  simp only [compileFunction, bind, Run.bind, Script.resetFailures, Run.update, Run.attempt,
    Run.state, h]
  rfl

variable (hnames : ∀ name ∈ f.parameters, IsWord name)

include hnames

/-- The script that a function member is compiled by is what the body is, unless the body closes the
brace of its function. -/
theorem parse_assigned_source_iff (hclosed : Script.closesOuterBrace f.script = false) (n : Nat)
    {all : List Script.Stmt} :
    Script.parse (functionVariable n ++ " = " ++ f.source) = .ok all ↔
      ∃ body, Script.parse f.script = .ok body ∧ all = [.expression
        (.assign none (.variable (functionVariable n)) (.function (.mk none f.parameters body)))] :=
  Script.parse_assigned_iff (isWord_functionVariable n) (functionVariable_notMem_reservedWords n)
    hnames hclosed

/-- A body that is a program of its own is compiled to itself, and nothing of it is run. -/
theorem compileFunction_of_parse {body : List Script.Stmt} (h : Script.parse f.script = .ok body) :
    compileFunction path name f n w = .ok (.closure ⟨w.heap.closures.size⟩)
      (Machine.bindClosure (functionVariable n) (.mk none f.parameters body)
        { w with failures := 0 }) := by
  have hassigned := (parse_assigned_source_iff hnames (Script.closesOuterBrace_of_parse h) n).2
    ⟨body, h, rfl⟩
  have hrun := Script.runProgram_of_assigned World.scriptHost hassigned (stepBound - 2)
    { w with failures := 0 }
  rw [show stepBound - 2 + 2 = stepBound by decide] at hrun
  refine compileFunction_of_evaluate ?_ rfl rfl
  rw [World.evaluate, Script.evaluate, Script.counted, hrun]

/-- A body that is no program of its own is not compiled, unless it closes the brace of its
function. -/
theorem compileFunction_of_not_parse (hclosed : Script.closesOuterBrace f.script = false)
    {e : Script.SyntaxError} (h : Script.parse f.script = .error e) :
    ∃ e' : Script.SyntaxError, compileFunction path name f n w
      = .error (.script path name (.malformed e')) (Machine.note
        ⟨"script evaluation failed: " ++ (Script.ScriptError.malformed e').message, true⟩
        { w with failures := 0 }) := by
  cases hassigned : Script.parse (functionVariable n ++ " = " ++ f.source) with
  | ok all =>
    obtain ⟨body, hbody, -⟩ := (parse_assigned_source_iff hnames hclosed n).1 hassigned
    rw [h] at hbody
    cases hbody
  | error e' =>
    have hrun := Script.runProgram_of_error World.scriptHost hassigned stepBound
      { w with failures := 0 }
    have heval : World.evaluate (functionVariable n ++ " = " ++ f.source) { w with failures := 0 }
        = .error (.malformed e') (Machine.note
          ⟨"script evaluation failed: " ++ (Script.ScriptError.malformed e').message, true⟩
          { w with failures := 1 }) := by
      rw [World.evaluate, Script.evaluate, Script.counted, hrun]
      rfl
    exact ⟨e', compileFunction_of_evaluate_error heval⟩

theorem exists_parse_of_compileFunction (hclosed : Script.closesOuterBrace f.script = false)
    {callable : Value} (h : compileFunction path name f n w = .ok callable w') :
    ∃ body, Script.parse f.script = .ok body := by
  cases hbody : Script.parse f.script with
  | ok body => exact ⟨body, rfl⟩
  | error e =>
    obtain ⟨e', herror⟩ := compileFunction_of_not_parse hnames hclosed hbody
    rw [herror] at h
    cases h

/-- Among the bodies that are compiled, those that close the brace of their function are the ones
that are no programs. -/
theorem closesOuterBrace_iff_of_compileFunction {callable : Value}
    (h : compileFunction path name f n w = .ok callable w') :
    Script.closesOuterBrace f.script = true ↔ ∀ body, Script.parse f.script ≠ .ok body := by
  constructor
  · intro hcloses body hbody
    rw [Script.closesOuterBrace_of_parse hbody] at hcloses
    cases hcloses
  · intro hnone
    cases hclosed : Script.closesOuterBrace f.script with
    | true => rfl
    | false =>
      obtain ⟨body, hbody⟩ := exists_parse_of_compileFunction hnames hclosed h
      exact absurd hbody (hnone body)

end Members

/-! ## Bodies that are programs -/

namespace World

/-- A function member that was read and whose body is a program of its own is compiled to a closure
of the global scope, with the parameters of the member and with this program as its body. On any
machine the script that it is compiled by creates this closure, binds it to the variable of the
member, and does nothing else. -/
theorem valid_body_compiles {enums : EnumTable} {source : String} {frame : Frame}
    (hparse : Frame.parse enums source = .ok frame) {p : String × Member}
    (hp : p ∈ frame.preorder) {f : Function} (hf : p.2.function? = some f)
    {body : List Script.Stmt} (hbody : Script.parse f.script = .ok body) (n : Nat) :
    (∀ (σ : Type) (host : Host σ) (bound : Nat) (m : Machine σ),
      Script.evaluate host (bound + 2) (functionVariable n ++ " = " ++ f.source) m
        = .ok (.closure ⟨m.heap.closures.size⟩)
          (m.bindClosure (functionVariable n) (.mk none f.parameters body))) ∧
    (∀ (path name : String) (w : World), ∃ w',
      compileFunction path name f n w = .ok (.closure ⟨w.heap.closures.size⟩) w' ∧
      w'.heap.closures[w.heap.closures.size]? = some ⟨.mk none f.parameters body, []⟩ ∧
      w' = Machine.bindClosure (functionVariable n) (.mk none f.parameters body)
        { w with failures := 0 }) := by
  have hnames := Frame.isWord_parameters_of_parse hparse hp hf
  constructor
  · intro σ host bound m
    have hassigned := (parse_assigned_source_iff hnames (Script.closesOuterBrace_of_parse hbody)
      n).2 ⟨body, hbody, rfl⟩
    rw [Script.evaluate, Script.counted, Script.runProgram_of_assigned host hassigned]
  · intro path name w
    refine ⟨_, compileFunction_of_parse hnames hbody, ?_, rfl⟩
    exact Array.getElem?_push_size

/-- A function whose body ends in a comment, after a `return` without a value and without a
semicolon. -/
def unfinished : String := "root: Object \x7b stop: Func(a) %\x7b if (a) return // done %\x7d \x7d"

theorem valid_body_compiles_unfinished : ∃ frame p f body w',
    Frame.parse Table.empty unfinished = .ok frame ∧ p ∈ frame.preorder ∧
      p.2.function? = some f ∧ f.script = " if (a) return // done " ∧
      Script.parse f.script = .ok body ∧
      compileFunction "root" "stop" f 0 (World.create 256 16)
        = .ok (.closure ⟨(World.create 256 16).heap.closures.size⟩) w' ∧
      w' = Machine.bindClosure "_amber_temp_var0" (.mk none f.parameters body)
        { World.create 256 16 with failures := 0 } := by
  have hrun : Except.okWith (fun frame ↦ frame.preorder.any fun p ↦ p.2.function?.any fun f ↦
      f.script == " if (a) return // done " && Except.okWith (fun _ ↦ true) (Script.parse f.script))
      (Frame.parse Table.empty unfinished) = true := by
    rw [Frame.parse_eq]
    delta unfinished
    rewrite [String.toList_ofList]
    decide +kernel
  obtain ⟨frame, hparse, hrun⟩ := Except.exists_of_okWith hrun
  obtain ⟨p, hp, hrun⟩ := List.any_eq_true.1 hrun
  obtain ⟨f, hf, hrun⟩ := (Option.any_eq_true _ _).1 hrun
  rw [Bool.and_eq_true, beq_iff_eq] at hrun
  obtain ⟨body, hbody, -⟩ := Except.exists_of_okWith hrun.2
  obtain ⟨w', hcompile, -, hw'⟩ := (valid_body_compiles hparse hp hf hbody 0).2 "root" "stop"
    (World.create 256 16)
  exact ⟨frame, p, f, body, w', hparse, hp, hf, hrun.1, hbody, hcompile, hw'⟩

end World

/-! ## Bodies that close the brace of their function -/

namespace World

/-- The callable of a function member that was read has the parameters of the member, and its body
is the body of the member as a program of its own, unless that closes a brace that it did not open.
Compiling the member runs nothing, and a body that is no program is not compiled. -/
theorem callable_of_compileFunction {enums : EnumTable} {source : String} {frame : Frame}
    (hparse : Frame.parse enums source = .ok frame) {p : String × Member}
    (hp : p ∈ frame.preorder) {f : Function} (hf : p.2.function? = some f)
    (hclosed : Script.closesOuterBrace f.script = false) (path name : String) (n : Nat)
    (w : World) :
    (∀ callable w', compileFunction path name f n w = .ok callable w' →
      ∃ body, Script.parse f.script = .ok body ∧ callable = .closure ⟨w.heap.closures.size⟩ ∧
        w' = Machine.bindClosure (functionVariable n) (.mk none f.parameters body)
          { w with failures := 0 }) ∧
    (∀ e, Script.parse f.script = .error e → ∃ e' : Script.SyntaxError,
      compileFunction path name f n w = .error (.script path name (.malformed e')) (Machine.note
        ⟨"script evaluation failed: " ++ (Script.ScriptError.malformed e').message, true⟩
        { w with failures := 0 })) := by
  have hnames := Frame.isWord_parameters_of_parse hparse hp hf
  refine ⟨fun callable w' h ↦ ?_, fun e h ↦ compileFunction_of_not_parse hnames hclosed h⟩
  obtain ⟨body, hbody⟩ := exists_parse_of_compileFunction hnames hclosed h
  rw [compileFunction_of_parse hnames hbody] at h
  cases h
  exact ⟨body, hbody, rfl, rfl⟩

/-- A function with braces in a text and in a comment. -/
def quoting : String :=
  "root: Object \x7b quote: Func(a) %\x7b return \"\x7d\" + a // \x7d\n %\x7d \x7d"

theorem callable_of_compileFunction_quoting : ∃ frame p f callable w' body,
    Frame.parse Table.empty quoting = .ok frame ∧ p ∈ frame.preorder ∧
      p.2.function? = some f ∧ Script.closesOuterBrace f.script = false ∧
      compileFunction "root" "quote" f 0 (World.create 256 16) = .ok callable w' ∧
      Script.parse f.script = .ok body ∧
      w' = Machine.bindClosure "_amber_temp_var0" (.mk none f.parameters body)
        { World.create 256 16 with failures := 0 } := by
  have hrun : Except.okWith (fun frame ↦ frame.preorder.any fun p ↦ p.2.function?.any fun f ↦
      !Script.closesOuterBrace f.script &&
        (compileFunction "root" "quote" f 0 (World.create 256 16)).okWith fun _ _ ↦ true)
      (Frame.parse Table.empty quoting) = true := by
    rw [Frame.parse_eq]
    delta quoting
    rewrite [String.toList_ofList]
    decide +kernel
  obtain ⟨frame, hparse, hrun⟩ := Except.exists_of_okWith hrun
  obtain ⟨p, hp, hrun⟩ := List.any_eq_true.1 hrun
  obtain ⟨f, hf, hrun⟩ := (Option.any_eq_true _ _).1 hrun
  rw [Bool.and_eq_true, Bool.not_eq_true'] at hrun
  obtain ⟨callable, w', hcompile, -⟩ := Outcome.exists_of_okWith hrun.2
  obtain ⟨body, hbody, -, hw'⟩ := (callable_of_compileFunction hparse hp hf hrun.1 "root" "quote" 0
    (World.create 256 16)).1 callable w' hcompile
  exact ⟨frame, p, f, callable, w', body, hparse, hp, hf, hrun.1, hcompile, hbody, hw'⟩

/-- A body that ends its function and starts another one. -/
def escaping : String :=
  "root: Object \x7b f: Func(a) %\x7b return 1 \x7d; console.log(\"escaped\"); " ++
    "x = function(b) \x7b return 2 %\x7d \x7d"

/-- A body that closes the brace of its function is no program of its own, but it can be compiled,
and what stands behind the brace is run by that. -/
theorem callable_of_compileFunction_escaping : ∃ frame p f callable w',
    Frame.parse Table.empty escaping = .ok frame ∧ p ∈ frame.preorder ∧
      p.2.function? = some f ∧ Script.closesOuterBrace f.script = true ∧
      compileFunction "root" "f" f 0 (World.create 256 16) = .ok callable w' ∧
      (∀ body, Script.parse f.script ≠ .ok body) ∧ w'.console = #["escaped"] := by
  have hrun : Except.okWith (fun frame ↦ frame.preorder.any fun p ↦ p.2.function?.any fun f ↦
      Script.closesOuterBrace f.script &&
        (compileFunction "root" "f" f 0 (World.create 256 16)).okWith fun _ w' ↦
          w'.console == #["escaped"]) (Frame.parse Table.empty escaping) = true := by
    rw [Frame.parse_eq]
    delta escaping
    repeat rewrite [String.toList_append]
    repeat rewrite [String.toList_ofList]
    decide +kernel
  obtain ⟨frame, hparse, hrun⟩ := Except.exists_of_okWith hrun
  obtain ⟨p, hp, hrun⟩ := List.any_eq_true.1 hrun
  obtain ⟨f, hf, hrun⟩ := (Option.any_eq_true _ _).1 hrun
  obtain ⟨hcloses, hrun⟩ := Bool.and_eq_true_iff.1 hrun
  obtain ⟨callable, w', hcompile, hconsole⟩ := Outcome.exists_of_okWith hrun
  refine ⟨frame, p, f, callable, w', hparse, hp, hf, hcloses, hcompile, fun body hbody ↦ ?_,
    beq_iff_eq.1 hconsole⟩
  rw [Script.closesOuterBrace_of_parse hbody] at hcloses
  cases hcloses

end World

end ReactiveFrames
