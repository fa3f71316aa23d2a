/-!
# Arguments of a command line

An argument that starts with a hyphen is an option, by its long name after two hyphens or by letters
after one, where several letters may share a hyphen. The value of an option follows it, after an
equals sign, directly after its letter, or as the next argument if that is no option. Two hyphens
alone end the options. Everything else is an operand.

## Main definitions

* `OptionSpec`: what an option is called and may have.
* `Gathered`: options and operands that were read.
* `gather`: reads arguments up to their end or up to a command.
-/

namespace ReactiveFrames.CommandLine

/-- What an option is called and may have. -/
structure OptionSpec where
  long : String
  letter : Option Char := none
  takesValue : Bool := false
  /-- The option may be given more than once. -/
  repeats : Bool := false
  /-- The value may be empty. -/
  mayBeEmpty : Bool := false
  /-- The option ends the reading of arguments. -/
  interrupts : Bool := false
  deriving DecidableEq, Repr

/-- Why arguments are not read to their end. -/
inductive Interruption where
  /-- The arguments are not those of a command. -/
  | usage
  /-- An option that interrupts. -/
  | option (long : String)
  deriving DecidableEq, Repr

/-- Options and operands that were read, in order. -/
structure Gathered where
  options : List (String × String) := []
  operands : List String := []
  deriving DecidableEq, Repr

namespace Gathered

/-- Values of an option. -/
def values (g : Gathered) (long : String) : List String :=
  (g.options.filter fun o ↦ o.1 = long).map (·.2)

/-- Last value of an option. -/
def value? (g : Gathered) (long : String) : Option String := (g.values long).getLast?

/-- An option was given. -/
def has (g : Gathered) (long : String) : Bool := (g.value? long).isSome

/-- Adds an option with its value. -/
def add (g : Gathered) (spec : OptionSpec) (value : String) : Except Interruption Gathered :=
  if spec.interrupts then .error (.option spec.long)
  else if g.has spec.long && !spec.repeats then .error .usage
  else if spec.takesValue && value.isEmpty && !spec.mayBeEmpty then .error .usage
  else .ok { g with options := g.options ++ [(spec.long, value)] }

end Gathered

/-- What is missing after an argument. -/
inductive Pending where
  | nothing
  /-- The value of an option. -/
  | value (spec : OptionSpec)

/-- An argument is an option, or ends the options. -/
def startsOption (argument : List Char) : Bool :=
  match argument with
  | ['-'] => false
  | c :: _ => c == '-'
  | [] => false

/-- Reads a long option after its hyphens. -/
def addLong (specs : List OptionSpec) (g : Gathered) (text : List Char) :
    Except Interruption (Gathered × Pending) := do
  let name := String.ofList (text.takeWhile (· != '='))
  let attached := text.dropWhile (· != '=')
  match specs.find? fun s ↦ s.long = name with
  | none => throw .usage
  | some spec =>
    if attached.isEmpty then
      if spec.takesValue then pure (g, .value spec) else pure (← g.add spec "", .nothing)
    else if spec.takesValue then pure (← g.add spec (String.ofList attached.tail), .nothing)
    else throw .usage

/-- Reads the letters of options after a hyphen. -/
def addLetters (specs : List OptionSpec) (g : Gathered) :
    List Char → Except Interruption (Gathered × Pending)
  | [] => .ok (g, .nothing)
  | c :: rest => do
    match specs.find? fun s ↦ s.letter = some c with
    | none => throw .usage
    | some spec =>
      if !spec.takesValue then addLetters specs (← g.add spec "") rest
      else if rest.isEmpty then pure (g, .value spec)
      else
        let value := if rest.head? = some '=' then rest.tail else rest
        pure (← g.add spec (String.ofList value), .nothing)

/-- Reads an argument that starts an option. -/
def addOption (specs : List OptionSpec) (g : Gathered) (argument : List Char) :
    Except Interruption (Gathered × Pending) :=
  match argument with
  | '-' :: '-' :: text => addLong specs g text
  | letters => addLetters specs g letters.tail

/-- Reads arguments. If `commands` is set, the first operand names a command, and is left with all
that follows it. -/
def gather (specs : List OptionSpec) (commands : Bool) (g : Gathered) :
    Pending → List String → Except Interruption (Gathered × List String)
  | .nothing, [] => .ok (g, [])
  | .value _, [] => .error .usage
  | .value spec, argument :: rest => do
    if startsOption argument.toList then throw .usage
    gather specs commands (← g.add spec argument) .nothing rest
  | .nothing, argument :: rest => do
    if argument = "--" then
      if commands then throw .usage
      else pure ({ g with operands := g.operands ++ rest }, [])
    else if startsOption argument.toList then
      let (g, pending) ← addOption specs g argument.toList
      gather specs commands g pending rest
    else if commands then pure (g, argument :: rest)
    else gather specs commands { g with operands := g.operands ++ [argument] } .nothing rest

/-! ## Commands -/

/-- What is to be done. -/
inductive Command where
  | version
  /-- Prints the frame of a source, or its form for exchange. -/
  | parse (input : String) (json : Bool)
  /-- Compiles a source and lists its components. -/
  | compile (input : String)
  /-- Executes a source and evaluates scripts. -/
  | run (input : String) (scripts : List String) (argument : Option String)
  deriving DecidableEq, Repr

/-- A command with the path of its configuration. -/
structure Invocation where
  command : Command
  config : Option String := none
  /-- Notices of details are asked for. -/
  verbose : Bool := false
  deriving DecidableEq, Repr

/-- Option for the path of the configuration. -/
def configOption : OptionSpec := { long := "config", takesValue := true }

/-- Option for more messages. -/
def verboseOption : OptionSpec := { long := "verbose", letter := some 'v' }

/-- Option for the version. -/
def versionOption : OptionSpec := { long := "version", letter := some 'V', interrupts := true }

/-- Option for the exchange form. -/
def jsonOption : OptionSpec := { long := "json" }

/-- Option for a script. -/
def evalOption : OptionSpec :=
  { long := "eval", letter := some 's', takesValue := true, repeats := true, mayBeEmpty := true }

/-- Option for the argument of the init functions. -/
def argOption : OptionSpec := { long := "arg", takesValue := true, mayBeEmpty := true }

/-- Options of a command beside those that every command has. -/
def optionsOf? (command : String) : Option (List OptionSpec) :=
  match command with
  | "parse" => some [jsonOption]
  | "compile" => some []
  | "run" => some [evalOption, argOption]
  | _ => none

/-- The single operand of a command, which is a path. -/
def inputOf? (g : Gathered) : Option String :=
  match g.operands with
  | [input] => if input.isEmpty then none else some input
  | _ => none

/-- Command of a name with its options and operands. -/
def commandOf? (name : String) (g : Gathered) : Option Command := do
  let input ← inputOf? g
  match name with
  | "parse" => some (.parse input (g.has jsonOption.long))
  | "compile" => some (.compile input)
  | "run" => some (.run input (g.values evalOption.long) (g.value? argOption.long))
  | _ => none

/-- What arguments ask for, unless they are those of no command. -/
def Invocation.ofArguments? (arguments : List String) : Option Invocation :=
  match gather [configOption, verboseOption, versionOption] true {} .nothing arguments with
  | .error (.option _) => some { command := .version }
  | .error .usage => none
  | .ok (_, []) => none
  | .ok (before, name :: rest) => do
    let specs ← optionsOf? name
    let after ← (gather (configOption :: verboseOption :: specs) false {} .nothing rest).toOption
    let command ← commandOf? name after.1
    some
      { command := command
        config := (after.1.value? configOption.long).or (before.value? configOption.long)
        verbose := after.1.has verboseOption.long || before.has verboseOption.long }

end ReactiveFrames.CommandLine
