import ReactiveFrames.Reactive.Liveness
import ReactiveFrames.Script.Eval

/-!
# Setting properties

Setting a property stores the value and then runs the observers of the property, in the order in
which they were added, before the write returns. An observer may set further properties, also by way
of a script. While the observers of a property are running, another write of that property is
refused; so the writes that are running observers at one time are writes of different properties,
and their number is bounded by the number of observed properties.

A write at a level makes its nested writes at the level below. The levels are laid out for the
observed properties, and no script can add to those.

## Main definitions

* `Access`: how a computation reads and writes properties.
* `invokeListener`: runs a listener once and stores its result.
* `setWithin`: a write with a given number of levels.
* `World.set`, `World.evaluate`, `World.call`: writes, scripts and calls, with enough levels.
-/

namespace ReactiveFrames

open Script (Value Host HostRef ForeignRef Action)
open Script.Machine (pinningValues)

/-- Looks up a property of an object, if it is there. -/
abbrev Lookup := World → ObjectRef → String → Option Value

/-- Writes a property of an object. -/
abbrev Writer := ObjectRef → String → Value → Effect ObserverError Unit

/-- How a computation gets at the properties of objects. -/
structure Access where
  read : Lookup
  write : Writer

/-! ## What scripts reach -/

/-- Notice that no data were read. -/
def dataNotice (cause : String) : Script.Notice := ⟨"readData [Error] " ++ cause, false⟩

/-- Record of the data under the identifier that a script passes. If there is none, a notice tells
why, and the value is `null`. -/
def readDataValue (reader : DataReader) (arguments : List Value) : Action ObjectGraph Value :=
  fun w ↦
    match arguments with
    | .string identifier :: _ =>
      match reader.read identifier w.heap with
      | .ok (v, h) => .ok v { w with heap := h }
      | .error e => .ok .null (w.note (dataNotice e.message))
    | _ => .ok .null (w.note (dataNotice "name string is required"))

/-- Calls a function outside scripts. -/
def Foreign.apply (f : Foreign) (arguments : List Value) : Action ObjectGraph Value :=
  match f with
  | readData reader => readDataValue reader arguments
  | echo => Action.allocate fun h ↦ h.newArray arguments.toArray
  | failing text => Run.fail (.foreign text)

/-- A write by a script: it never fails, and a refusal is reported. -/
def reporting {ε : Type} (x : Effect ObserverError Unit) : Effect ε Unit := fun w ↦
  match x w with
  | .ok () w' => .ok () w'
  | .error e w' => .ok () (World.report e w')
  | .exhausted w' => .exhausted w'

/-- The objects as scripts get at them. -/
def hostOf (access : Access) : Host ObjectGraph where
  read ref property w := (access.read w ⟨ref.index⟩ property).getD .undefined
  write ref property value := reporting (access.write ⟨ref.index⟩ property value)
  call ref arguments := fun w ↦
    match w.host.foreigns[ref.index]? with
    | some f => f.apply arguments w
    | none => .ok .undefined w

/-! ## Listeners -/

/-- Values that the arguments of a listener are bound to. -/
def pointedValues (read : Lookup) (w : World) (listener : String) :
    List Pointer → Except ObserverError (List Value)
  | [] => .ok []
  | p :: ps =>
    if World.isAlive w p.object then
      match read w p.object p.property with
      | some v => do pure (v :: (← pointedValues read w listener ps))
      | none => .error (.missingProperty (World.object w p.object).path p.property listener)
    else .error (.released listener)

/-- Callable and arguments of a listener. -/
def listenerCall? (read : Lookup) (w : World) (owner : ObjectRef) (listener : String) :
    Except ObserverError (Value × List Value) := do
  if !World.isAlive w owner then throw (.released listener)
  let object := World.object w owner
  let callable ← match object.listener? listener with
    | some callable => pure callable
    | none => throw (.missingFunction object.path listener)
  let values ← pointedValues read w listener ((object.pointers.find? listener).getD [])
  pure (callable, World.toValue w owner :: values)

/-- Writes what the call of a listener yielded to the property of the same name. -/
def storeResult (write : Writer) (owner : ObjectRef) (listener : String)
    (result : Except Script.ScriptError Value) : Effect ObserverError Unit := do
  Script.resetFailures
  let path := (World.object (← Run.state) owner).path
  match result with
  | .error e => Run.fail (.script path listener e)
  | .ok .undefined => Run.fail (.noResult path listener)
  | .ok v => write owner listener v

/-- Runs a listener once on the values that it points at, and stores its result. What the listener
was called with stays pinned until then. -/
def invokeListener (bound : Nat) (access : Access) (owner : ObjectRef) (listener : String) :
    Effect ObserverError Unit := do
  let (callable, arguments) ← fun w ↦ Run.ofExcept (listenerCall? access.read w owner listener) w
  pinningValues (callable :: arguments) do
    let result ← (Script.callValue (hostOf access) bound callable arguments).attempt
    storeResult access.write owner listener result

/-! ## Observers -/

/-- Writes a line to the console that shows a value. -/
def logValue {ε : Type} (tag : String) (v : Value) : Effect ε Unit := do
  let text ← fun w ↦ Run.ofOption (w.heap.description? v) w
  Run.update (Script.Machine.log (tag ++ " " ++ text))

/-- Makes the write of a watcher and writes its result to the console. -/
def follow {ε : Type} (write : Writer) (tag : String) (f : FollowUp) : Effect ε Unit := do
  let result ← fun w ↦
    if World.isAlive w f.object then
      (do
        match ← (write f.object f.property f.value).attempt with
        | .ok () => pure "ok"
        | .error e => pure (ObserverError.message e)) w
    else .ok "gone" w
  Run.update (Script.Machine.log (tag ++ " then " ++ f.property ++ ": " ++ result))

/-- Runs an observer of a property that now has the given value. -/
def runObserver {ε : Type} (bound : Nat) (access : Access) (value : Value) :
    Observer → Effect ε Unit
  | .listener owner name => reporting (invokeListener bound access owner name)
  | .watcher tag followUp => do
    logValue tag value
    match followUp with
    | some f => follow access.write tag f
    | none => pure ()

/-- Runs observers one after the other. -/
def runObservers {ε : Type} (bound : Nat) (access : Access) (value : Value) :
    List Observer → Effect ε Unit
  | [] => pure ()
  | observer :: rest => do
    runObserver bound access value observer
    runObservers bound access value rest

/-! ## Writes -/

/-- Marks a property as one whose observers are running. -/
def World.startNotifying (o : ObjectRef) (property : String) (w : World) : World :=
  w.modify o fun object ↦ { object with notifying := property :: object.notifying }

/-- Takes the mark of a property away. -/
def World.stopNotifying (o : ObjectRef) (property : String) (w : World) : World :=
  w.modify o fun object ↦ { object with notifying := object.notifying.filter (· != property) }

/-- Sets a property, whose observers have the given access to all properties. The object and the
value are pinned while the observers run. -/
def setWith (bound : Nat) (access : Access) : Writer := fun o property value ↦ do
  let w ← Run.state
  let object := World.object w o
  if property ∈ object.notifying then Run.fail (.cycle object.path property)
  else
    Run.update (World.define o property value)
    match object.observersOf property with
    | [] => pure ()
    | observers =>
      Run.update (World.startNotifying o property)
      pinningValues [World.toValue w o, value] (runObservers bound access value observers)
      Run.update (World.stopNotifying o property)

/-- Sets a property with at most the given number of nested writes. All of them read as given. -/
def setWithin (bound : Nat) (read : Lookup) : Nat → Writer
  | 0 => fun _ _ _ ↦ Run.exhaust
  | levels + 1 => setWith bound ⟨read, setWithin bound read levels⟩

/-- Bound of the steps of a script. No script that ends comes near it. -/
def stepBound : Nat := 1 <<< 60

namespace World

/-- Nested writes that can occur: one for each observed property, and one of a property without
observers. -/
def levels (w : World) : Nat :=
  (w.host.objects.foldl (fun n o ↦ n + o.observers.entries.length) 0) + 2

/-- Sets a property and runs its observers, whose scripts have a bound of steps. -/
def setBounded (bound : Nat) : Writer := fun o property value w ↦
  setWithin bound get? w.levels o property value w

/-- Sets a property and runs its observers. -/
def set : Writer := setBounded stepBound

/-- Sets a property and tells whether it was set; a refusal is reported. -/
def offer {ε : Type} (o : ObjectRef) (property : String) (value : Value) : Effect ε Bool := fun w ↦
  match set o property value w with
  | .ok () w' => .ok true w'
  | .error e w' => .ok false (report e w')
  | .exhausted w' => .exhausted w'

/-- Access to the properties as they are. -/
def access : Access := ⟨get?, set⟩

/-- What scripts reach. -/
def scriptHost : Host ObjectGraph := hostOf access

/-- Runs a script in the global scope. -/
def evaluate (source : String) : Effect Script.ScriptError Value :=
  Script.evaluate scriptHost stepBound source

/-- Calls a value. -/
def call (f : Value) (arguments : List Value) : Effect Script.ScriptError Value :=
  Script.callValue scriptHost stepBound f arguments

/-- Runs a listener once. -/
def invoke (owner : ObjectRef) (listener : String) : Effect ObserverError Unit :=
  invokeListener stepBound access owner listener

/-- Runs a listener once and reports its failure. -/
def fire {ε : Type} (owner : ObjectRef) (listener : String) : Effect ε Unit :=
  reporting (invoke owner listener)

end World

end ReactiveFrames
