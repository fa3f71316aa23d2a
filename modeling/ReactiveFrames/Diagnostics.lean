import ReactiveFrames.Script.Error

/-!
# Diagnostics

Failures of listeners stop nothing; they are collected here. Only the newest ones are kept, and all
are counted.

## Main definitions

* `ObserverError`: how the run of a listener, or the write of a property, fails.
* `Diagnostics`: the collection, with `Diagnostics.report` and `Diagnostics.clear`.
-/

namespace ReactiveFrames

/-- Failures around observed properties. Objects are named by their paths. -/
inductive ObserverError where
  /-- A listener points at a property that is not there. -/
  | missingProperty (object property listener : String)
  | missingFunction (object listener : String)
  | script (object listener : String) (error : Script.ScriptError)
  /-- The body of a listener returned nothing. -/
  | noResult (object listener : String)
  /-- Write of a property whose observers are still running. -/
  | cycle (object property : String)
  /-- The owner of a listener, or an object that it points at, is gone. -/
  | released (listener : String)
  deriving DecidableEq, Repr

/-- Wording of a failure. -/
def ObserverError.message : ObserverError → String
  | missingProperty object property listener =>
    "Property " ++ object ++ "." ++ property ++ " is not defined for listener " ++ listener
  | missingFunction object listener => "No listener function " ++ listener ++ " in " ++ object
  | script object listener error =>
    "Listener " ++ object ++ "." ++ listener ++ " failed: " ++ error.message
  | noResult object listener =>
    "Listener " ++ object ++ "." ++ listener ++ " returned no value"
  | cycle object property =>
    "Cyclic update of " ++ object ++ "." ++ property ++ " while its observers are running"
  | released listener => "Object of listener " ++ listener ++ " has been released"

/-- Collected failures. -/
structure Diagnostics where
  /-- Failures that are kept at most. -/
  capacity : Nat
  /-- Kept failures, oldest first. -/
  errors : List ObserverError := []
  /-- Failures since the last time they were cleared, kept or not. -/
  reported : Nat := 0

namespace Diagnostics

/-- Failures that are kept unless another number is set. -/
def defaultCapacity : Nat := 256

/-- The number of failures is not counted beyond this. -/
def maxReported : Nat := 18446744073709551615

/-- Collects a failure. When no more can be kept, the oldest one goes. -/
def report (d : Diagnostics) (e : ObserverError) : Diagnostics :=
  let kept := if d.capacity ≤ d.errors.length then d.errors.drop 1 else d.errors
  { d with
    reported := min (d.reported + 1) maxReported
    errors := if d.capacity = 0 then d.errors else kept ++ [e] }

/-- Forgets all failures. -/
def clear (d : Diagnostics) : Diagnostics := { d with errors := [], reported := 0 }

/-- Failures that were not kept. -/
def dropped (d : Diagnostics) : Nat := d.reported - d.errors.length

end Diagnostics

end ReactiveFrames
