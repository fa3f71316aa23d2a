import ReactiveFrames.Component
import ReactiveFrames.Toml.Document

/-!
# Configuration

What a compile depends on besides the source: the enum types, the classes for which there are
components, the directory of the data frames and the number of nested calls. A configuration is
written as a TOML document, in which each part may be missing and further keys count nothing.

## Main definitions

* `Config`, with `Config.ofToml`.
* `Config.enumTable`, `Config.registry`: what the parts stand for.
-/

namespace ReactiveFrames

/-- What a compile depends on besides the source. -/
structure Config where
  /-- Members of the enum types. -/
  enums : Table (Table Int) := Table.empty
  /-- Frames of all classes have components. -/
  allowUnknownClasses : Bool := false
  /-- Directory of the data frames that scripts can read. -/
  resourceDir : Option String := none
  /-- Closures that may be called at once. -/
  maxCallDepth : Nat := Script.defaultMaxDepth

/-- Why a text is no configuration. -/
inductive ConfigError where
  | toml (e : Toml.Error)
  /-- The item of a key is of another type. -/
  | mistyped (key : String)
  deriving DecidableEq, Repr

/-- Wording of a configuration error. -/
def ConfigError.message : ConfigError → String
  | toml e => e.message
  | mistyped key => "the value of " ++ key ++ " has a wrong type"

namespace Config

/-- Nothing is configured. -/
def isDefault (c : Config) : Bool :=
  c.enums.isEmpty && !c.allowUnknownClasses && c.resourceDir.isNone &&
    c.maxCallDepth == Script.defaultMaxDepth

/-- The enum types. -/
def enumTable (c : Config) : EnumTable := EnumTable.ofDefinitions c.enums

/-- The classes for which there are components. -/
def registry (c : Config) : ComponentRegistry := ⟨[baseClass], c.allowUnknownClasses⟩

/-! ## Reading -/

/-- Integer of an item. -/
def integer? : Toml.Item → Option Int
  | .integer i => some i
  | _ => none

/-- Table of an item whose entries are all of one type. -/
def table? {α : Type} (read : Toml.Item → Option α) : Toml.Item → Option (Table α)
  | .table _ entries =>
    (entries.mapM fun e : String × Toml.Item ↦ (read e.2).map fun a ↦ (e.1, a)).map Table.ofList
  | _ => none

/-- Truth value of an item. -/
def bool? : Toml.Item → Option Bool
  | .bool b => some b
  | _ => none

/-- Text of an item. -/
def string? : Toml.Item → Option String
  | .string s => some s
  | _ => none

/-- Natural number of an item. -/
def natural? : Toml.Item → Option Nat
  | .integer i => if 0 ≤ i then some i.toNat else none
  | _ => none

/-- Part of a configuration under a key, or what it is when the key is missing. -/
def part {α : Type} (entries : Toml.Entries) (key : String) (read : Toml.Item → Option α)
    (missing : α) : Except ConfigError α :=
  match entries.find? key with
  | none => .ok missing
  | some item =>
    match read item with
    | some a => .ok a
    | none => .error (.mistyped key)

/-- Configuration with the given entries. -/
def ofEntries (entries : Toml.Entries) : Except ConfigError Config := do
  let default : Config := {}
  let enums ← part entries "enums" (table? (table? integer?)) default.enums
  let allowUnknownClasses ← part entries "allow_unknown_classes" bool? default.allowUnknownClasses
  let resourceDir ← part entries "resource_dir" (fun i ↦ (string? i).map some) default.resourceDir
  let maxCallDepth ← part entries "max_call_depth" natural? default.maxCallDepth
  pure ⟨enums, allowUnknownClasses, resourceDir, maxCallDepth⟩

/-- Configuration that a TOML document holds. -/
def ofToml (source : String) : Except ConfigError Config := do
  ofEntries (← (Toml.parse source).mapError ConfigError.toml)

/-- Configuration of a file: its directory of data frames is relative to the directory of the
file. -/
def relativeTo (c : Config) (file : String) : Config :=
  match c.resourceDir, Path.parent? file with
  | some dir, some parent => { c with resourceDir := some (Path.join parent dir) }
  | _, _ => c

end Config

end ReactiveFrames
