import ReactiveFrames.Data

/-!
# Files

Reading files, in whatever monad they are found. A tree of files in memory is one instance of it; a
path is walked through the tree component by component, as a file system does it.

## Main definitions

* `ReadFault`: why a file is not read.
* `FileAccess`: files by their paths.
* `FileAccess.resources`: the data frames of a directory.
* `FileTree`: files in memory.
-/

namespace ReactiveFrames

/-- Why a file is not read. -/
inductive ReadFault where
  | missing
  | denied
  | notADirectory
  | isADirectory
  /-- The bytes of the file are no text. -/
  | notText
  | other (text : String)
  deriving DecidableEq, Repr

/-- Wording of a read fault. -/
def ReadFault.message : ReadFault → String
  | missing => "No such file or directory (os error 2)"
  | denied => "Permission denied (os error 13)"
  | notADirectory => "Not a directory (os error 20)"
  | isADirectory => "Is a directory (os error 21)"
  | notText => "stream did not contain valid UTF-8"
  | other text => text

/-- Files by their paths. -/
structure FileAccess (m : Type → Type) where
  read : String → m (Except ReadFault String)
  /-- Names of what is in a directory. -/
  list : String → m (List String)

namespace FileAccess

variable {m : Type → Type} [Monad m]

/-- A text that is listed under a path, unless it cannot be read. -/
def readInto (access : FileAccess m) (texts : Table String) (path : String) :
    m (Table String) := do
  match ← access.read path with
  | .ok text => pure (texts.insert path text)
  | .error _ => pure texts

/-- The data frames of a directory: of its files, those that an identifier names. -/
def resources (access : FileAccess m) (dir : String) : m Resources := do
  let names ← access.list dir
  let paths := names.filter fun name ↦ resourcePath? dir (Path.withoutExtension name)
    = some (Path.join dir name)
  let texts ← paths.foldlM (fun texts name ↦ access.readInto texts (Path.join dir name)) Table.empty
  pure (.directory dir texts)

end FileAccess

/-! ## Files in memory -/

/-- Files in memory, by paths without points and empty components. -/
structure FileTree where
  files : Table String

namespace FileTree

/-- Components of a path, also empty ones. -/
def components (path : String) : List String := path.splitOn "/"

/-- Components of all files. -/
def paths (t : FileTree) : List (List String) := t.files.names.map components

/-- Components lead to a directory. -/
def isDirectory (t : FileTree) (path : List String) : Bool :=
  path.isEmpty || t.paths.any fun p ↦ path.length < p.length && path.isPrefixOf p

/-- Components lead to a file. -/
def isFile (t : FileTree) (path : List String) : Bool := t.paths.contains path

/-- Walks from a directory or file along further components. -/
def walk (t : FileTree) (place : List String) : List String → Except ReadFault (List String)
  | [] => .ok place
  | name :: rest =>
    if t.isFile place then .error .notADirectory
    else if name = "" ∨ name = "." then walk t place rest
    else if name = ".." then
      if place.isEmpty then .error .missing else walk t place.dropLast rest
    else if t.isFile (place ++ [name]) || t.isDirectory (place ++ [name]) then
      walk t (place ++ [name]) rest
    else .error .missing

/-- Place that a path leads to. There are no files under absolute paths. -/
def resolve (t : FileTree) (path : String) : Except ReadFault (List String) :=
  if path.isEmpty || Path.isAbsolute path then .error .missing else walk t [] (components path)

/-- Text of a file. -/
def read (t : FileTree) (path : String) : Except ReadFault String := do
  let place ← t.resolve path
  match t.files.find? ("/".intercalate place) with
  | some text => pure text
  | none => throw .isADirectory

/-- Names of what is in a directory. -/
def list (t : FileTree) (path : String) : List String :=
  match t.resolve (if path.isEmpty then "." else path) with
  | .error _ => []
  | .ok place =>
    (t.paths.filterMap fun p ↦
      if place.isPrefixOf p then p[place.length]? else none).eraseDups

/-- The files of a tree. -/
def access (t : FileTree) : FileAccess Id := ⟨t.read, t.list⟩

end FileTree

end ReactiveFrames
