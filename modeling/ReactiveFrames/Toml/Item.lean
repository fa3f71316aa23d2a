/-!
# TOML documents

A document is a tree of tables. How a table came to be decides how it may still be extended: one
that was only implied by the header of a table inside it may get a header of its own, one that was
made by a dotted key may get further dotted keys, and an inline table is closed.

## Main definitions

* `Item`: a value or a table, with the `Origin` of every table.
* `Item.extend`: changes the table at a path and makes the tables on the way.
* `Section`: a header and the entries below it.
* `Item.ofSections`: the tree of a document.
-/

namespace ReactiveFrames.Toml

/-- How a table came to be. -/
inductive Origin where
  /-- By its own header; also the table of the whole document. -/
  | header
  /-- By the header of a table inside it. -/
  | implied
  /-- By a dotted key. -/
  | dotted
  /-- By a value in braces. -/
  | inline
  deriving DecidableEq, Repr

/-- A part of a document. -/
inductive Item where
  | string (s : String)
  | integer (i : Int)
  | float (x : Float)
  | bool (b : Bool)
  /-- A date, a time or both. -/
  | dateTime (text : String)
  | array (items : List Item)
  | table (origin : Origin) (entries : List (String × Item))
  /-- Tables that a repeated header makes, in order. -/
  | tables (items : List (List (String × Item)))

/-- Entries of a table. -/
abbrev Entries := List (String × Item)

/-- A key that cannot be used as it is. -/
inductive Conflict where
  /-- The key is defined already. -/
  | redefined (key : String)
  /-- The key is that of a value, not of a table. -/
  | notATable (key : String)
  deriving DecidableEq, Repr

namespace Entries

/-- Item of a key. -/
def find? (entries : Entries) (key : String) : Option Item := List.lookup key entries

/-- Binds a key in its place, or at the end. -/
def put (key : String) (item : Item) : Entries → Entries
  | [] => [(key, item)]
  | (k, old) :: rest => if k = key then (key, item) :: rest else (k, old) :: put key item rest

/-- Changes the table at a path below a table of the given origin. A table that is missing on the
way is made, with the origin `made`; a dotted key does not enter a table with a header. -/
def extend (made : Origin) (f : Origin → Entries → Except Conflict Entries) :
    List String → Origin → Entries → Except Conflict Entries
  | [], origin, entries => f origin entries
  | key :: path, _, entries => do
    match find? entries key with
    | none => pure (put key (.table made (← extend made f path made [])) entries)
    | some (.table origin inner) =>
      if origin = .inline ∨ (made = .dotted ∧ origin = .header) then throw (.redefined key)
      else pure (put key (.table origin (← extend made f path origin inner)) entries)
    | some (.tables items) =>
      let last ← extend made f path .header (items.getLast?.getD [])
      pure (put key (.tables (items.dropLast ++ [last])) entries)
    | some _ => throw (.notATable key)

/-- Binds a key that is not bound yet. -/
def add (key : String) (item : Item) (entries : Entries) : Except Conflict Entries :=
  if (find? entries key).isSome then .error (.redefined key) else .ok (put key item entries)

/-- Adds the item of a key with the given parts. -/
def addAt (path : List String) (item : Item) (entries : Entries) : Except Conflict Entries :=
  match path.getLast? with
  | none => .ok entries
  | some key =>
    extend .dotted
      (fun origin inner ↦
        if path.length ≠ 1 ∧ origin ≠ .dotted then .error (.redefined key) else add key item inner)
      path.dropLast .header entries

/-- Adds items one after the other. -/
def addAll (items : List (List String × Item)) (entries : Entries) : Except Conflict Entries :=
  items.foldlM (fun entries i ↦ addAt i.1 i.2 entries) entries

end Entries

/-- Where the entries of a section go. -/
inductive Header where
  /-- Into the table of the whole document. -/
  | document
  /-- Into the table at a path. -/
  | table (path : List String)
  /-- Into a further one of the tables at a path. -/
  | element (path : List String)
  deriving DecidableEq, Repr

/-- A header and the entries below it. -/
structure Section where
  header : Header
  items : List (List String × Item) := []

namespace Section

/-- Table of a section at a key, given what is there already. -/
def placeTable (s : Section) (key : String) (entries : Entries) : Except Conflict Entries := do
  match entries.find? key with
  | none => pure (entries.put key (.table .header (← Entries.addAll s.items [])))
  | some (.table .implied inner) =>
    pure (entries.put key (.table .header (← Entries.addAll s.items inner)))
  | some _ => throw (.redefined key)

/-- Further one of the tables at a key. -/
def placeElement (s : Section) (key : String) (entries : Entries) : Except Conflict Entries := do
  let element ← Entries.addAll s.items []
  match entries.find? key with
  | none => pure (entries.put key (.tables [element]))
  | some (.tables items) => pure (entries.put key (.tables (items ++ [element])))
  | some _ => throw (.redefined key)

/-- Adds a section to the tree of the sections before it. -/
def addTo (entries : Entries) (s : Section) : Except Conflict Entries :=
  let below (path : List String) (place : String → Entries → Except Conflict Entries) :=
    match path.getLast? with
    | none => .ok entries
    | some key =>
      Entries.extend .implied (fun _ inner ↦ place key inner) path.dropLast .header entries
  match s.header with
  | .document => Entries.addAll s.items entries
  | .table path => below path s.placeTable
  | .element path => below path s.placeElement

end Section

/-- Entries of a document. -/
def Entries.ofSections (sections : List Section) : Except Conflict Entries :=
  sections.foldlM Section.addTo []

end ReactiveFrames.Toml
