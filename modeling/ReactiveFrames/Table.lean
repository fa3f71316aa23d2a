/-!
# Sorted tables

A finite map from names to values, held as an association list in ascending order of names. The
order is by code point, which is also the order of the UTF-8 bytes. Two tables with the same
bindings are the same list, and a listing of a table needs no sorting.

## Main statements

* `Table.find?_insert`: a binding is read back, and no other one changes.
* `Table.mem_names_iff`: the names are those under which something is found.
* `Table.mem_names_insert`: inserting adds one name and removes none.
* `Table.entries_ofList`: a list in ascending order is the list of its table.
-/

namespace ReactiveFrames

/-- A map from names to values, listed in ascending order of names. -/
structure Table (α : Type) where
  entries : List (String × α) := []
  /-- Names ascend strictly. -/
  ascending : entries.Pairwise (fun a b ↦ a.1 < b.1) := by simp

namespace Table

variable {α β : Type}

/-- Puts a binding into an ascending list, in place of one with the same name. -/
def insertEntry (name : String) (value : α) : List (String × α) → List (String × α)
  | [] => [(name, value)]
  | (n, v) :: rest =>
    if name < n then (name, value) :: (n, v) :: rest
    else if name = n then (name, value) :: rest
    else (n, v) :: insertEntry name value rest

/-- Value bound to a name in a list. -/
def findEntry? (name : String) : List (String × α) → Option α
  | [] => none
  | (n, v) :: rest => if name = n then some v else findEntry? name rest

theorem mem_insertEntry {name : String} {value : α} {entries : List (String × α)}
    {e : String × α} (h : e ∈ insertEntry name value entries) :
    e = (name, value) ∨ e ∈ entries := by
  induction entries with
  | nil => simpa [insertEntry] using h
  | cons a rest ih =>
    obtain ⟨n, v⟩ := a
    grind [insertEntry]

theorem pairwise_insertEntry (name : String) (value : α) {entries : List (String × α)}
    (h : entries.Pairwise (fun a b ↦ a.1 < b.1)) :
    (insertEntry name value entries).Pairwise (fun a b ↦ a.1 < b.1) := by
  induction entries with
  | nil => simp [insertEntry]
  | cons a rest ih =>
    obtain ⟨n, v⟩ := a
    rw [List.pairwise_cons] at h
    rw [insertEntry]
    split
    · rename_i hlt
      refine List.pairwise_cons.2 ⟨fun e he ↦ ?_, List.pairwise_cons.2 h⟩
      rcases List.mem_cons.1 he with rfl | he
      · exact hlt
      · exact String.lt_trans hlt (h.1 e he)
    · split
      · rename_i heq
        exact List.pairwise_cons.2 ⟨fun e he ↦ heq ▸ h.1 e he, h.2⟩
      · rename_i hlt hne
        refine List.pairwise_cons.2 ⟨fun e he ↦ ?_, ih h.2⟩
        rcases mem_insertEntry he with rfl | he
        · exact Std.lt_of_le_of_ne (String.not_lt.1 hlt) (Ne.symm hne)
        · exact h.1 e he

theorem findEntry?_insertEntry (name other : String) (value : α) (entries : List (String × α)) :
    findEntry? other (insertEntry name value entries)
      = if other = name then some value else findEntry? other entries := by
  induction entries with
  | nil => simp [insertEntry, findEntry?]
  | cons a rest ih =>
    obtain ⟨n, v⟩ := a
    grind [insertEntry, findEntry?]

/-- A name after all others is put to the end. -/
theorem insertEntry_append {before : List (String × α)} {name : String} {value : α}
    (h : ∀ e ∈ before, e.1 < name) : insertEntry name value before = before ++ [(name, value)] := by
  induction before with
  | nil => rfl
  | cons e before ih =>
    rw [List.forall_mem_cons] at h
    obtain ⟨n, v⟩ := e
    have hlt : n < name := h.1
    have hne : name ≠ n := fun heq ↦ String.lt_irrefl _ (heq ▸ hlt)
    rw [insertEntry, if_neg (String.lt_asymm hlt), if_neg hne, ih h.2]
    rfl

/-- The table without bindings. -/
def empty : Table α := {}

instance : Inhabited (Table α) := ⟨empty⟩

/-- Value bound to a name. -/
def find? (t : Table α) (name : String) : Option α := findEntry? name t.entries

/-- Binds a name, in place of an earlier binding. -/
def insert (t : Table α) (name : String) (value : α) : Table α :=
  ⟨insertEntry name value t.entries, pairwise_insertEntry name value t.ascending⟩

/-- Removes the binding of a name. -/
def erase (t : Table α) (name : String) : Table α :=
  ⟨t.entries.filter (fun e ↦ e.1 != name), t.ascending.filter _⟩

/-- A name is bound. -/
def contains (t : Table α) (name : String) : Bool := (t.find? name).isSome

/-- Bound names, ascending. -/
def names (t : Table α) : List String := t.entries.map (·.1)

/-- Bound values, in the order of their names. -/
def values (t : Table α) : List α := t.entries.map (·.2)

/-- No name is bound. -/
def isEmpty (t : Table α) : Bool := t.entries.isEmpty

/-- Table of a list of bindings; the last one of a name counts. -/
def ofList (entries : List (String × α)) : Table α :=
  entries.foldl (fun t e ↦ t.insert e.1 e.2) empty

@[simp]
theorem find?_empty (name : String) : (empty : Table α).find? name = none := rfl

@[simp]
theorem find?_insert (t : Table α) (name other : String) (value : α) :
    (t.insert name value).find? other = if other = name then some value else t.find? other :=
  findEntry?_insertEntry name other value t.entries

theorem mem_names_iff {t : Table α} {name : String} :
    name ∈ t.names ↔ ∃ value, t.find? name = some value := by
  rw [names, find?]
  induction t.entries with
  | nil => simp [List.map_nil, findEntry?]
  | cons e rest ih =>
    obtain ⟨n, v⟩ := e
    rw [List.map_cons, List.mem_cons, ih, findEntry?]
    by_cases h : name = n <;> simp [h]

/-- A list in ascending order is the list of its table. -/
theorem entries_ofList {entries : List (String × α)}
    (h : entries.Pairwise (fun a b ↦ a.1 < b.1)) : (ofList entries).entries = entries := by
  have hfold (entries : List (String × α)) (t : Table α)
      (h : (t.entries ++ entries).Pairwise (fun a b ↦ a.1 < b.1)) :
      (entries.foldl (fun t e ↦ t.insert e.1 e.2) t).entries = t.entries ++ entries := by
    induction entries generalizing t with
    | nil => exact (List.append_nil _).symm
    | cons e rest ih =>
      have hlast : (t.insert e.1 e.2).entries = t.entries ++ [e] :=
        insertEntry_append fun a ha ↦
          (List.pairwise_append.1 h).2.2 a ha e List.mem_cons_self
      rw [List.foldl_cons, ih, hlast, List.append_assoc, List.singleton_append]
      rwa [hlast, List.append_assoc, List.singleton_append]
  exact hfold entries empty h

private theorem mem_map_insertEntry {name other : String} {value : α}
    {entries : List (String × α)} :
    other ∈ (insertEntry name value entries).map (·.1)
      ↔ other = name ∨ other ∈ entries.map (·.1) := by
  induction entries with
  | nil => simp [insertEntry]
  | cons a rest ih =>
    obtain ⟨n, v⟩ := a
    grind [insertEntry]

@[simp]
theorem mem_names_insert {t : Table α} {name other : String} {value : α} :
    other ∈ (t.insert name value).names ↔ other = name ∨ other ∈ t.names :=
  mem_map_insertEntry

end Table

end ReactiveFrames
