import ReactiveFrames.Files

/-!
# Data frames of a directory

The data of an identifier are in a file whose name is the identifier with an ending. An identifier
holds no character that a path could use to lead elsewhere, so the file lies directly in the
directory, and another identifier has another file. No other file is opened for the data frames of a
directory, and what is found under an identifier is what its file holds.

## Main definitions

* `Path.names`: the names along a path.
* `NamesFile`: an identifier names a file that lies directly in a directory.

## Main statements

* `namesFile_of_resourcePath?`: the path of an identifier leads to a file of the directory.
* `FileAccess.resources_congr`: only the files of identifiers are opened.
* `FileAccess.exists_resources`: what the opened files hold is found under their paths.
-/

namespace ReactiveFrames

/-! ## Paths -/

namespace Path

/-- Characters by which a path separates names, or leads to a drive, to the directory itself or to
its parent. -/
def markers : List Char := ['/', '\\', ':', '.']

/-- Names along a path, from the outermost one. Empty ones count nothing. -/
def names (path : String) : List String :=
  ((path.toList.splitOn '/').filter (· ≠ [])).map String.ofList

/-- What stands before the name in a path inside a directory. -/
def front (dir : String) : String :=
  if dir.isEmpty || dir.toList.getLast? == some '/' then dir else dir ++ "/"

variable {dir name : String}

theorem names_append (path path' : String) :
    names (path ++ "/" ++ path') = names path ++ names path' := by
  have hchars : (path ++ "/" ++ path').toList = path.toList ++ '/' :: path'.toList := by
    rw [String.toList_append, String.toList_append, List.append_assoc]
    rfl
  have hsplit : (path.toList ++ '/' :: path'.toList).splitOn '/'
      = path.toList.splitOn '/' ++ path'.toList.splitOn '/' :=
    List.splitOnP_append_cons _ _ (beq_self_eq_true '/')
  rw [names, hchars, hsplit, List.filter_append, List.map_append]
  rfl

theorem names_eq_singleton (hname : name ≠ "") (hslash : '/' ∉ name.toList) :
    names name = [name] := by
  rw [names, List.splitOn_eq_singleton hslash]
  simp [hname]

theorem isAbsolute_append (path : String) (h : dir ≠ "") :
    isAbsolute (dir ++ path) = isAbsolute dir := by
  have hchars : dir.toList ≠ [] := fun hchars ↦ h (String.toList_eq_nil_iff.1 hchars)
  rw [isAbsolute, isAbsolute, String.toList_append, List.head?_append,
    List.head?_eq_some_head hchars, Option.some_or]

/-- What stands before the name ends with a slash, unless nothing does. -/
theorem front_cases (dir : String) :
    (dir = "" ∧ front dir = "") ∨
      dir ≠ "" ∧ ∃ before, front dir = before ++ "/" ∧ names before = names dir ∧
        isAbsolute (before ++ "/") = isAbsolute dir := by
  by_cases hempty : dir = ""
  · rw [hempty]
    exact .inl ⟨rfl, rfl⟩
  have hempty' : dir.isEmpty = false := by simpa using hempty
  refine .inr ⟨hempty, ?_⟩
  rw [front, hempty', Bool.false_or]
  by_cases hlast : dir.toList.getLast? = some '/'
  · obtain ⟨before, hbefore⟩ := List.getLast?_eq_some_iff.1 hlast
    have hdir : dir = String.ofList before ++ "/" := by
      rw [← String.toList_inj, hbefore, String.toList_append, String.toList_ofList]
      rfl
    refine ⟨String.ofList before, ?_, ?_, congrArg isAbsolute hdir.symm⟩
    · rw [if_pos (beq_iff_eq.2 hlast), ← hdir]
    · have hnil : names "" = [] := rfl
      rw [hdir, ← String.append_empty (s := String.ofList before ++ "/"), names_append, hnil,
        List.append_nil]
  · exact ⟨dir, if_neg (mt beq_iff_eq.1 hlast), rfl, isAbsolute_append _ hempty⟩

theorem join_eq (hname : isAbsolute name = false) : join dir name = front dir ++ name := by
  rw [join, hname, if_neg Bool.false_ne_true, front]
  split <;> rfl

/-- A path that does not start over leads into the directory. -/
theorem names_join (hname : isAbsolute name = false) :
    names (join dir name) = names dir ++ names name := by
  rw [join_eq hname]
  rcases front_cases dir with ⟨hdir, hfront⟩ | ⟨-, before, hfront, hnames, -⟩
  · rw [hfront, hdir, String.empty_append]
    rfl
  · rw [hfront, names_append, hnames]

theorem isAbsolute_join (hname : isAbsolute name = false) :
    isAbsolute (join dir name) = isAbsolute dir := by
  rw [join_eq hname]
  rcases front_cases dir with ⟨hdir, hfront⟩ | ⟨-, before, hfront, -, habsolute⟩
  · rw [hfront, hdir, String.empty_append, hname]
    rfl
  · have hne : before ++ "/" ≠ "" := by simp
    rw [hfront, isAbsolute_append _ hne, habsolute]

theorem isAbsolute_eq_false (hslash : '/' ∉ name.toList) : isAbsolute name = false :=
  beq_eq_false_iff_ne.2 fun h ↦ hslash (List.mem_of_head? h)

theorem withoutExtension_append (hname : name ≠ "") : withoutExtension (name ++ ".amb") = name := by
  have hchars : name.toList.reverse ≠ [] := fun h ↦
    hname (String.toList_eq_nil_iff.1 (List.reverse_eq_nil_iff.1 h))
  have hbefore : ((name ++ ".amb").toList.reverse.dropWhile (· != '.')).tail
      = name.toList.reverse := by
    rw [String.toList_append, List.reverse_append]
    rfl
  rw [withoutExtension, hbefore, if_neg (mt List.isEmpty_iff.1 hchars), List.reverse_reverse,
    String.ofList_toList]

/-- An absolute path is still one without its extension. -/
theorem mem_withoutExtension (hname : isAbsolute name = true) :
    '/' ∈ (withoutExtension name).toList := by
  have hhead : name.toList.head? = some '/' := eq_of_beq hname
  rw [withoutExtension]
  generalize hbefore : (name.toList.reverse.dropWhile (· != '.')).tail = before
  by_cases hempty : before.isEmpty = true
  · rw [if_pos hempty]
    exact List.mem_of_head? hhead
  · have hsuffix : before <:+ name.toList.reverse :=
      hbefore ▸ (List.tail_suffix _).trans (List.dropWhile_suffix _)
    obtain ⟨after, hafter⟩ := List.reverse_prefix.2 hsuffix
    have hne : before.reverse ≠ [] := fun h ↦
      hempty (List.isEmpty_iff.2 (List.reverse_eq_nil_iff.1 h))
    rw [List.reverse_reverse] at hafter
    rw [← hafter, List.head?_append, List.head?_eq_some_head hne, Option.some_or] at hhead
    rw [if_neg hempty, String.toList_ofList, ← Option.some.inj hhead]
    exact List.head_mem hne

end Path

/-! ## Identifiers -/

/-- No character of an identifier leads a path elsewhere. -/
theorem plain_of_isResourceIdentifier {x : String} (h : isResourceIdentifier x = true) :
    x ≠ "" ∧ ∀ c ∈ x.toList, c ∉ Path.markers := by
  have hmarkers : (Path.markers.all fun c ↦
      !(Text.isAlphabetic c || Text.isNumeric c || c == '_' || c == '-')) = true := by
    decide +kernel
  obtain ⟨hempty, hall⟩ := Bool.and_eq_true_iff.1 h
  refine ⟨fun hx ↦ absurd hempty (by rw [hx]; decide), fun c hc hmarker ↦ ?_⟩
  have hno := List.all_eq_true.1 hmarkers c hmarker
  rw [List.all_eq_true.1 hall c hc] at hno
  cases hno

theorem slash_not_mem_fileName {x : String} (h : ∀ c ∈ x.toList, c ∉ Path.markers) :
    '/' ∉ (x ++ ".amb").toList := by
  rw [String.toList_append, List.mem_append, not_or]
  exact ⟨fun hmem ↦ h _ hmem List.mem_cons_self, by decide⟩

/-- An identifier names a file that lies directly in a directory. -/
structure NamesFile (dir x path : String) : Prop where
  ne_empty : x ≠ ""
  plain : ∀ c ∈ x.toList, c ∉ Path.markers
  path_eq : path = Path.join dir (x ++ ".amb")
  names_eq : Path.names path = Path.names dir ++ [x ++ ".amb"]
  isAbsolute_eq : Path.isAbsolute path = Path.isAbsolute dir

theorem namesFile_of_resourcePath? {dir x path : String} (h : resourcePath? dir x = some path) :
    NamesFile dir x path := by
  rw [resourcePath?, Option.ite_none_right_eq_some] at h
  obtain ⟨hidentifier, hpath⟩ := h
  obtain rfl : Path.join dir (x ++ ".amb") = path := Option.some.inj hpath
  obtain ⟨hempty, hplain⟩ := plain_of_isResourceIdentifier hidentifier
  have hslash := slash_not_mem_fileName hplain
  have hname : x ++ ".amb" ≠ "" := fun h ↦ hempty (String.append_eq_empty_iff.1 h).1
  exact
    { ne_empty := hempty
      plain := hplain
      path_eq := rfl
      names_eq := by
        rw [Path.names_join (Path.isAbsolute_eq_false hslash), Path.names_eq_singleton hname hslash]
      isAbsolute_eq := Path.isAbsolute_join (Path.isAbsolute_eq_false hslash) }

/-- Another identifier names another file. -/
theorem NamesFile.identifier_eq {dir x y path path' : String} (h : NamesFile dir x path)
    (h' : NamesFile dir y path') (hnames : Path.names path = Path.names path') : x = y := by
  rw [h.names_eq, h'.names_eq] at hnames
  have hfile := List.append_cancel_left hnames
  exact (String.append_left_inj ".amb").1 (List.cons.inj hfile).1

/-! ## Opened files -/

theorem Except.toOption_eq_some {ε α : Type} {x : Except ε α} {a : α} :
    x.toOption = some a ↔ x = .ok a := by
  cases x with
  | ok b => simp [Except.toOption]
  | error e => simp [Except.toOption]

namespace FileAccess

variable {m : Type → Type} [Monad m]

/-- Names in a directory that are those of files of identifiers. -/
def dataNames (dir : String) (names : List String) : List String :=
  names.filter fun name ↦ resourcePath? dir (Path.withoutExtension name) = some (Path.join dir name)

/-- Adds the texts of files of a directory. -/
def readAll (files : FileAccess m) (dir : String) (texts : Table String) (names : List String) :
    m (Table String) :=
  names.foldlM (fun texts name ↦ files.readInto texts (Path.join dir name)) texts

theorem resources_eq (files : FileAccess m) (dir : String) :
    files.resources dir = (do
      let names ← files.list dir
      let texts ← files.readAll dir Table.empty (dataNames dir names)
      pure (.directory dir texts)) :=
  rfl

theorem mem_dataNames {dir name : String} {names : List String} :
    name ∈ dataNames dir names ↔ name ∈ names ∧
      resourcePath? dir (Path.withoutExtension name) = some (Path.join dir name) := by
  rw [dataNames, List.mem_filter, decide_eq_true_iff]

/-- Only the files of the names are opened. -/
theorem readAll_congr {files files' : FileAccess m} {dir : String} {names : List String}
    (h : ∀ name ∈ names, files'.read (Path.join dir name) = files.read (Path.join dir name))
    (texts : Table String) : files'.readAll dir texts names = files.readAll dir texts names := by
  induction names generalizing texts with
  | nil => rfl
  | cons name names ih =>
    rw [List.forall_mem_cons] at h
    rw [readAll, readAll, List.foldlM_cons, List.foldlM_cons, readInto, readInto, h.1]
    exact congrArg _ (funext fun texts ↦ ih h.2 texts)

/-- Only the files of identifiers are opened: where other files differ, or cannot be read in other
ways, makes no difference. -/
theorem resources_congr {files files' : FileAccess m} {dir : String}
    (hlist : files'.list dir = files.list dir)
    (hread : ∀ x path, resourcePath? dir x = some path → files'.read path = files.read path) :
    files'.resources dir = files.resources dir := by
  rw [resources_eq, resources_eq, hlist]
  refine congrArg _ (funext fun names ↦ ?_)
  rw [readAll_congr fun name hname ↦ hread _ _ (mem_dataNames.1 hname).2]

section Found

variable (files : FileAccess Id) (dir : String)

/-- A text that is listed under a path is found there. -/
theorem find?_readInto (texts : Table String) (path other : String) :
    Table.find? (files.readInto texts path) other
      = if other = path then ((files.read path).toOption).or (texts.find? other)
        else texts.find? other := by
  rw [readInto]
  cases files.read path with
  | ok text => exact Table.find?_insert texts path other text
  | error fault => exact (ite_self _).symm

/-- The texts that are found after some files have been read. -/
theorem find?_readAll (texts : Table String) (names : List String) (path : String) :
    Table.find? (files.readAll dir texts names) path
      = if path ∈ names.map (Path.join dir) then ((files.read path).toOption).or (texts.find? path)
        else texts.find? path := by
  induction names generalizing texts with
  | nil => rfl
  | cons name names ih =>
    have hstep : files.readAll dir texts (name :: names)
        = files.readAll dir (files.readInto texts (Path.join dir name)) names := List.foldlM_cons
    rw [hstep, ih, find?_readInto, List.map_cons]
    by_cases hsame : path = Path.join dir name
    · simp [hsame, ← Option.or_assoc]
    · simp [hsame]

/-- The files that are opened are those of identifiers in the directory. -/
theorem mem_map_dataNames {path : String} {names : List String} :
    path ∈ (dataNames dir names).map (Path.join dir) ↔
      ∃ x, resourcePath? dir x = some path ∧ x ++ ".amb" ∈ names := by
  rw [List.mem_map]
  constructor
  · rintro ⟨name, hname, rfl⟩
    obtain ⟨hmem, hpath⟩ := mem_dataNames.1 hname
    have hfile := namesFile_of_resourcePath? hpath
    -- An absolute name would stay as it is when it is joined, but then the identifier has a slash.
    have habsolute : Path.isAbsolute name = false := by
      rw [← Bool.not_eq_true]
      intro habsolute
      exact hfile.plain _ (Path.mem_withoutExtension habsolute) List.mem_cons_self
    have hslash := Path.isAbsolute_eq_false (slash_not_mem_fileName hfile.plain)
    have hjoin := hfile.path_eq
    rw [Path.join_eq habsolute, Path.join_eq hslash, String.append_right_inj] at hjoin
    exact ⟨_, hpath, hjoin ▸ hmem⟩
  · rintro ⟨x, hpath, hmem⟩
    have hfile := namesFile_of_resourcePath? hpath
    refine ⟨_, mem_dataNames.2 ⟨hmem, ?_⟩, hfile.path_eq.symm⟩
    rw [Path.withoutExtension_append hfile.ne_empty, hpath, hfile.path_eq]

/-- What the files of identifiers hold is found under their paths, and nothing else is found. -/
theorem exists_resources : ∃ texts, files.resources dir = .directory dir texts ∧
    ∀ path text, texts.find? path = some text ↔
      (∃ x, resourcePath? dir x = some path ∧ x ++ ".amb" ∈ (files.list dir).run) ∧
        files.read path = .ok text := by
  refine ⟨_, rfl, fun path text ↦ ?_⟩
  have hfound := files.find?_readAll dir Table.empty (dataNames dir (files.list dir).run) path
  rw [← mem_map_dataNames]
  refine (Iff.of_eq (congrArg (· = some text) hfound)).trans ?_
  rw [Table.find?_empty, Option.or_none, Option.ite_none_right_eq_some, Except.toOption_eq_some]

end Found

end FileAccess

end ReactiveFrames
