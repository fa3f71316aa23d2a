import ReactiveFrames.Program
import ReactiveFrames.Proofs.Basic
import ReactiveFrames.Proofs.Data.Directory
import ReactiveFrames.Proofs.Data.Records

/-!
# Calls that read data

Scripts read data frames by a function that takes an identifier. With a directory of data frames, a
call asks for one file at most, and no other one makes a difference to it. It gives a record if the
file holds a data frame. Whatever else the arguments are, and whatever else the file holds, the
call gives `null` and a notice: no script fails by it.

## Main definitions

* `requestedPath?`: the file that a call asks for.
* `NoData`: the reasons why there is no record, and `HoldsData`, where there is one.
* `World.ReadsOwnFile`: what a call gives.

## Main statements

* `World.readsOwnFile_call`: every call gives a record or `null`, and depends on its own file.
* `World.readData_confined`: calls stay in the directory.
-/

namespace ReactiveFrames

open Script (Action ForeignRef Heap Value)

/-! ## Data of an identifier -/

/-- A frame without functions is read as a record. -/
theorem Frame.exists_toValue {f : Frame} (hf : f.firstFunction? = none) (h : Heap) :
    ∃ ref h', f.toValue h = .ok (.record ref, h') := by
  rcases Member.listToValues_cases f.instanceName f.members
    (initialProperties f.className f.instanceName) h with ⟨-, r, hr⟩ | ⟨e, he, -⟩
  · rw [Frame.toValue, hr]
    exact ⟨_, _, rfl⟩
  · cases he.symm.trans hf

namespace DataReader

variable {r : DataReader} {x : String}

theorem read_of_load?_eq_none (hload : r.resources.load? x = none) (h : Heap) :
    r.read x h = .error (.notFound x) := by
  rw [read, hload]
  rfl

theorem read_of_parse_error {text : String} {e : ParseError}
    (hload : r.resources.load? x = some text) (hparse : Frame.parse r.enums text = .error e)
    (h : Heap) : r.read x h = .error (.parse e) := by
  rw [read, hload]
  change (Frame.parse r.enums text).mapError DataError.parse >>= _ = _
  rw [hparse]
  rfl

theorem read_of_parse {text : String} {f : Frame} (hload : r.resources.load? x = some text)
    (hparse : Frame.parse r.enums text = .ok f) (h : Heap) : r.read x h = f.toValue h := by
  rw [read, hload]
  change (Frame.parse r.enums text).mapError DataError.parse >>= _ = _
  rw [hparse]
  rfl

/-- What is read depends on the text of the identifier only. -/
theorem read_congr {resources resources' : Resources}
    (hload : resources'.load? x = resources.load? x) (enums : EnumTable) (h : Heap) :
    read ⟨resources', enums⟩ x h = read ⟨resources, enums⟩ x h := by
  rw [read, read, hload]

end DataReader

/-! ## Calls -/

/-- Path of the file that a call asks for. -/
def requestedPath? (dir : String) : List Value → Option String
  | .string x :: _ => resourcePath? dir x
  | _ => none

/-- Why a call finds no record among the texts of a directory. -/
inductive NoData (dir : String) (texts : Table String) (enums : EnumTable) : List Value → Prop
  /-- The first argument is no text. -/
  | argument {arguments : List Value} (h : ∀ x rest, arguments ≠ .string x :: rest) :
    NoData dir texts enums arguments
  | identifier {x : String} {rest : List Value} (h : isResourceIdentifier x = false) :
    NoData dir texts enums (.string x :: rest)
  | missing {x path : String} {rest : List Value} (hpath : resourcePath? dir x = some path)
    (h : texts.find? path = none) : NoData dir texts enums (.string x :: rest)
  | malformed {x path text : String} {rest : List Value} {e : ParseError}
    (hpath : resourcePath? dir x = some path) (htext : texts.find? path = some text)
    (h : Frame.parse enums text = .error e) : NoData dir texts enums (.string x :: rest)
  /-- A member of the frame, at any depth, is a function. -/
  | function {x path text : String} {rest : List Value} {f : Frame} {name : String}
    {kind : FunctionKind} (hpath : resourcePath? dir x = some path)
    (htext : texts.find? path = some text) (hparse : Frame.parse enums text = .ok f)
    (h : f.firstFunction? = some (name, kind)) : NoData dir texts enums (.string x :: rest)

/-- What the file that a call asks for holds: a frame without functions. -/
inductive HoldsData (dir : String) (texts : Table String) (enums : EnumTable) :
    List Value → Frame → Prop
  | intro {x path text : String} {rest : List Value} {f : Frame}
    (hpath : resourcePath? dir x = some path) (htext : texts.find? path = some text)
    (hparse : Frame.parse enums text = .ok f) (hf : f.firstFunction? = none) :
    HoldsData dir texts enums (.string x :: rest) f

section Calls

variable {dir : String} {texts : Table String} {enums : EnumTable} {arguments : List Value}

theorem load?_of_resourcePath? {x path : String} (hpath : resourcePath? dir x = some path) :
    (Resources.directory dir texts).load? x = texts.find? path := by
  rw [Resources.load?, hpath, Option.bind_some]

theorem readDataValue_of_error {reader : DataReader} {x : String} {w : World} {e : DataError}
    (h : reader.read x w.heap = .error e) (rest : List Value) :
    readDataValue reader (.string x :: rest) w = .ok .null (w.note (dataNotice e.message)) := by
  rw [readDataValue, h]

theorem readDataValue_of_ok {reader : DataReader} {x : String} {w : World} {v : Value} {h : Heap}
    (hread : reader.read x w.heap = .ok (v, h)) (rest : List Value) :
    readDataValue reader (.string x :: rest) w = .ok v { w with heap := h } := by
  rw [readDataValue, hread]

/-- Without data, a call gives `null` and a notice. -/
theorem NoData.exists_notice (h : NoData dir texts enums arguments) (w : World) :
    ∃ cause, readDataValue ⟨.directory dir texts, enums⟩ arguments w
      = .ok .null (w.note (dataNotice cause)) := by
  cases h with
  | argument h =>
    refine ⟨"name string is required", ?_⟩
    cases arguments with
    | nil => rfl
    | cons v rest =>
      cases v with
      | string x => exact absurd rfl (h x rest)
      | _ => rfl
  | identifier h =>
    have hpath : resourcePath? dir _ = none := if_neg (Bool.eq_false_iff.1 h)
    have hload : (Resources.directory dir texts).load? _ = none := Option.bind_eq_none_iff.2
      fun path hpath' ↦ absurd (hpath.symm.trans hpath') (Option.some_ne_none path).symm
    have hread := DataReader.read_of_load?_eq_none (r := ⟨.directory dir texts, enums⟩) hload w.heap
    exact ⟨_, readDataValue_of_error hread _⟩
  | missing hpath h =>
    have hload := (load?_of_resourcePath? hpath).trans h
    have hread := DataReader.read_of_load?_eq_none (r := ⟨.directory dir texts, enums⟩) hload w.heap
    exact ⟨_, readDataValue_of_error hread _⟩
  | malformed hpath htext h =>
    have hload := (load?_of_resourcePath? hpath).trans htext
    have hread := DataReader.read_of_parse_error (r := ⟨.directory dir texts, enums⟩) hload h w.heap
    exact ⟨_, readDataValue_of_error hread _⟩
  | function hpath htext hparse h =>
    have hload := (load?_of_resourcePath? hpath).trans htext
    have hread := DataReader.read_of_parse (r := ⟨.directory dir texts, enums⟩) hload hparse w.heap
    exact ⟨_, readDataValue_of_error (hread.trans (Frame.toValue_of_firstFunction? h w.heap)) _⟩

/-- With data, a call gives their record. -/
theorem HoldsData.exists_record {f : Frame} (h : HoldsData dir texts enums arguments f)
    (w : World) : ∃ ref heap, f.toValue w.heap = .ok (.record ref, heap) ∧
      readDataValue ⟨.directory dir texts, enums⟩ arguments w
        = .ok (.record ref) { w with heap := heap } := by
  obtain ⟨hpath, htext, hparse, hf⟩ := h
  obtain ⟨ref, heap, hvalue⟩ := f.exists_toValue hf w.heap
  have hload := (load?_of_resourcePath? hpath).trans htext
  have hread := DataReader.read_of_parse (r := ⟨.directory dir texts, enums⟩) hload hparse w.heap
  exact ⟨ref, heap, hvalue, readDataValue_of_ok (hread.trans hvalue) _⟩

/-- There is a record exactly if every step succeeds. -/
theorem not_noData_iff :
    ¬ NoData dir texts enums arguments ↔ ∃ f, HoldsData dir texts enums arguments f := by
  constructor
  · intro h
    have harguments : ∃ x rest, arguments = .string x :: rest := by
      by_contra harguments
      exact h (.argument fun x rest heq ↦ harguments ⟨x, rest, heq⟩)
    obtain ⟨x, rest, rfl⟩ := harguments
    cases hpath : resourcePath? dir x with
    | none =>
      refine absurd (.identifier (Bool.eq_false_iff.2 fun hidentifier ↦ ?_)) h
      rw [resourcePath?, if_pos hidentifier] at hpath
      cases hpath
    | some path =>
      cases htext : texts.find? path with
      | none => exact absurd (.missing hpath htext) h
      | some text =>
        cases hparse : Frame.parse enums text with
        | error e => exact absurd (.malformed hpath htext hparse) h
        | ok f =>
          cases hfunction : f.firstFunction? with
          | none => exact ⟨f, .intro hpath htext hparse hfunction⟩
          | some e => exact absurd (.function hpath htext hparse hfunction) h
  · rintro ⟨f, ⟨hpath, htext, hparse, hf⟩⟩ h
    cases h with
    | argument h => exact h _ _ rfl
    | identifier h =>
      rw [resourcePath?, h] at hpath
      cases hpath
    | missing hpath' h =>
      cases hpath.symm.trans hpath'
      cases htext.symm.trans h
    | malformed hpath' htext' h =>
      cases hpath.symm.trans hpath'
      cases htext.symm.trans htext'
      cases hparse.symm.trans h
    | function hpath' htext' hparse' h =>
      cases hpath.symm.trans hpath'
      cases htext.symm.trans htext'
      cases hparse.symm.trans hparse'
      cases hf.symm.trans h

/-- Texts of other files make no difference. -/
theorem readDataValue_congr {texts' : Table String}
    (h : ∀ path, requestedPath? dir arguments = some path → texts'.find? path = texts.find? path)
    (w : World) : readDataValue ⟨.directory dir texts', enums⟩ arguments w
      = readDataValue ⟨.directory dir texts, enums⟩ arguments w := by
  cases arguments with
  | nil => rfl
  | cons v rest =>
    cases v with
    | string x =>
      have hload : (Resources.directory dir texts').load? x
          = (Resources.directory dir texts).load? x := Option.bind_congr h
      rw [readDataValue, readDataValue, DataReader.read_congr hload]
    | _ => rfl

end Calls

/-- What a call with some arguments gives, when it reads from the texts of a directory. -/
structure World.ReadsOwnFile (dir : String) (texts : Table String) (enums : EnumTable)
    (arguments : List Value) (w : World) (r : Outcome World Script.ScriptError Value) : Prop where
  /-- Where the texts of other files differ, it gives the same. -/
  own (texts' : Table String)
    (h : ∀ path, requestedPath? dir arguments = some path → texts'.find? path = texts.find? path) :
    r = Foreign.apply (.readData ⟨.directory dir texts', enums⟩) arguments w
  null (h : NoData dir texts enums arguments) :
    ∃ cause, r = .ok .null (w.note (dataNotice cause))
  record (h : ¬ NoData dir texts enums arguments) :
    ∃ f ref heap, HoldsData dir texts enums arguments f ∧
      f.toValue w.heap = .ok (.record ref, heap) ∧ r = .ok (.record ref) { w with heap := heap }

namespace World

variable {dir : String} {texts : Table String} {enums : EnumTable} {w : World} {ref : ForeignRef}

theorem readsOwnFile_call
    (href : w.host.foreigns[ref.index]? = some (.readData ⟨.directory dir texts, enums⟩))
    (access : Access) (bound : ℕ) (arguments : List Value) :
    ReadsOwnFile dir texts enums arguments w
      (Script.call (hostOf access) (bound + 1) (.foreign ref) arguments w) := by
  have hcall : Script.call (hostOf access) (bound + 1) (.foreign ref) arguments w
      = readDataValue ⟨.directory dir texts, enums⟩ arguments w := by
    rw [Script.call, hostOf]
    simp only [href]
    rfl
  rw [hcall]
  constructor
  · intro texts' h
    exact (readDataValue_congr h w).symm
  · intro h
    exact h.exists_notice w
  · intro h
    obtain ⟨f, hdata⟩ := not_noData_iff.1 h
    obtain ⟨ref, heap, hvalue, hrun⟩ := hdata.exists_record w
    exact ⟨f, ref, heap, hdata, hvalue, hrun⟩

/-- A call reads from the reader that is installed. -/
theorem foreigns_installReader (reader : DataReader) (w : World) :
    (w.installReader reader).host.foreigns[w.host.foreigns.size]? = some (.readData reader) :=
  Array.getElem?_push_size

/-- Calls stay in their directory. An identifier holds no marker of a path and names a file directly
in the directory, and another identifier names another one. No other files are opened, and what
these hold is found. A call makes use of the file of its identifier only, and gives `null` wherever
it finds no record. -/
theorem readData_confined (dir : String) :
    (∀ x path, resourcePath? dir x = some path → NamesFile dir x path) ∧
      (∀ x y path path', resourcePath? dir x = some path → resourcePath? dir y = some path' →
        Path.names path = Path.names path' → x = y) ∧
      (∀ (m : Type → Type) [Monad m] (files files' : FileAccess m),
        files'.list dir = files.list dir →
        (∀ x path, resourcePath? dir x = some path → files'.read path = files.read path) →
          files'.resources dir = files.resources dir) ∧
      (∀ files : FileAccess Id, ∃ texts, files.resources dir = .directory dir texts ∧
        ∀ path text, texts.find? path = some text ↔
          (∃ x, resourcePath? dir x = some path ∧ x ++ ".amb" ∈ (files.list dir).run) ∧
            files.read path = .ok text) ∧
      ∀ texts enums (w : World) (ref : ForeignRef),
        w.host.foreigns[ref.index]? = some (.readData ⟨.directory dir texts, enums⟩) →
          ∀ access bound arguments, ReadsOwnFile dir texts enums arguments w
            (Script.call (hostOf access) (bound + 1) (.foreign ref) arguments w) := by
  refine ⟨fun x path ↦ namesFile_of_resourcePath?, fun x y path path' hx hy ↦ ?_,
    fun m _ files files' ↦ FileAccess.resources_congr, fun files ↦ files.exists_resources dir,
    fun texts enums w ref href ↦ readsOwnFile_call href⟩
  exact (namesFile_of_resourcePath? hx).identifier_eq (namesFile_of_resourcePath? hy)

/-- Text of a data frame. -/
def numberText : String := "ok: Object \x7b n: Int 7 \x7d"

/-- Text of a frame with a function. -/
def functionText : String := "f: Object \x7b g: Func(a) %\x7b return a ; %\x7d \x7d"

/-- Text of no frame. -/
def brokenText : String := "broken: Object \x7b"

/-- Texts of a directory and of one file outside. -/
def exampleTexts : Table String :=
  Table.ofList
    [("data/broken.amb", brokenText), ("data/f.amb", functionText), ("data/ok.amb", numberText),
      ("secret.amb", numberText)]

/-- Files with these texts. One that is not for data is listed, too. -/
def exampleFiles : FileAccess Id where
  read path := (exampleTexts.find? path).elim (.error .missing) .ok
  list _ := ["broken.amb", "f.amb", "notes.txt", "ok.amb"]

/-- The same files, but the one outside the directory cannot be read. -/
def lockedFiles : FileAccess Id :=
  { exampleFiles with
    read path := if path = "secret.amb" then .error .denied else exampleFiles.read path }

/-- World in which scripts read from the directory. -/
def exampleWorld : World :=
  (World.create 256 16).installReader ⟨.directory "data" exampleTexts, Table.empty⟩

/-- Of these calls, only the last one gives a record. -/
theorem readData_confined_missteps :
    NamesFile "data" "ok" "data/ok.amb" ∧ Path.names "data/ok.amb" ≠ Path.names "data/f.amb" ∧
      lockedFiles.resources "data" = exampleFiles.resources "data" ∧
      (∃ texts, exampleFiles.resources "data" = .directory "data" texts ∧
        texts.find? "data/ok.amb" = some numberText) ∧
      (∀ arguments ∈ [[], [.number 1], [.string "../secret"], [.string "absent"],
          [.string "broken"], [.string "f"]],
        ∃ cause, Script.call (hostOf access) 1 (.foreign ⟨0, readDataName⟩) arguments exampleWorld
          = .ok .null (exampleWorld.note (dataNotice cause))) ∧
      ∃ ref heap, Script.call (hostOf access) 1 (.foreign ⟨0, readDataName⟩) [.string "ok"]
        exampleWorld = .ok (.record ref) { exampleWorld with heap := heap } := by
  obtain ⟨hnames, hdiffer, hopened, hfound, hcalls⟩ := readData_confined "data"
  have hok : resourcePath? "data" "ok" = some "data/ok.amb" := by decide +kernel
  have hf : resourcePath? "data" "f" = some "data/f.amb" := by decide +kernel
  have hbroken : resourcePath? "data" "broken" = some "data/broken.amb" := by decide +kernel
  have habsent : resourcePath? "data" "absent" = some "data/absent.amb" := by decide +kernel
  have hescape : isResourceIdentifier "../secret" = false := by decide +kernel
  have hcall (arguments : List Value) :=
    hcalls exampleTexts Table.empty exampleWorld ⟨0, readDataName⟩
      (foreigns_installReader _ (World.create 256 16)) access 0 arguments
  refine ⟨hnames "ok" _ hok, fun h ↦ ?_, ?_, ?_, ?_, ?_⟩
  · exact absurd (hdiffer "ok" "f" _ _ hok hf h) (by decide)
  · refine hopened Id exampleFiles lockedFiles rfl fun x path hpath ↦ if_neg ?_
    rintro rfl
    have hlength := congrArg List.length (hnames x _ hpath).names_eq
    have hone : (Path.names "secret.amb").length = 1 := by decide +kernel
    have htwo : (Path.names "data").length = 1 := by decide +kernel
    rw [hone, List.length_append, htwo] at hlength
    cases hlength
  · obtain ⟨texts, hresources, hiff⟩ := hfound exampleFiles
    exact ⟨texts, hresources, (hiff _ _).2 ⟨⟨"ok", hok, by decide⟩, rfl⟩⟩
  · simp only [List.forall_mem_cons, List.not_mem_nil, false_implies, implies_true, and_true]
    refine ⟨(hcall _).null (.argument (by simp)), (hcall _).null (.argument (by simp)),
      (hcall _).null (.identifier hescape), (hcall _).null (.missing habsent rfl), ?_, ?_⟩
    · have hparse : Except.errorWith (fun _ ↦ true)
          (Frame.parse Table.empty brokenText) = true := by decide +kernel
      obtain ⟨e, he, -⟩ := Except.exists_of_errorWith hparse
      exact (hcall _).null (.malformed hbroken rfl he)
    · have hparse : Except.okWith (fun f ↦ f.firstFunction? == some ("g", .procedure))
          (Frame.parse Table.empty functionText) = true := by decide +kernel
      obtain ⟨f, hf', hfunction⟩ := Except.exists_of_okWith hparse
      exact (hcall _).null (.function hf rfl hf' (eq_of_beq hfunction))
  · have hparse : Except.okWith (fun f ↦ f.firstFunction? == none)
        (Frame.parse Table.empty numberText) = true := by decide +kernel
    obtain ⟨f, hf, hfunction⟩ := Except.exists_of_okWith hparse
    have hdata : ¬ NoData "data" exampleTexts Table.empty [.string "ok"] :=
      not_noData_iff.2 ⟨f, .intro hok rfl hf (eq_of_beq hfunction)⟩
    obtain ⟨-, ref, heap, -, -, hrun⟩ := (hcall _).record hdata
    exact ⟨ref, heap, hrun⟩

end World

end ReactiveFrames
