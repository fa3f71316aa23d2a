import ReactiveFrames.Proofs.Reactive.StoredValue
import ReactiveFrames.Proofs.Script.Locations

/-!
# Compound assignments and updates

A compound assignment or an update that returns has replaced the value at its target in place, and
then the new value is there, if the parts of the target can be evaluated a second time without a
difference. Where they cannot, the write may miss the location that was read
(`World.misses_popped`).

A location holds what was written to it, with one exception: the write of a property of an object is
refused while the observers of the property are running. Such a write is reported, and the script
goes on.

## Main definitions

* `World.Accepts`: a write of the location is not refused.

## Main statements

* `World.replaces_in_place`: what a compound assignment and an update do to a steady target.
* `World.misses_popped`: the target pops the object whose property is to be written.
-/

namespace ReactiveFrames

open Script (Heap Location Scope Target Value combine readMember stepped writeMember)

namespace World

/-! ## Pins -/

theorem pins_set (o : ObjectRef) (p : String) (v : Value) (w : World) :
    (set o p v w).state.pins = w.pins := by
  obtain ⟨n, hn⟩ : ∃ n, w.levels = n + 1 := ⟨_, rfl⟩
  rw [set, setBounded, hn, setWithin, setWith_eq]
  split_ifs
  · rfl
  · rfl
  · cases (runObservers stepBound ⟨get?, setWithin stepBound get? n⟩ v
      ((w.object o).observersOf p) : Effect ObserverError Unit) (w.begun o p v) <;> rfl

/-- However an access of a script to the objects ends, the pins are as they were. -/
theorem scriptHost_keepsPins : scriptHost.KeepsPins where
  write ref p v w := by
    have hpins := pins_set ⟨ref.index⟩ p v w
    change
      (reporting (set ⟨ref.index⟩ p v) w : Outcome World Script.ScriptError Unit).state.pins = _
    unfold reporting
    cases hset : set ⟨ref.index⟩ p v w <;> rw [hset] at hpins <;> exact hpins
  call ref arguments w := by
    simp only [scriptHost, hostOf]
    split
    · next f _ =>
      obtain ⟨h, notices, -, hstate⟩ := f.exists_state_apply arguments w
      rw [hstate]
    · rfl

/-! ## What has been written -/

/-- The location is there, and if it is a property of an object, then the observers of the property
are not running. -/
def Accepts (w : World) : Location → Prop
  | .member (.record ref) _ => ref.index < w.heap.records.size
  | .index (.record ref) _ _ => ref.index < w.heap.records.size
  | .member (.host ref) p =>
    ref.index < w.host.objects.size ∧ p ∉ (w.object ⟨ref.index⟩).notifying
  | .index (.host ref) _ p =>
    ref.index < w.host.objects.size ∧ p ∉ (w.object ⟨ref.index⟩).notifying
  | .item ref _ => ref.index < w.heap.arrays.size
  | _ => True

section Written

variable {w w' : World} {v : Value} {scope : Scope}

/-- A property holds what was written, whatever is pinned. -/
theorem readMember_of_writeMember {object : Value} {p : String}
    (h : writeMember scriptHost object p v w = .ok () w') (haccepts : w.Accepts (.member object p))
    (pins : List Script.Pin) :
    readMember scriptHost object p { w' with pins := pins } = .ok v { w' with pins := pins } := by
  cases object with
  | record ref =>
    cases h
    have hentry := Heap.find?_entries_setEntry haccepts p v
    change Outcome.ok ((((w.heap.setEntry ref p v).entries ref).find? p).getD .undefined) _ = _
    rw [hentry]
    rfl
  | host ref =>
    obtain ⟨ho, hp⟩ := haccepts
    -- The script goes on after a refusal, so a refusal has to be ruled out by the guards.
    obtain hset | ⟨e, u, hset, -⟩ := reporting_eq_ok.1 h
    · have hget := (get?_of_set_eq_ok ho hset fun _ _ _ _ ↦ rfl).1
      change Outcome.ok ((get? w' ⟨ref.index⟩ p).getD .undefined) _ = _
      rw [hget]
      rfl
    · exact absurd (eq_of_set_eq_error hset).1 hp
  | _ =>
    obtain ⟨_, _, -, hfail⟩ := Run.bind_eq_ok.1 h
    cases hfail

/-- A location holds what was written. -/
theorem read_of_write {l : Location} (h : l.write scriptHost scope v w = .ok () w')
    (haccepts : w.Accepts l) : l.read scriptHost scope w' = .ok v w' := by
  cases l with
  | «variable» name =>
    cases h
    exact Script.readVariable_of_lookup (@Heap.lookup_assign w.heap name v scope)
  | member object p => exact readMember_of_writeMember h haccepts w'.pins
  | index object i p =>
    -- The object and its index are pinned during the write, which no property depends on.
    obtain ⟨u, hpinned, rfl⟩ := Script.eq_ok_of_pinning h
    obtain ⟨u, hwrite, rfl⟩ := Script.eq_ok_of_pinning hpinned
    have haccepts' : Accepts { w with pins := [.value i] ++ ([.value object] ++ w.pins) }
        (.member object p) := by
      cases object <;> exact haccepts
    exact readMember_of_writeMember hwrite haccepts' w.pins
  | item ref x =>
    change Script.writeItem ref x v w = .ok () w' at h
    unfold Script.writeItem at h
    cases hx : Decimal.toNat? x with
    | none =>
      rw [hx] at h
      cases h
    | some n =>
      rw [hx] at h
      dsimp only at h
      split at h
      · cases h
        have hitems := Heap.items_setItems (h := w.heap) haccepts (Script.putItem · n v)
        change Outcome.ok (Script.itemAt
          ((w.heap.setItems ref (Script.putItem · n v)).items ref) x) _ = _
        rw [hitems, Script.itemAt, hx, Option.bind_some, Script.getElem?_putItem]
        rfl
      · cases h
  | character s x =>
    change Script.Machine.pinningValue (.string s) (Script.Machine.pinningValue (.number x)
      (Script.writeIndex scriptHost (.string s) (.number x) v)) w = .ok () w' at h
    obtain ⟨_, hpinned, -⟩ := Script.eq_ok_of_pinning h
    obtain ⟨_, hwrite, -⟩ := Script.eq_ok_of_pinning hpinned
    obtain ⟨_, _, -, hmember⟩ := Run.bind_eq_ok.1 hwrite
    obtain ⟨_, _, -, hfail⟩ := Run.bind_eq_ok.1 hmember
    cases hfail

end Written

/-! ## Replacing a value -/

/-- If the target is steady, then a compound assignment and an update replace the value at it in
place: the parts of the target are evaluated once, and the location that they lead to is read and
then written. Where this succeeds, the location then holds the new value, unless the write of it was
refused. -/
theorem replaces_in_place (t : Target) (n : Nat) (scope : Scope) (w : World) :
    (∀ op e, t.Steady scriptHost n scope (combine scriptHost (n + 1) scope op e) w →
        Script.eval scriptHost (n + 2) scope (.assign (some op) t e) w
          = (Prod.snd <$> t.replace scriptHost n scope (combine scriptHost (n + 1) scope op e)) w) ∧
      (∀ increment before, t.Steady scriptHost n scope (fun old ↦ pure (stepped increment old)) w →
        Script.eval scriptHost (n + 2) scope (.update increment before t) w
          = ((fun r ↦ if before then r.2 else .number r.1.toNumber) <$>
            t.replace scriptHost n scope fun old ↦ pure (stepped increment old)) w) ∧
      ∀ compute old new w', t.replace scriptHost n scope compute w = .ok (old, new) w' →
        ∃ l u u', t.locate scriptHost n scope w = .ok l u ∧
          l.read scriptHost scope u = .ok old u ∧ compute old u = .ok new u' ∧
          l.write scriptHost scope new u' = .ok () w' ∧
          (Accepts u' l → l.read scriptHost scope w' = .ok new w') := by
  refine ⟨fun op e hsteady ↦ ?_, fun increment before hsteady ↦ ?_, fun compute old new w' h ↦ ?_⟩
  · rw [Script.eval_compound scriptHost_keepsPins]
    exact Run.bind_congr_left (Script.replaceRelocating_eq hsteady) _
  · rw [Script.eval_update scriptHost_keepsPins]
    exact Run.bind_congr_left (Script.replaceRelocating_eq hsteady) _
  · obtain ⟨l, u, hl, h⟩ := Run.bind_eq_ok.1 h
    obtain ⟨a, u₁, hread, h⟩ := Run.bind_eq_ok.1 h
    obtain ⟨b, u', hcompute, h⟩ := Run.bind_eq_ok.1 h
    obtain ⟨_, _, hwrite, h⟩ := Run.bind_eq_ok.1 h
    cases h
    cases (Location.looks_read l).eq_of_ok hread
    exact ⟨l, _, u', hl, hread, hcompute, hwrite, read_of_write hwrite⟩

/-! ## Popping the object -/

section Popped

/-- Two records with a property `x`, and a list of both. -/
def records : String := "o = \x7bx: \"a\"\x7d; p = \x7bx: \"b\"\x7d; q = [o, p];"

/-- The property `x` of a variable. -/
def ofVariable (name : String) : Target := .member (.variable name) "x"

/-- The property `x` of the object that is popped off the list. -/
def ofPopped : Target := .member (.call (.member (.variable "q") "pop") []) "x"

/-- Value with an exclamation mark. -/
def exclaim : Value → Script.Action ObjectGraph Value :=
  combine scriptHost 9 [] .add (.string "!")

/-- The location is a property of a record that is there. -/
def isEntry (w : World) : Location → Bool
  | .member (.record ref) _ => ref.index < w.heap.records.size
  | _ => false

theorem accepts_of_isEntry {w : World} {l : Location} (h : isEntry w l = true) : w.Accepts l := by
  unfold isEntry at h
  split at h
  · next ref _ =>
    change ref.index < w.heap.records.size
    exact of_decide_eq_true h
  · cases h

/-- The value is the text. -/
def isText (s : String) : Value → Bool
  | .string t => t == s
  | _ => false

theorem eq_of_isText {s : String} {v : Value} (h : isText s v = true) : v = .string s := by
  unfold isText at h
  split at h
  · rw [beq_iff_eq.1 h]
  · cases h

/-- The property `x` of the variable is the text. -/
def hasText (w : World) (name s : String) : Bool :=
  (Script.readTarget scriptHost 9 [] (ofVariable name) w).okWith fun v _ ↦ isText s v

theorem readTarget_of_hasText {w : World} {name s : String} (h : hasText w name s = true) :
    Script.readTarget scriptHost 9 [] (ofVariable name) w = .ok (.string s) w := by
  obtain ⟨v, u, hread, hv⟩ := Outcome.exists_of_okWith h
  have hlooks : Script.Action.Looks (Script.readTarget scriptHost 9 [] (ofVariable name)) := by
    rw [Script.readTarget_eq]
    exact (Target.Inert.member (.variable name) "x").looks.bind Location.looks_read
  rw [hread, hlooks.eq_of_ok hread, eq_of_isText hv]

theorem evaluate_records : ∃ v w, evaluate records (World.create 256 16) = .ok v w ∧
    ((ofVariable "o").locate scriptHost 8 [] w).okWith (fun l _ ↦ isEntry w l) = true ∧
    ((ofVariable "o").replace scriptHost 8 [] exclaim w).okWith
      (fun r _ ↦ isText "a" r.1 && isText "a!" r.2) = true ∧
    (Script.eval scriptHost 10 [] (.assign (some .add) ofPopped (.string "!")) w).okWith
      (fun _ w' ↦ hasText w' "o" "b!" && hasText w' "p" "b") = true ∧
    (ofPopped.replace scriptHost 8 [] exclaim w).okWith
      (fun _ w' ↦ hasText w' "o" "a" && hasText w' "p" "b!") = true := by
  have h : (evaluate records (World.create 256 16)).okWith (fun _ w ↦
      ((ofVariable "o").locate scriptHost 8 [] w).okWith (fun l _ ↦ isEntry w l) &&
      ((ofVariable "o").replace scriptHost 8 [] exclaim w).okWith
        (fun r _ ↦ isText "a" r.1 && isText "a!" r.2) &&
      (Script.eval scriptHost 10 [] (.assign (some .add) ofPopped (.string "!")) w).okWith
        (fun _ w' ↦ hasText w' "o" "b!" && hasText w' "p" "b") &&
      (ofPopped.replace scriptHost 8 [] exclaim w).okWith
        (fun _ w' ↦ hasText w' "o" "a" && hasText w' "p" "b!")) = true := by
    decide +kernel
  obtain ⟨v, w, hrun, h⟩ := Outcome.exists_of_okWith h
  simp only [Bool.and_eq_true] at h
  exact ⟨v, w, hrun, h.1.1.1, h.1.1.2, h.1.2, h.2⟩

/-- The property of a variable is inert. It is replaced, and has the new value then. -/
theorem replaces_in_place_entry : ∃ w w' l,
    Script.eval scriptHost 10 [] (.assign (some .add) (ofVariable "o") (.string "!")) w
        = .ok (.string "a!") w' ∧
      (ofVariable "o").locate scriptHost 8 [] w = .ok l w ∧
      l.read scriptHost [] w' = .ok (.string "a!") w' ∧
      Script.eval scriptHost 10 [] (.update true false (ofVariable "o")) w
        = ((fun r ↦ if false then r.2 else .number r.1.toNumber) <$>
          (ofVariable "o").replace scriptHost 8 [] fun old ↦ pure (stepped true old)) w := by
  obtain ⟨_, w, -, hentry, hreplace, -, -⟩ := evaluate_records
  obtain ⟨l, u, hl, hentry⟩ := Outcome.exists_of_okWith hentry
  obtain ⟨⟨old, new⟩, w', hreplace, htexts⟩ := Outcome.exists_of_okWith hreplace
  rw [Bool.and_eq_true] at htexts
  cases eq_of_isText htexts.1
  cases eq_of_isText htexts.2
  have hinert : (ofVariable "o").Inert := .member (.variable "o") "x"
  have hlooks (v : Value) : Script.Action.Looks (exclaim v) :=
    Script.looks_combine (.string "!") .add v
  obtain ⟨hassign, hupdate, hholds⟩ := replaces_in_place (ofVariable "o") 8 [] w
  obtain ⟨l', u', u'', hl', -, hcompute, -, hholds⟩ := hholds exclaim _ _ _ hreplace
  cases hl'.symm.trans hl
  cases hinert.looks.eq_of_ok hl
  cases (hlooks _).eq_of_ok hcompute
  refine ⟨_, w', l, ?_, hl, hholds (accepts_of_isEntry hentry),
    hupdate true false (hinert.steady (fun _ ↦ .pure _) _)⟩
  exact (hassign .add (.string "!") (hinert.steady hlooks _)).trans
    (Run.bind_of_ok hreplace fun r ↦ pure r.2)

/-- The target of `q.pop().x += "!"` is located twice, so two objects are popped: `p`, whose
property is read, and `o`, whose property is written. In place, it would have been the property of
`p`. -/
theorem misses_popped : ∃ v w v' w' r u, evaluate records (World.create 256 16) = .ok v w ∧
    Script.eval scriptHost 10 [] (.assign (some .add) ofPopped (.string "!")) w = .ok v' w' ∧
    Script.readTarget scriptHost 9 [] (ofVariable "o") w' = .ok (.string "b!") w' ∧
    Script.readTarget scriptHost 9 [] (ofVariable "p") w' = .ok (.string "b") w' ∧
    ofPopped.replace scriptHost 8 [] exclaim w = .ok r u ∧
    Script.readTarget scriptHost 9 [] (ofVariable "o") u = .ok (.string "a") u ∧
    Script.readTarget scriptHost 9 [] (ofVariable "p") u = .ok (.string "b!") u := by
  obtain ⟨v, w, hrecords, -, -, heval, hreplace⟩ := evaluate_records
  obtain ⟨v', w', heval, htexts⟩ := Outcome.exists_of_okWith heval
  obtain ⟨r, u, hreplace, htexts'⟩ := Outcome.exists_of_okWith hreplace
  rw [Bool.and_eq_true] at htexts htexts'
  exact ⟨v, w, v', w', r, u, hrecords, heval, readTarget_of_hasText htexts.1,
    readTarget_of_hasText htexts.2, hreplace, readTarget_of_hasText htexts'.1,
    readTarget_of_hasText htexts'.2⟩

end Popped

end World

end ReactiveFrames
