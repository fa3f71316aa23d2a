import ReactiveFrames.Proofs.Basic
import ReactiveFrames.Proofs.Script.Tracking
import ReactiveFrames.Proofs.Script.Variables
import ReactiveFrames.Reactive.Notify

/-!
# Observers under another access

Between two writes of properties, the scripts and observers that run change nothing about the
objects: they work on the heap, the console, the pins and the diagnostics. This is the relation
`World.Drifts`. A property of worlds that does not notice it is `DriftClosed`.

The observers of a property reach the objects only through an `Access`. If an access is tracked by a
family of accesses on a property of worlds that does not notice drift, then so are the observers
that are run with it.
-/

open Filter

namespace ReactiveFrames

open Script (Value Heap Host Action Pin)
open Script.Machine (pinning pinningValues GrowthClosed Grows)

/-! ## Data -/

section Data

mutual

theorem Literal.sameVariables_toValue (l : Literal) (h : Heap) :
    h.SameVariables (l.toValue h).2 := by
  cases l with
  | scalar s => cases s <;> exact .refl h
  | array items => exact (Literal.sameVariables_itemsToValues items h).trans ⟨rfl, rfl, rfl⟩
  | dictionary entries =>
    exact (Literal.sameVariables_entriesToValues entries h).trans ⟨rfl, rfl, rfl⟩

theorem Literal.sameVariables_itemsToValues (items : List Literal) (h : Heap) :
    h.SameVariables (Literal.itemsToValues items h).2 := by
  cases items with
  | nil => exact .refl h
  | cons item items =>
    exact (item.sameVariables_toValue h).trans (Literal.sameVariables_itemsToValues items _)

theorem Literal.sameVariables_entriesToValues (entries : List (String × Literal)) (h : Heap) :
    h.SameVariables (Literal.entriesToValues entries h).2 := by
  match entries with
  | [] => exact .refl h
  | (key, value) :: entries =>
    exact (value.sameVariables_toValue h).trans (Literal.sameVariables_entriesToValues entries _)

end

mutual

theorem Member.sameVariables_toValue (m : Member) (h : Heap) {r : Value × Heap}
    (hr : m.toValue h = .ok r) : h.SameVariables r.2 := by
  cases m with
  | property _ _ _ value =>
    cases hr
    exact value.sameVariables_toValue h
  | function => cases hr
  | frame name _ className members =>
    obtain ⟨r', hr', heq⟩ := Except.bind_eq_ok.1 hr
    cases heq
    exact (Member.sameVariables_listToValues members _ h hr').trans ⟨rfl, rfl, rfl⟩

theorem Member.sameVariables_listToValues (ms : List Member) (entries : Table Value) (h : Heap)
    {r : Table Value × Heap} (hr : Member.listToValues ms entries h = .ok r) :
    h.SameVariables r.2 := by
  match ms with
  | [] =>
    cases hr
    exact .refl h
  | m :: ms =>
    obtain ⟨r', hr', heq⟩ := Except.bind_eq_ok.1 hr
    exact (m.sameVariables_toValue h hr').trans (Member.sameVariables_listToValues ms _ r'.2 heq)

end

theorem Frame.sameVariables_toValue (f : Frame) (h : Heap) {v : Value × Heap}
    (hv : f.toValue h = .ok v) : h.SameVariables v.2 := by
  obtain ⟨entries, hentries, hv⟩ := Except.bind_eq_ok.1 hv
  cases hv
  exact (Member.sameVariables_listToValues _ _ h hentries).trans ⟨rfl, rfl, rfl⟩

/-- Reading a data frame changes no variable and no closure. -/
theorem DataReader.sameVariables_read (r : DataReader) (identifier : String) (h : Heap)
    {v : Value × Heap} (hv : r.read identifier h = .ok v) : h.SameVariables v.2 := by
  obtain ⟨frame, hframe⟩ := DataReader.exists_toValue_of_read hv
  exact frame.sameVariables_toValue h hframe

end Data

/-! ## Drift -/

/-- What becomes of a world while no property is written. -/
structure World.Drifts (w w' : World) : Prop where
  objects : w'.host.objects = w.host.objects
  held : w'.host.held = w.host.held
  foreigns : w'.host.foreigns = w.host.foreigns
  maxDepth : w'.maxDepth = w.maxDepth
  heap : w.heap.Extends w'.heap

namespace World.Drifts

variable {w w' w'' : World}

protected theorem refl (w : World) : w.Drifts w := ⟨rfl, rfl, rfl, rfl, .refl _⟩

protected theorem trans (h₁ : w.Drifts w') (h₂ : w'.Drifts w'') : w.Drifts w'' where
  objects := h₂.objects.trans h₁.objects
  held := h₂.held.trans h₁.held
  foreigns := h₂.foreigns.trans h₁.foreigns
  maxDepth := h₂.maxDepth.trans h₁.maxDepth
  heap := h₁.heap.trans h₂.heap

theorem of_grows (h : Grows w w') : w.Drifts w' :=
  ⟨by rw [h.host], by rw [h.host], by rw [h.host], h.maxDepth, h.heap⟩

theorem report (e : ObserverError) (w : World) : w.Drifts (w.report e) :=
  ⟨rfl, rfl, rfl, rfl, .refl _⟩

theorem pins (w : World) (p : List Pin) : w.Drifts { w with pins := p } :=
  .of_grows (.pins w p)

theorem object (h : w.Drifts w') (o : ObjectRef) : w'.object o = w.object o := by
  rw [World.object, World.object, ObjectGraph.object, ObjectGraph.object, h.objects]

theorem get? (h : w.Drifts w') (o : ObjectRef) (p : String) : w'.get? o p = w.get? o p := by
  rw [World.get?, World.get?, h.object]

end World.Drifts

/-- A property of worlds that does not depend on what changes while no property is written. -/
def World.DriftClosed (I : World → Prop) : Prop := ∀ w w', w.Drifts w' → I w → I w'

theorem World.DriftClosed.growthClosed {I : World → Prop} (hI : World.DriftClosed I) :
    GrowthClosed I := fun w w' h ↦ hI w w' (.of_grows h)

/-- A function outside scripts may make cells and give notices, and does nothing else. -/
theorem Foreign.exists_state_apply (f : Foreign) (arguments : List Value) (w : World) :
    ∃ h notices, w.heap.SameVariables h ∧
      (f.apply arguments w).state = { w with heap := h, notices := notices } := by
  cases f with
  | echo => exact ⟨(w.heap.newArray arguments.toArray).2, w.notices, ⟨rfl, rfl, rfl⟩, rfl⟩
  | failing text => exact ⟨w.heap, w.notices, .refl _, rfl⟩
  | readData reader =>
    change ∃ h notices, _ ∧ (readDataValue reader arguments w).state = _
    unfold readDataValue
    split
    · split
      · next hread => exact ⟨_, w.notices, reader.sameVariables_read _ _ hread, rfl⟩
      · exact ⟨w.heap, _, .refl _, rfl⟩
    · exact ⟨w.heap, _, .refl _, rfl⟩

/-- A function outside scripts lets a world drift at most. -/
theorem Foreign.drifts_apply (f : Foreign) (arguments : List Value) (w : World) :
    w.Drifts (f.apply arguments w).state := by
  obtain ⟨h, notices, hsame, hstate⟩ := f.exists_state_apply arguments w
  rw [hstate]
  exact ⟨rfl, rfl, rfl, rfl, .of_closures_eq hsame.closures⟩

/-- A function outside scripts leaves the objects and the diagnostics as they are. -/
theorem Foreign.host_apply (f : Foreign) (arguments : List Value) (w : World) :
    (f.apply arguments w).state.host = w.host := by
  obtain ⟨h, notices, -, hstate⟩ := f.exists_state_apply arguments w
  rw [hstate]

/-! ## Running a listener -/

/-- A world with further values pinned. -/
def World.pinned (w : World) (vs : List Value) : World :=
  { w with pins := vs.map Pin.value ++ w.pins }

theorem World.drifts_pinned (w : World) (vs : List Value) : w.Drifts (w.pinned vs) := .pins w _

section Invoke

variable {bound : Nat} {a : Access} {owner : ObjectRef} {listener : String} {w : World}

theorem invokeListener_of_error {e : ObserverError}
    (h : listenerCall? a.read w owner listener = .error e) :
    invokeListener bound a owner listener w = .error e w := by
  change Run.bind (fun w ↦ Run.ofExcept (listenerCall? a.read w owner listener) w) _ w = _
  unfold Run.bind
  simp only [h]
  rfl

/-- A listener is called with the values that it points at, which stay pinned, and what the call
yields is stored. -/
theorem invokeListener_of_ok {f : Value} {arguments : List Value}
    (h : listenerCall? a.read w owner listener = .ok (f, arguments)) :
    invokeListener bound a owner listener w =
      (match Script.callValue (hostOf a) bound f arguments (w.pinned (f :: arguments)) with
        | .ok v w' => storeResult a.write owner listener (.ok v) w'
        | .error e w' => storeResult a.write owner listener (.error e) w'
        | .exhausted w' => .exhausted w').mapState fun w' ↦ { w' with pins := w.pins } := by
  change Run.bind (fun w ↦ Run.ofExcept (listenerCall? a.read w owner listener) w) _ w = _
  unfold Run.bind
  simp only [h]
  change (Run.bind (Run.attempt (Script.callValue (hostOf a) bound f arguments))
    (storeResult a.write owner listener) (w.pinned (f :: arguments))).mapState _ = _
  unfold Run.bind Run.attempt
  cases Script.callValue (hostOf a) bound f arguments (w.pinned (f :: arguments)) <;> rfl

end Invoke

/-- A listener is called by its own callable. -/
theorem listener?_of_listenerCall? {read : Lookup} {w : World} {owner : ObjectRef}
    {listener : String} {f : Value} {arguments : List Value}
    (h : listenerCall? read w owner listener = .ok (f, arguments)) :
    (w.object owner).listener? listener = some f := by
  unfold listenerCall? at h
  dsimp only at h
  split at h
  · cases h
  split at h
  · next callable hcallable =>
    obtain ⟨callable', hpure, h⟩ := Except.bind_eq_ok.1 h
    obtain ⟨values, -, h⟩ := Except.bind_eq_ok.1 h
    cases hpure
    cases h
    exact hcallable
  · cases h

/-! ## Accesses -/

/-- The family comes to answer as the access does in worlds with a property, which the writes of
the access preserve. -/
structure Access.Tracks (I : World → Prop) (a : Access) (A : ℕ → Access) : Prop where
  read : ∀ w, I w → ∀ o p, ∀ᶠ k in atTop, (A k).read w o p = a.read w o p
  write : ∀ o p v, Run.Tracks I (a.write o p v) fun k ↦ (A k).write o p v

/-- What is reported does not matter to the property. -/
theorem tracks_reporting_of {I : World → Prop} (hI : ∀ e w, I w → I (World.report e w)) {ε : Type}
    {x : Effect ObserverError Unit} {y : ℕ → Effect ObserverError Unit} (h : Run.Tracks I x y) :
    Run.Tracks I (reporting x : Effect ε Unit) fun k ↦ reporting (y k) := by
  intro w hw hr
  have hx := h w hw
  unfold reporting at hr ⊢
  cases hxw : x w with
  | exhausted w' => simp [hxw] at hr
  | ok _ w' =>
    rw [hxw] at hx
    exact ⟨(hx trivial).1, (hx trivial).2.mono fun k hk ↦ by simp only [hk]⟩
  | error e w' =>
    rw [hxw] at hx
    exact ⟨hI e w' (hx trivial).1, (hx trivial).2.mono fun k hk ↦ by simp only [hk]⟩

section Tracking

variable {I : World → Prop} (hI : World.DriftClosed I) {a : Access} {A : ℕ → Access}
  (ha : a.Tracks I A) {n : ℕ} {b : ℕ → ℕ} (hb : ∀ᶠ k in atTop, n ≤ b k)

include hI in
theorem tracks_reporting {ε : Type} {x : Effect ObserverError Unit}
    {y : ℕ → Effect ObserverError Unit} (h : Run.Tracks I x y) :
    Run.Tracks I (reporting x : Effect ε Unit) fun k ↦ reporting (y k) :=
  tracks_reporting_of (fun e w ↦ hI w _ (.report e w)) h

include hI ha in
theorem Access.Tracks.host : (hostOf a).Tracks I fun k ↦ hostOf (A k) where
  read w hw ref p := (ha.read w hw ⟨ref.index⟩ p).mono fun k hk ↦ by simp only [hostOf, hk]
  write ref p v := tracks_reporting hI (ha.write ⟨ref.index⟩ p v)
  call ref arguments := by
    refine .of_preserves fun w hw ↦ ?_
    simp only [hostOf]
    split
    · exact hI _ _ (Foreign.drifts_apply _ _ w) hw
    · exact hw

include ha in
theorem Access.Tracks.pointedValues {w : World} (hw : I w) (listener : String)
    (ps : List Pointer) : ∀ᶠ k in atTop,
      ReactiveFrames.pointedValues (A k).read w listener ps
        = ReactiveFrames.pointedValues a.read w listener ps := by
  induction ps with
  | nil => exact .of_forall fun _ ↦ rfl
  | cons p ps ih =>
    refine (ih.and (ha.read w hw p.object p.property)).mono fun k ⟨hps, hp⟩ ↦ ?_
    rw [ReactiveFrames.pointedValues, ReactiveFrames.pointedValues, hp, hps]

include ha in
theorem Access.Tracks.listenerCall? {w : World} (hw : I w) (owner : ObjectRef)
    (listener : String) : ∀ᶠ k in atTop,
      ReactiveFrames.listenerCall? (A k).read w owner listener
        = ReactiveFrames.listenerCall? a.read w owner listener := by
  refine (ha.pointedValues hw listener
    (((w.object owner).pointers.find? listener).getD [])).mono fun k hk ↦ ?_
  unfold ReactiveFrames.listenerCall?
  dsimp only
  rw [hk]

include hI ha in
theorem tracks_storeResult (owner : ObjectRef) (listener : String)
    (result : Except Script.ScriptError Value) :
    Run.Tracks I (storeResult a.write owner listener result)
      fun k ↦ storeResult (A k).write owner listener result := by
  have hreset : Run.Tracks I (Script.resetFailures : Effect ObserverError Unit)
      fun _ ↦ Script.resetFailures :=
    .update fun w hw ↦ hI w _ ⟨rfl, rfl, rfl, rfl, .refl _⟩ hw
  refine hreset.bind fun _ ↦ Run.Tracks.state.bind fun w ↦ ?_
  cases result with
  | error e => exact .fail _
  | ok v =>
    cases v with
    | undefined => exact .fail _
    | _ => exact ha.write _ _ _

include hI ha hb in
theorem tracks_invokeListener (owner : ObjectRef) (listener : String) :
    Run.Tracks I (invokeListener n a owner listener)
      fun k ↦ invokeListener (b k) (A k) owner listener := by
  have hgrowth := hI.growthClosed
  have hcall : Run.Tracks I
      (fun w ↦ Run.ofExcept (listenerCall? a.read w owner listener) w : Effect ObserverError _)
      fun k w ↦ Run.ofExcept (listenerCall? (A k).read w owner listener) w := fun w hw hr ↦
    ⟨(Run.Tracks.ofExcept _ w hw hr).1,
      (ha.listenerCall? hw owner listener).mono fun k hk ↦ by dsimp only; rw [hk]⟩
  exact hcall.bind fun r ↦ Script.tracks_pinning hgrowth _ <|
    (Script.tracks_callValue hgrowth (ha.host hI) hb r.1 r.2).attempt.bind fun result ↦
      tracks_storeResult hI ha owner listener result

include hI in
theorem tracks_log {ε : Type} (line : String) :
    Run.Tracks I (Run.update (Script.Machine.log line) : Effect ε Unit)
      fun _ ↦ Run.update (Script.Machine.log line) :=
  .update fun w hw ↦ hI w _ ⟨rfl, rfl, rfl, rfl, .refl _⟩ hw

include hI ha in
theorem tracks_follow {ε : Type} (tag : String) (f : FollowUp) :
    Run.Tracks I (follow a.write tag f : Effect ε Unit) fun k ↦ follow (A k).write tag f := by
  refine Run.Tracks.bind (.ite ?_ (.pure "gone")) fun _ ↦ tracks_log hI _
  refine (ha.write f.object f.property f.value).attempt.bind fun r ↦ ?_
  cases r <;> exact .pure _

include hI ha hb in
theorem tracks_runObserver {ε : Type} (v : Value) (observer : Observer) :
    Run.Tracks I (runObserver n a v observer : Effect ε Unit)
      fun k ↦ runObserver (b k) (A k) v observer := by
  cases observer with
  | listener owner name => exact tracks_reporting hI (tracks_invokeListener hI ha hb owner name)
  | watcher tag f =>
    have hlog : Run.Tracks I (logValue tag v : Effect ε Unit) fun _ ↦ logValue tag v :=
      Run.Tracks.bind (fun w hw hr ↦ Run.Tracks.ofOption _ w hw hr) fun _ ↦ tracks_log hI _
    cases f with
    | none => exact hlog.bind fun _ ↦ .pure ()
    | some f => exact hlog.bind fun _ ↦ tracks_follow hI ha tag f

include hI ha hb in
/-- Observers are tracked if the access is with which they are run. -/
theorem tracks_runObservers {ε : Type} (v : Value) (observers : List Observer) :
    Run.Tracks I (runObservers n a v observers : Effect ε Unit)
      fun k ↦ runObservers (b k) (A k) v observers := by
  induction observers with
  | nil => exact .pure ()
  | cons observer rest ih => exact (tracks_runObserver hI ha hb v observer).bind fun _ ↦ ih

end Tracking

/-! ## The writes of a script -/

/-- A write that is made in a world. -/
structure Call where
  object : ObjectRef
  property : String
  value : Value
  world : World

/-- A run with a host makes only writes of the set: it ends alike with every host that answers
those writes alike. -/
def MakesOnly {α : Type} (S : Set Call) (host : Host ObjectGraph)
    (run : Host ObjectGraph → Outcome World Script.ScriptError α) : Prop :=
  ∀ h : Host ObjectGraph, h.read = host.read → h.call = host.call →
    (∀ ref p v w, ⟨⟨ref.index⟩, p, v, w⟩ ∈ S → h.write ref p v w = host.write ref p v w) →
    (run h).Returns ∨ (run host).Returns → run h = run host

open Classical in
/-- Answers the writes of a set as a host does, and all others in another way. -/
noncomputable def answering (S : Set Call) (host : Host ObjectGraph)
    (other : Script.HostRef → String → Value → Action ObjectGraph Unit) : Host ObjectGraph where
  read := host.read
  write ref p v := fun w ↦
    if ⟨⟨ref.index⟩, p, v, w⟩ ∈ S then host.write ref p v w else other ref p v w
  call := host.call

/-- A run that makes writes of the set only does not notice how others are answered. -/
theorem MakesOnly.answering_eq {α : Type} {S : Set Call} {host : Host ObjectGraph}
    {run : Host ObjectGraph → Outcome World Script.ScriptError α} (h : MakesOnly S host run)
    (other : Script.HostRef → String → Value → Action ObjectGraph Unit)
    (hr : (run (answering S host other)).Returns ∨ (run host).Returns) :
    run (answering S host other) = run host :=
  h (answering S host other) rfl rfl (fun _ _ _ _ hmem ↦ if_pos hmem) hr

end ReactiveFrames
