import ReactiveFrames.Proofs.Reactive.Guard

/-!
# Reports of cycles

A refused write is reported as a cycle. The report leaves a notice, and stays among the collected
failures for a while. Nothing else leaves one: the messages of the failures differ in their first
character, and scripts give notice of details only.
-/

open Filter

namespace ReactiveFrames

open Script (Value Host)
open Script.Machine (GrowthClosed Grows)

/-! ## Messages -/

/-- The first character of the message of a failure. -/
def ObserverError.initial : ObserverError → Char
  | missingProperty .. => 'P'
  | missingFunction .. => 'N'
  | script .. => 'L'
  | noResult .. => 'L'
  | cycle .. => 'C'
  | released _ => 'O'

private theorem head?_append {s t : String} {c : Char} (h : s.toList.head? = some c) :
    (s ++ t).toList.head? = some c := by
  rw [String.toList_append, List.head?_append, h]
  rfl

theorem ObserverError.head?_message (e : ObserverError) :
    e.message.toList.head? = some e.initial := by
  cases e with
  | missingProperty =>
    exact head?_append (head?_append (head?_append (head?_append (head?_append rfl))))
  | missingFunction => exact head?_append (head?_append (head?_append rfl))
  | script =>
    exact head?_append (head?_append (head?_append (head?_append (head?_append rfl))))
  | noResult => exact head?_append (head?_append (head?_append (head?_append rfl)))
  | cycle => exact head?_append (head?_append (head?_append (head?_append rfl)))
  | released => exact head?_append (head?_append rfl)

/-- A failure that is no cycle does not read like one. -/
theorem ObserverError.message_ne_cycle {e : ObserverError} (he : e.initial ≠ 'C')
    (path p : String) : e.message ≠ (cycle path p).message := by
  intro h
  have hhead := e.head?_message
  rw [h, head?_message] at hhead
  exact he (Option.some.inj hhead).symm

theorem dataNotice_ne_cycle (cause path p : String) :
    dataNotice cause ≠ ⟨(ObserverError.cycle path p).message, false⟩ := by
  intro h
  have hhead : (dataNotice cause).text.toList.head? = some 'r' := head?_append rfl
  rw [h, ObserverError.head?_message] at hhead
  exact absurd (Option.some.inj hhead) (by decide : 'C' ≠ 'r')

/-! ## Worlds without a cycle -/

/-- No cycle has been reported. -/
def World.NoCycle (w : World) : Prop :=
  ∀ path p, .cycle path p ∉ w.host.diagnostics.errors ∧
    ⟨(ObserverError.cycle path p).message, false⟩ ∉ w.notices

namespace World.NoCycle

variable {w w' : World}

theorem congr (h : w.NoCycle) (hd : w'.host.diagnostics = w.host.diagnostics)
    (hn : w'.notices = w.notices) : w'.NoCycle := by
  rw [NoCycle, hd, hn]
  exact h

/-- The report of another failure is none of a cycle. -/
theorem report (h : w.NoCycle) {e : ObserverError} (he : e.initial ≠ 'C') :
    (w.report e).NoCycle := by
  intro path p
  have hne : .cycle path p ≠ e := fun heq ↦ he (heq ▸ rfl)
  constructor
  · change .cycle path p ∉ (w.host.diagnostics.report e).errors
    unfold Diagnostics.report
    dsimp only
    split_ifs
    · exact (h path p).1
    · rw [List.mem_append, List.mem_singleton, not_or]
      exact ⟨fun hmem ↦ (h path p).1 (List.mem_of_mem_drop hmem), hne⟩
    · rw [List.mem_append, List.mem_singleton, not_or]
      exact ⟨(h path p).1, hne⟩
  · change _ ∉ w.notices.push ⟨e.message, false⟩
    rw [Array.mem_push, not_or]
    refine ⟨(h path p).2, fun heq ↦ ?_⟩
    exact ObserverError.message_ne_cycle he path p (congrArg Script.Notice.text heq).symm

theorem note (h : w.NoCycle) {n : Script.Notice}
    (hn : ∀ path p, n ≠ ⟨(ObserverError.cycle path p).message, false⟩) : NoCycle (w.note n) := by
  intro path p
  refine ⟨(h path p).1, fun hmem ↦ ?_⟩
  rcases Array.mem_push.1 hmem with hmem | heq
  · exact (h path p).2 hmem
  · exact hn path p heq.symm

/-- Scripts give notice of details only. -/
theorem growthClosed : GrowthClosed NoCycle := by
  intro w w' hg h path p
  refine ⟨by rw [hg.host]; exact (h path p).1, fun hmem ↦ ?_⟩
  rcases hg.notices _ hmem with hmem | hdetail
  · exact (h path p).2 hmem
  · exact absurd hdetail Bool.false_ne_true

/-- A function outside scripts reports no cycle. -/
theorem foreign (h : w.NoCycle) (f : Foreign) (arguments : List Value) :
    NoCycle (f.apply arguments w).state := by
  cases f with
  | echo => exact h.congr rfl rfl
  | failing text => exact h
  | readData reader =>
    change NoCycle (readDataValue reader arguments w).state
    unfold readDataValue
    split
    · split
      · exact h.congr rfl rfl
      · exact h.note fun path p ↦ dataNotice_ne_cycle _ path p
    · exact h.note fun path p ↦ dataNotice_ne_cycle _ path p

theorem create (maxDepth capacity : Nat) : NoCycle (.initial maxDepth
    { diagnostics := { capacity := capacity } }) :=
  fun _ _ ↦ ⟨List.not_mem_nil, Array.not_mem_empty _⟩

end World.NoCycle

theorem preserves_noCycle_call (a : Access) (ref : Script.ForeignRef) (arguments : List Value) :
    Run.Preserves World.NoCycle ((hostOf a).call ref arguments) := by
  refine .of_preserves fun w hw ↦ ?_
  simp only [hostOf]
  split
  · exact hw.foreign _ _
  · exact hw

/-! ## Scripts -/

/-- From the one world to the other, no cycle has been reported and what is guarded is kept. -/
def World.Calm (w w' : World) : Prop := w.Keeps w' ∧ w'.NoCycle

namespace World.Calm

variable {w : World}

theorem growthClosed (w : World) : GrowthClosed w.Calm := fun u u' hgrows hu ↦
  ⟨hu.1.trans (.of_drifts (.of_grows hgrows)), NoCycle.growthClosed u u' hgrows hu.2⟩

/-- Scripts stay calm if their writes do. -/
theorem tracks_host {a : Access}
    (hwrite : ∀ o p v, Run.Preserves w.Calm
      (reporting (a.write o p v) : Effect Script.ScriptError Unit)) :
    (hostOf a).Tracks w.Calm fun _ ↦ hostOf a where
  read _ _ _ _ := .of_forall fun _ ↦ rfl
  write ref p v := hwrite ⟨ref.index⟩ p v
  call ref arguments u hu hr := by
    refine ⟨⟨?_, (preserves_noCycle_call _ ref arguments u hu.2 hr).1⟩, .of_forall fun _ ↦ rfl⟩
    simp only [hostOf]
    split
    · exact hu.1.trans (.of_drifts (Foreign.drifts_apply _ _ u))
    · exact hu.1

end World.Calm

end ReactiveFrames
