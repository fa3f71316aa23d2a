import Mathlib.Data.List.Induction
import ReactiveFrames.Proofs.Reactive.Reachable
import ReactiveFrames.Proofs.Reactive.Stack

/-!
# Writes come to an end

A write runs listeners, whose bodies write, which runs further listeners. Whether all of this ends
depends on the bodies: one may loop for ever. But if every body ends once the writes that it makes
end, then every write ends, whatever the listeners are wired to and whatever they write.

## Writes without a bound

`World.write` is the write whose scripts take as many steps as they need: the limit of the writes
with bounded steps. A body that is run with it is exhausted by a write that does not end, and by a
loop of its own. To tell these apart, `World.stoppingHost` makes a write that does not end stop the
script instead. The body ends once its writes end if it ends with this host within some bound
(`Invocation.Ends`).

## Which writes

The theorem speaks of any set of writes from which no write leads out that is nested in it
(`Invocation.Within`): the writes of a body are in the set if the body does not notice when a host
answers other writes differently (`MakesOnly`). The writes that occur during one write are such a
set, and so are all writes.

The induction is on the room for nested writes, the observed properties that are not guarded.
-/

open Filter

namespace ReactiveFrames

open Script (Value Host)
open Script.Machine (pinning pinningValues)

/-- A listener that is run: its body is called with arguments in a world. -/
structure Invocation where
  owner : ObjectRef
  listener : String
  callable : Value
  arguments : List Value
  world : World

namespace World

/-- Sets a property, with as many steps for scripts as they need. -/
noncomputable def write : Writer := fun o p v ↦ Run.limit fun n ↦ setBounded n o p v

/-- What scripts reach when writes are not bounded. -/
noncomputable def writingHost : Host ObjectGraph := hostOf ⟨get?, write⟩

open Classical in
/-- What scripts reach when writes are not bounded, and a write that does not end stops the script
that makes it with an error. -/
noncomputable def stoppingHost (e : Script.ScriptError) : Host ObjectGraph where
  read := writingHost.read
  write ref p v := fun w ↦
    if (write ⟨ref.index⟩ p v w).Returns then writingHost.write ref p v w else .error e w
  call := writingHost.call

end World

/-- The write as it is when scripts have a bound of steps. -/
def Call.run (c : Call) (bound : Nat) : Outcome World ObserverError Unit :=
  World.setBounded bound c.object c.property c.value c.world

/-- The write ends if scripts have as many steps as they need. -/
def Call.Terminates (c : Call) : Prop :=
  (World.write c.object c.property c.value c.world).Returns

namespace Invocation

/-- The call of the body. -/
def run (i : Invocation) (h : Host ObjectGraph) (bound : Nat) :
    Outcome World Script.ScriptError Value :=
  Script.callValue h bound i.callable i.arguments i.world

/-- The body ends within some bound, unless a write that it makes does not. -/
def Ends (i : Invocation) : Prop := ∃ e bound, (i.run (World.stoppingHost e) bound).Returns

/-- The body makes only writes of the set, and the write of its result is in the set too. -/
structure Within (S : Set Call) (i : Invocation) : Prop where
  body : ∀ bound, MakesOnly S World.writingHost fun h ↦ i.run h bound
  result : ∀ bound v w, i.run World.writingHost bound = .ok v w →
    ⟨i.owner, i.listener, v, { w with failures := 0 }⟩ ∈ S

end Invocation

/-- The write runs the listener, after the observers that come before it. -/
def Call.Invokes (c : Call) (i : Invocation) : Prop :=
  c.property ∉ (c.world.object c.object).notifying ∧
    ∃ earlier later u,
      (c.world.object c.object).observersOf c.property
        = earlier ++ .listener i.owner i.listener :: later ∧
      Run.limit (fun n ↦ (runObservers n ⟨World.get?, World.write⟩ c.value earlier :
        Effect ObserverError Unit)) (c.world.begun c.object c.property c.value) = .ok () u ∧
      listenerCall? World.get? u i.owner i.listener = .ok (i.callable, i.arguments) ∧
      i.world = u.pinned (i.callable :: i.arguments)

/-! ## Unbounded writes -/

namespace Call

variable {c : Call}

theorem terminates_of_settles {r : Outcome World ObserverError Unit} (hr : r.Returns)
    (h : ∀ᶠ n in atTop, c.run n = r) :
    c.Terminates ∧ World.write c.object c.property c.value c.world = r := by
  have hlimit : World.write c.object c.property c.value c.world = r := Run.limit_eq ⟨hr, h⟩
  exact ⟨by rw [Terminates, hlimit]; exact hr, hlimit⟩

/-- An unbounded write that ends keeps what bounded ones keep. -/
theorem keeps_write (h : c.Terminates) :
    c.world.Keeps (World.write c.object c.property c.value c.world).state := by
  obtain ⟨hr, hsettles⟩ := Run.settlesOn_limit h
  obtain ⟨n, hn⟩ := hsettles.exists
  have hkeeps := keeps_setWithin n World.get? c.world.levels c.object c.property c.value c.world
  change (c.run n).Returns → c.world.Keeps (c.run n).state at hkeeps
  have hrun : c.run n = World.write c.object c.property c.value c.world := hn
  rw [hrun] at hkeeps
  exact hkeeps h

end Call

/-! ## Accesses that approach the unbounded one -/

/-- The accesses read properties as they are, and come to answer the writes of the set in later
worlds as the unbounded write does. -/
structure Access.Approaches (S : Set Call) (b : World) (A : ℕ → Access) : Prop where
  read : ∀ k, (A k).read = World.get?
  write : ∀ c ∈ S, b.Keeps c.world → ∀ᶠ k in atTop,
    (A k).write c.object c.property c.value c.world
      = World.write c.object c.property c.value c.world

theorem Access.approaches_write (S : Set Call) (b : World) :
    Access.Approaches S b fun _ ↦ ⟨World.get?, World.write⟩ :=
  ⟨fun _ ↦ rfl, fun _ _ _ ↦ .of_forall fun _ ↦ rfl⟩

section Nested

variable {S : Set Call} {b : World} (hS : ∀ c ∈ S, b.Keeps c.world → c.Terminates)

theorem driftClosed_keeps (b : World) : World.DriftClosed b.Keeps := fun _ _ hd hk ↦
  hk.trans (.of_drifts hd)

/-- A function outside scripts keeps what drift keeps. -/
theorem tracks_hostCall (b : World) (ref : Script.ForeignRef) (arguments : List Value) :
    Run.Preserves b.Keeps (World.writingHost.call ref arguments) := by
  refine .of_preserves fun w hw ↦ ?_
  simp only [World.writingHost, hostOf]
  split
  · exact hw.trans (.of_drifts (Foreign.drifts_apply _ _ w))
  · exact hw

theorem tracks_writingHost {ref : Script.HostRef} {p : String} {v : Value} {w : World}
    (hw : b.Keeps w) (hc : Call.Terminates ⟨⟨ref.index⟩, p, v, w⟩) :
    b.Keeps (World.writingHost.write ref p v w).state := by
  have hkeeps := Call.keeps_write hc
  have hresult := hc
  rw [Call.Terminates] at hresult
  simp only [World.writingHost, hostOf, reporting]
  dsimp only at hkeeps hresult
  cases hrun : World.write ⟨ref.index⟩ p v w with
  | ok _ u =>
    rw [hrun] at hkeeps
    exact hw.trans hkeeps
  | error e u =>
    rw [hrun] at hkeeps
    exact (hw.trans hkeeps).trans (.of_drifts (.report e u))
  | exhausted u =>
    rw [hrun] at hresult
    exact hresult.elim

include hS in
/-- If the writes of the set end, then a write that stops the script is not among them. -/
theorem stoppingHost_tracks (e : Script.ScriptError) :
    (World.stoppingHost e).Tracks b.Keeps
      fun _ ↦ answering S World.writingHost (World.stoppingHost e).write where
  read _ _ _ _ := .of_forall fun _ ↦ rfl
  call := tracks_hostCall b
  write ref p v w hw hr := by
    by_cases hc : Call.Terminates ⟨⟨ref.index⟩, p, v, w⟩
    · have hstop : (World.stoppingHost e).write ref p v w = World.writingHost.write ref p v w :=
        if_pos hc
      refine ⟨hstop ▸ tracks_writingHost hw hc, .of_forall fun _ ↦ ?_⟩
      by_cases hmem : ⟨⟨ref.index⟩, p, v, w⟩ ∈ S
      · exact (if_pos hmem).trans hstop.symm
      · exact if_neg hmem
    · have hstop : (World.stoppingHost e).write ref p v w = .error e w := if_neg hc
      have hmem : ⟨⟨ref.index⟩, p, v, w⟩ ∉ S := fun hmem ↦ hc (hS _ hmem hw)
      exact ⟨by rw [hstop]; exact hw, .of_forall fun _ ↦ if_neg hmem⟩

include hS in
/-- Accesses that approach the unbounded one answer the writes of the set as it does. -/
theorem answering_tracks {A : ℕ → Access} (hA : Access.Approaches S b A) :
    (answering S World.writingHost fun _ _ _ ↦ Run.exhaust).Tracks b.Keeps
      fun k ↦ hostOf (A k) where
  read w _ ref p := .of_forall fun k ↦ by
    simp only [hostOf, hA.read, answering, World.writingHost]
  call := tracks_hostCall b
  write ref p v w hw hr := by
    by_cases hmem : ⟨⟨ref.index⟩, p, v, w⟩ ∈ S
    · have hwrite : (answering S World.writingHost fun _ _ _ ↦ Run.exhaust).write ref p v w
          = World.writingHost.write ref p v w := if_pos hmem
      refine ⟨hwrite ▸ tracks_writingHost hw (hS _ hmem hw),
        (hA.write _ hmem hw).mono fun k hk ↦ ?_⟩
      dsimp only at hk
      rw [hwrite]
      simp only [World.writingHost, hostOf, reporting, hk]
    · have hwrite : (answering S World.writingHost fun _ _ _ ↦ Run.exhaust).write ref p v w
          = .exhausted w := if_neg hmem
      rw [hwrite] at hr
      exact hr.elim

include hS in
/-- A body ends if the writes of the set do, with every access that approaches the unbounded one in
the same way. -/
theorem Invocation.settles {i : Invocation} (hi : b.Keeps i.world) (hends : i.Ends)
    (hwithin : i.Within S) :
    ∃ r : Outcome World Script.ScriptError Value, r.Returns ∧ b.Keeps r.state ∧
      (∃ n, i.run World.writingHost n = r) ∧
      ∀ A, Access.Approaches S b A → ∀ᶠ k in atTop, i.run (hostOf (A k)) k = r := by
  obtain ⟨e, n, hn⟩ := hends
  have hgrowth := (driftClosed_keeps b).growthClosed
  -- Nothing stops the script, since the writes that it makes end.
  obtain ⟨hkeeps, hstop⟩ := Script.tracks_callValue hgrowth (stoppingHost_tracks hS e)
    (b := fun _ ↦ n) (.of_forall fun _ ↦ le_rfl) i.callable i.arguments i.world hi hn
  have hsame : i.run (answering S World.writingHost (World.stoppingHost e).write) n
      = i.run (World.stoppingHost e) n := hstop.exists.choose_spec
  have hrun : i.run World.writingHost n = i.run (World.stoppingHost e) n :=
    ((hwithin.body n).answering_eq _ (.inl (hsame ▸ hn))).symm.trans hsame
  have hanswering : i.run (answering S World.writingHost fun _ _ _ ↦ Run.exhaust) n
      = i.run (World.stoppingHost e) n :=
    ((hwithin.body n).answering_eq _ (.inr (hrun ▸ hn))).trans hrun
  refine ⟨i.run (World.stoppingHost e) n, hn, hkeeps, ⟨n, hrun⟩, fun A hA ↦ ?_⟩
  obtain ⟨-, hsettles⟩ := Script.tracks_callValue hgrowth (answering_tracks hS hA)
    (b := id) (eventually_ge_atTop n) i.callable i.arguments i.world hi
    (by
      change (i.run (answering S World.writingHost fun _ _ _ ↦ Run.exhaust) n).Returns
      rw [hanswering]
      exact hn)
  exact hsettles.mono fun k hk ↦ Eq.trans hk hanswering

include hS in
/-- The write of what a body yielded ends. -/
theorem storeResult_settles {owner : ObjectRef} {listener : String} {u : World} (hu : b.Keeps u)
    {result : Except Script.ScriptError Value}
    (hmem : ∀ v, result = .ok v → ⟨owner, listener, v, { u with failures := 0 }⟩ ∈ S) :
    ∃ r : Outcome World ObserverError Unit, r.Returns ∧ b.Keeps r.state ∧
      ∀ A, Access.Approaches S b A → ∀ᶠ k in atTop,
        storeResult (A k).write owner listener result u = r := by
  have hreset : b.Keeps { u with failures := 0 } :=
    hu.trans (.of_drifts ⟨rfl, rfl, rfl, rfl, .refl _⟩)
  have hpath : World.object { u with failures := 0 } owner = World.object u owner := rfl
  cases result with
  | error e =>
    exact ⟨.error (.script (World.object u owner).path listener e) { u with failures := 0 },
      trivial, hreset, fun _ _ ↦ .of_forall fun _ ↦ rfl⟩
  | ok v =>
    have hc := hS _ (hmem v rfl) hreset
    cases v with
    | undefined =>
      exact ⟨.error (.noResult (World.object u owner).path listener) { u with failures := 0 },
        trivial, hreset, fun _ _ ↦ .of_forall fun _ ↦ rfl⟩
    | _ =>
      exact ⟨_, hc, hreset.trans (Call.keeps_write hc), fun A hA ↦ hA.write _ (hmem _ rfl) hreset⟩

include hS in
/-- A listener that is run ends if the writes of the set do. -/
theorem invokeListener_settles {owner : ObjectRef} {listener : String} {u : World}
    (hu : b.Keeps u)
    (hbody : ∀ f arguments, listenerCall? World.get? u owner listener = .ok (f, arguments) →
      Invocation.Ends ⟨owner, listener, f, arguments, u.pinned (f :: arguments)⟩ ∧
        Invocation.Within S ⟨owner, listener, f, arguments, u.pinned (f :: arguments)⟩) :
    ∃ r : Outcome World ObserverError Unit, r.Returns ∧ b.Keeps r.state ∧
      ∀ A, Access.Approaches S b A → ∀ᶠ k in atTop,
        invokeListener k (A k) owner listener u = r := by
  cases hcall : listenerCall? World.get? u owner listener with
  | error e =>
    exact ⟨.error e u, trivial, hu, fun A hA ↦ .of_forall fun k ↦
      invokeListener_of_error (by rw [hA.read, hcall])⟩
  | ok call =>
    obtain ⟨f, arguments⟩ := call
    obtain ⟨hends, hwithin⟩ := hbody f arguments hcall
    have hpinned : b.Keeps (u.pinned (f :: arguments)) := hu.trans (.of_drifts (u.drifts_pinned _))
    obtain ⟨r, hr, hkeeps, ⟨n, hn⟩, hbody⟩ := Invocation.settles hS hpinned hends hwithin
    -- What the call yields settles, and then what is stored of it.
    have hstore {u' : World} (hu' : b.Keeps u') (result : Except Script.ScriptError Value)
        (hmem : ∀ v, result = .ok v → ⟨owner, listener, v, { u' with failures := 0 }⟩ ∈ S)
        (hresult : ∀ k a, Invocation.run ⟨owner, listener, f, arguments,
            u.pinned (f :: arguments)⟩ (hostOf a) k = r → a.read = World.get? →
          invokeListener k a owner listener u = (storeResult a.write owner listener result
            u').mapState fun w ↦ { w with pins := u.pins }) :
        ∃ r : Outcome World ObserverError Unit, r.Returns ∧ b.Keeps r.state ∧
          ∀ A, Access.Approaches S b A → ∀ᶠ k in atTop,
            invokeListener k (A k) owner listener u = r := by
      obtain ⟨r', hr', hkeeps', hstored⟩ := storeResult_settles hS hu' hmem
      refine ⟨r'.mapState fun w ↦ { w with pins := u.pins }, (Outcome.returns_mapState _ _).2 hr',
        ?_, fun A hA ↦ ?_⟩
      · rw [Outcome.state_mapState]
        exact hkeeps'.trans (.of_drifts (.pins _ _))
      · filter_upwards [hbody A hA, hstored A hA] with k hk hk'
        rw [hresult k _ hk (hA.read k), hk']
    cases r with
    | ok v u' =>
      refine hstore hkeeps (.ok v) (fun v' hv' ↦ ?_) fun k a hrun ha ↦ ?_
      · cases hv'
        exact hwithin.result n v u' hn
      · rw [Invocation.run] at hrun
        rw [invokeListener_of_ok (by rw [ha, hcall]), hrun]
        rfl
    | error e u' =>
      refine hstore hkeeps (.error e) (fun v' hv' ↦ nomatch hv') fun k a hrun ha ↦ ?_
      rw [Invocation.run] at hrun
      rw [invokeListener_of_ok (by rw [ha, hcall]), hrun]
      rfl
    | exhausted u' => exact hr.elim

include hS in
/-- The same with the failure of a listener reported. -/
theorem reporting_settles {owner : ObjectRef} {listener : String} {u : World} (hu : b.Keeps u)
    (hbody : ∀ f arguments, listenerCall? World.get? u owner listener = .ok (f, arguments) →
      Invocation.Ends ⟨owner, listener, f, arguments, u.pinned (f :: arguments)⟩ ∧
        Invocation.Within S ⟨owner, listener, f, arguments, u.pinned (f :: arguments)⟩) :
    ∃ u', b.Keeps u' ∧ ∀ A, Access.Approaches S b A → ∀ᶠ k in atTop,
      (reporting (invokeListener k (A k) owner listener) : Effect ObserverError Unit) u
        = .ok () u' := by
  obtain ⟨r, hr, hkeeps, hsettles⟩ := invokeListener_settles hS hu hbody
  cases r with
  | ok _ u' =>
    exact ⟨u', hkeeps, fun A hA ↦ (hsettles A hA).mono fun k hk ↦ by simp only [reporting, hk]⟩
  | error e u' =>
    exact ⟨u'.report e, hkeeps.trans (.of_drifts (.report e u')), fun A hA ↦
      (hsettles A hA).mono fun k hk ↦ by simp only [reporting, hk]⟩
  | exhausted u' => exact hr.elim

end Nested

/-- The observers of a write come to an end if the writes do that are made in the meantime. -/
theorem Call.observers_settle {S : Set Call} {c : Call}
    (hS : ∀ c' ∈ S, (c.world.begun c.object c.property c.value).Keeps c'.world → c'.Terminates)
    (hp : c.property ∉ (c.world.object c.object).notifying)
    (honly : (c.world.object c.object).OnlyListeners)
    (hbody : ∀ i, c.Invokes i → i.Ends ∧ i.Within S) (earlier later : List Observer)
    (hsplit : (c.world.object c.object).observersOf c.property = earlier ++ later) :
    ∃ u, (c.world.begun c.object c.property c.value).Keeps u ∧
      ∀ A, Access.Approaches S (c.world.begun c.object c.property c.value) A → ∀ᶠ k in atTop,
        (runObservers k (A k) c.value earlier : Effect ObserverError Unit)
          (c.world.begun c.object c.property c.value) = .ok () u := by
  induction earlier using List.reverseRecOn generalizing later with
  | nil => exact ⟨_, .refl _, fun _ _ ↦ .of_forall fun _ ↦ rfl⟩
  | append_singleton earlier observer ih =>
    rw [List.append_assoc, List.singleton_append] at hsplit
    obtain ⟨u, hu, hearlier⟩ := ih _ hsplit
    have hmem : observer ∈ (c.world.object c.object).observersOf c.property := by
      rw [hsplit]
      exact List.mem_append_right _ List.mem_cons_self
    obtain ⟨owner, name, rfl⟩ := honly c.property observer hmem
    have hlimit := Run.limit_eq (r := .ok () u) ⟨trivial, hearlier _ (Access.approaches_write S _)⟩
    obtain ⟨u', hu', hlast⟩ := reporting_settles hS hu fun f arguments hcall ↦
      hbody ⟨owner, name, f, arguments, u.pinned (f :: arguments)⟩
        ⟨hp, earlier, later, u, hsplit, hlimit, hcall, rfl⟩
    refine ⟨u', hu', fun A hA ↦ ?_⟩
    filter_upwards [hearlier A hA, hlast A hA] with k hk hk'
    rw [runObservers_append]
    exact (Run.bind_of_ok hk _).trans (Run.bind_of_ok hk' _)

/-! ## Termination -/

/-- A write settles on one outcome whenever there are more levels than there is room for nested
writes. -/
theorem Call.settles {S : Set Call}
    (honly : ∀ c ∈ S, c.world.Everywhere ReactiveObject.OnlyListeners)
    (hbody : ∀ c ∈ S, ∀ i, c.Invokes i → i.Ends ∧ i.Within S) {c : Call} (hc : c ∈ S) :
    ∃ r : Outcome World ObserverError Unit, r.Returns ∧
      ∀ levels, c.world.unguarded.length < levels → ∀ᶠ n in atTop,
        setWithin n World.get? levels c.object c.property c.value c.world = r := by
  induction hroom : c.world.unguarded.length using Nat.strong_induction_on generalizing c with
  | _ room ih =>
    subst hroom
    have hlevels {r : Outcome World ObserverError Unit}
        (h : ∀ m, c.world.unguarded.length ≤ m → ∀ᶠ n in atTop,
          setWith n ⟨World.get?, setWithin n World.get? m⟩
            c.object c.property c.value c.world = r) :
        ∀ levels, c.world.unguarded.length < levels → ∀ᶠ n in atTop,
          setWithin n World.get? levels c.object c.property c.value c.world = r := by
      intro levels hlt
      obtain ⟨m, rfl⟩ : ∃ m, levels = m + 1 := ⟨levels - 1, by omega⟩
      exact h m (by omega)
    by_cases hp : c.property ∈ (c.world.object c.object).notifying
    · exact ⟨.error (.cycle (c.world.object c.object).path c.property) c.world, trivial,
        hlevels fun m _ ↦ .of_forall fun n ↦ setWith_of_mem hp⟩
    by_cases hobs : (c.world.object c.object).observersOf c.property = []
    · exact ⟨.ok () (c.world.define c.object c.property c.value), trivial,
        hlevels fun m _ ↦ .of_forall fun n ↦ setWith_of_unobserved hp hobs⟩
    -- Writes that are made while the observers run have less room left.
    have hnested (c' : Call) (hc' : c' ∈ S)
        (hk : (c.world.begun c.object c.property c.value).Keeps c'.world) :
        c'.Terminates ∧ ∀ m, c.world.unguarded.length ≤ m → ∀ᶠ n in atTop,
          setWithin n World.get? m c'.object c'.property c'.value c'.world
            = World.write c'.object c'.property c'.value c'.world := by
      have hless : c'.world.unguarded.length < c.world.unguarded.length := by
        rw [hk.unguarded]
        exact World.length_unguarded_begun hp hobs c.value
      obtain ⟨r, hr, hsettles⟩ := ih _ hless hc' rfl
      obtain ⟨hterm, hwrite⟩ := Call.terminates_of_settles hr
        (hsettles c'.world.levels (Nat.lt_of_succ_lt c'.world.length_unguarded_lt_levels))
      exact ⟨hterm, fun m hm ↦ hwrite ▸ hsettles m (hless.trans_le hm)⟩
    obtain ⟨u, -, hobservers⟩ := Call.observers_settle (fun c' hc' hk ↦ (hnested c' hc' hk).1) hp
      (honly c hc c.object) (hbody c hc) _ [] (List.append_nil _).symm
    refine ⟨.ok () (u.ended c.object c.property c.world.pins), trivial, hlevels fun m hm ↦ ?_⟩
    have happroaches : Access.Approaches S (c.world.begun c.object c.property c.value)
        fun n ↦ ⟨World.get?, setWithin n World.get? m⟩ :=
      ⟨fun _ ↦ rfl, fun c' hc' hk ↦ (hnested c' hc' hk).2 m hm⟩
    exact (hobservers _ happroaches).mono fun n hn ↦ setWith_of_observed hp hobs hn

/-- Every write comes to an end, if every listener body does whose writes do. The writes that are
running observers at one time are writes of different properties, so there are no more of them than
properties with observers. The objects are those of a compiled frame in any state, and the writes
are any set out of which no nested write leads. -/
theorem World.writes_terminate {f : Frame} {w₀ w₁ : World} {root : ObjectRef}
    (h₀ : w₀.Everywhere ReactiveObject.OnlyListeners) (hf : compileObject f w₀ = .ok root w₁)
    {S : Set Call} (hwired : ∀ c ∈ S, w₁.SameWiring c.world)
    (hwithin : ∀ c ∈ S, ∀ i, c.Invokes i → i.Within S)
    (hends : ∀ c ∈ S, ∀ i, c.Invokes i → i.Ends) :
    ∀ c ∈ S, ∃ r : Outcome World ObserverError Unit, r.Returns ∧
      (∀ᶠ n in atTop, World.setBounded n c.object c.property c.value c.world = r) ∧
      ((∀ o, (c.world.object o).notifying = []) → ∀ᶠ n in atTop,
        setOnStack n (distinctAmong w₁.observedPlaces) c.world.levels [] c.object c.property
          c.value c.world = r) := by
  intro c hc
  have hcompiled : w₁.Everywhere ReactiveObject.OnlyListeners :=
    ((compileClosed_everywhere ReactiveObject.lasting_onlyListeners).compileObject f).of_ok h₀ hf
  have honly (c : Call) (hc : c ∈ S) : c.world.Everywhere ReactiveObject.OnlyListeners :=
    fun o p observer hobserver ↦ hcompiled o p observer
      (by rwa [← (hwired c hc).observersOf])
  obtain ⟨r, hr, hsettles⟩ := Call.settles honly
    (fun c hc i hi ↦ ⟨hends c hc i hi, hwithin c hc i hi⟩) hc
  have hset := hsettles c.world.levels (Nat.lt_of_succ_lt c.world.length_unguarded_lt_levels)
  refine ⟨r, hr, hset, fun hidle ↦ hset.mono fun n hn ↦ ?_⟩
  have hstacked : c.world.Stacked w₁.observedPlaces [] := {
    observed := (hwired c hc).observedPlaces
    guarded := fun x ↦ by rw [hidle]; exact iff_of_false List.not_mem_nil List.not_mem_nil
    nodup := List.nodup_nil
    subset := List.nil_subset _ }
  rw [setOnStack_eq hstacked (by rw [hn]; exact hr), hn]

/-! ## A listener that observes itself -/

section SelfObserving

open Script (Closure Stmt Scope Machine ScriptError)

/-- A frame with one listener, which yields what it observes: its own property. -/
def selfObserving : Frame :=
  ⟨"Frame", "app",
    [.function "y" 0 (.listener [⟨"y", ["self", "y"]⟩] (.scalar .bool) "return y;")]⟩

/-- The closure yields the value of a variable and does nothing else. -/
def yieldsVariable (name : String) (c : Closure) : Bool :=
  match c.function.body with
  | [.returnValue (some (.variable x))] => x == name
  | _ => false

/-- The listener observes itself, and its body yields a variable. -/
def observesItself (w : World) : Bool :=
  match (w.object ⟨0⟩).observersOf "y", (w.object ⟨0⟩).listener? "y" with
  | [.listener owner name], some (.closure ref) =>
    owner == ⟨0⟩ && name == "y" && (w.heap.closures[ref.index]?).any (yieldsVariable "y")
  | _, _ => false

theorem compileObject_selfObserving : ∃ w, compileObject selfObserving (World.create 256 16)
    = .ok ⟨0⟩ w ∧ observesItself w = true := by
  have h : (compileObject selfObserving (World.create 256 16)).okWith
      (fun root w ↦ root == ⟨0⟩ && observesItself w) = true := by
    decide +kernel
  obtain ⟨root, w, hcompile, h⟩ := Outcome.exists_of_okWith h
  rw [Bool.and_eq_true, beq_iff_eq] at h
  obtain ⟨rfl, hself⟩ := h
  exact ⟨w, hcompile, hself⟩

theorem of_observesItself {w : World} (h : observesItself w = true) :
    (w.object ⟨0⟩).observersOf "y" = [.listener ⟨0⟩ "y"] ∧
      ∃ ref c, (w.object ⟨0⟩).listener? "y" = some (.closure ref) ∧
        w.heap.closures[ref.index]? = some c ∧
        c.function.body = [.returnValue (some (.variable "y"))] := by
  unfold observesItself at h
  split at h
  · next owner name ref hobs hlistener =>
    simp only [Bool.and_eq_true, beq_iff_eq] at h
    obtain ⟨⟨rfl, rfl⟩, hany⟩ := h
    cases hc : w.heap.closures[ref.index]? with
    | none => simp [hc] at hany
    | some c =>
      rw [hc] at hany
      change yieldsVariable "y" c = true at hany
      unfold yieldsVariable at hany
      split at hany
      · next x hbody =>
        rw [beq_iff_eq] at hany
        exact ⟨hobs, ref, c, hlistener, hc, hany ▸ hbody⟩
      · cases hany
  · cases h

variable {σ : Type}

theorem execBlock_return (h : Host σ) (n : Nat) (scope : Scope) (x : String) (m : Machine σ) :
    Script.execBlock h (n + 5) scope [.returnValue (some (.variable x))] m
      = match m.heap.lookup x scope with
        | some v => .ok (.returned v) m
        | none => .error (.undefinedVariable x) m := by
  unfold Script.execBlock Script.execAll Script.exec Script.eval
  dsimp only
  change Run.bind (Run.bind (Script.readVariable x scope) _) _ m = _
  unfold Script.readVariable Run.bind
  dsimp only
  cases m.heap.lookup x scope <;> rfl

/-- Such a body takes no notice of the host. -/
theorem execBlock_return_congr (g h : Host σ) (n : Nat) (scope : Scope) (x : String) :
    Script.execBlock g n scope [.returnValue (some (.variable x))]
      = Script.execBlock h n scope [.returnValue (some (.variable x))] := by
  funext m
  match n with
  | 0 | 1 | 2 | 3 | 4 => rfl
  | n + 5 => rw [execBlock_return, execBlock_return]

section Call

variable {g h : Host σ} {ref : Script.ClosureRef} {m : Machine σ} {c : Closure} {x : String}
  (hc : m.heap.closures[ref.index]? = some c)
  (hbody : c.function.body = [.returnValue (some (.variable x))])

include hc hbody

theorem callClosure_congr_of_body (n : Nat) (arguments : List Value) :
    Script.callClosure g n ref arguments m = Script.callClosure h n ref arguments m := by
  cases n with
  | zero => rfl
  | succ n =>
    unfold Script.callClosure
    simp only [hc, hbody]
    split_ifs
    · rfl
    · rw [execBlock_return_congr g h]

theorem callValue_congr_of_body (n : Nat) (arguments : List Value) :
    Script.callValue g n (.closure ref) arguments m
      = Script.callValue h n (.closure ref) arguments m := by
  have hcall : Script.call g n (.closure ref) arguments m
      = Script.call h n (.closure ref) arguments m := by
    cases n with
    | zero => rfl
    | succ n =>
      unfold Script.call
      exact congrArg (Outcome.mapState _) (callClosure_congr_of_body
        (m := { m with pins := (Value.closure ref :: arguments).map .value ++ m.pins }) hc hbody n
        arguments)
  unfold Script.callValue Script.counted
  rw [hcall]

theorem callValue_returns_of_body (arguments : List Value) :
    (Script.callValue h 7 (.closure ref) arguments m).Returns := by
  have hclosure (m : Machine σ) (hc : m.heap.closures[ref.index]? = some c) :
      (Script.callClosure h 6 ref arguments m).Returns := by
    unfold Script.callClosure
    simp only [hc, hbody]
    split_ifs
    · trivial
    · have hexec (scope : Scope) (m : Machine σ) :
          (Script.execBlock h 5 scope [.returnValue (some (.variable x))] m).Returns := by
        rw [execBlock_return h 0]
        split <;> trivial
      exact (Run.returns_map _ _ _).2 <| (Outcome.returns_mapState _ _).2 <|
        (Outcome.returns_mapState _ _).2 (hexec _ _)
  have hcall : (Script.call h 7 (.closure ref) arguments m).Returns := by
    unfold Script.call
    dsimp only
    unfold Script.Machine.pinningValues Script.Machine.pinning
    rw [Outcome.returns_mapState]
    exact hclosure _ hc
  unfold Script.callValue Script.counted
  cases hrun : Script.call h 7 (.closure ref) arguments m with
  | exhausted m' => exact absurd (hrun ▸ hcall) (Outcome.not_returns_exhausted _)
  | _ => trivial

end Call

/-- A listener that only looks at a variable writes nothing. -/
theorem World.keeps_of_callValue_of_body {w u : World} {ref : Script.ClosureRef} {c : Closure}
    {x : String} (hc : w.heap.closures[ref.index]? = some c)
    (hbody : c.function.body = [.returnValue (some (.variable x))]) {n : Nat}
    {arguments : List Value} {v : Value}
    (hcall : Script.callValue World.writingHost n (.closure ref) arguments w = .ok v u) :
    w.Keeps u := by
  rw [callValue_congr_of_body (h := hostOf ⟨World.get?, fun _ _ _ ↦ Run.exhaust⟩) hc hbody] at hcall
  have hquiet : Access.Tracks w.Keeps ⟨World.get?, fun _ _ _ ↦ Run.exhaust⟩
      fun _ ↦ ⟨World.get?, fun _ _ _ ↦ Run.exhaust⟩ :=
    ⟨fun _ _ _ _ ↦ .of_forall fun _ ↦ rfl, fun _ _ _ ↦ .exhaust⟩
  have htracks := Script.tracks_callValue (n := n) (b := fun _ ↦ n)
    (driftClosed_keeps w).growthClosed (hquiet.host (driftClosed_keeps w))
    (.of_forall fun _ ↦ le_rfl) (.closure ref) arguments
  exact (htracks.of_ok (.refl _) hcall).1

theorem invokes_of_observersOf {c : Call} {owner : ObjectRef} {name : String}
    (hobs : (c.world.object c.object).observersOf c.property = [.listener owner name])
    {i : Invocation} (hi : c.Invokes i) :
    i.owner = owner ∧ i.listener = name ∧
      (c.world.object owner).listener? name = some i.callable ∧
      i.world = (c.world.begun c.object c.property c.value).pinned (i.callable :: i.arguments) := by
  obtain ⟨-, earlier, later, u, hsplit, hlimit, hcall, hworld⟩ := hi
  rw [hobs] at hsplit
  cases earlier with
  | cons _ earlier => exact absurd (List.cons.inj hsplit).2.symm (by simp)
  | nil =>
    obtain ⟨hlistener, -⟩ := List.cons.inj hsplit
    cases hlistener
    have hu := hlimit.symm.trans (Run.limit_const (pure ()) trivial)
    cases hu
    refine ⟨rfl, rfl, ?_, hworld⟩
    rw [← listener?_of_listenerCall? hcall]
    have hwiring := (c.world.sameWiring_begun c.object c.property c.value).wiring i.owner
    exact (congrArg (fun o : ReactiveObject ↦ o.listener? i.listener) hwiring).symm

/-- The listener that observes itself ends, although it writes what it observes. -/
theorem World.writes_terminate_selfObserving :
    ∃ w, compileObject selfObserving (World.create 256 16) = .ok ⟨0⟩ w ∧
      ∃ r : Outcome World ObserverError Unit, r.Returns ∧
        (∀ᶠ n in atTop, World.setBounded n ⟨0⟩ "y" (.bool true) w = r) ∧
        ∀ᶠ n in atTop, setOnStack n (distinctAmong w.observedPlaces) w.levels [] ⟨0⟩ "y"
          (.bool true) w = r := by
  obtain ⟨w, hf, hself⟩ := compileObject_selfObserving
  obtain ⟨hobs, ref, c, hlistener, hc, hbody⟩ := of_observesItself hself
  refine ⟨w, hf, ?_⟩
  -- The write of the host, and those of the listener, which are refused.
  let start : Call := ⟨⟨0⟩, "y", .bool true, w⟩
  let S : Set Call := {d | w.SameWiring d.world ∧
    (d = start ∨ d.property ∈ (d.world.object d.object).notifying)}
  have hinvokes (d : Call) (hd : d ∈ S) (i : Invocation) (hi : d.Invokes i) :
      i.owner = ⟨0⟩ ∧ i.listener = "y" ∧ i.callable = .closure ref ∧
        i.world = (w.begun ⟨0⟩ "y" (.bool true)).pinned (i.callable :: i.arguments) := by
    rcases hd.2 with rfl | hguarded
    · obtain ⟨howner, hname, hcallable, hworld⟩ := invokes_of_observersOf hobs hi
      exact ⟨howner, hname, Option.some.inj (hcallable.symm.trans hlistener), hworld⟩
    · exact absurd hguarded hi.1
  have hrun (d : Call) (hd : d ∈ S) (i : Invocation) (hi : d.Invokes i) (h : Host ObjectGraph)
      (n : ℕ) : i.run h n = Script.callValue h n (.closure ref) i.arguments i.world ∧
        i.world.heap.closures[ref.index]? = some c := by
    obtain ⟨-, -, hcallable, hworld⟩ := hinvokes d hd i hi
    exact ⟨by rw [Invocation.run, hcallable], by rw [hworld]; exact hc⟩
  have hends (d : Call) (hd : d ∈ S) (i : Invocation) (hi : d.Invokes i) : i.Ends := by
    obtain ⟨hcall, hclosure⟩ := hrun d hd i hi (World.stoppingHost .callDepth) 7
    exact ⟨.callDepth, 7, by rw [hcall]; exact callValue_returns_of_body hclosure hbody _⟩
  have hwithin (d : Call) (hd : d ∈ S) (i : Invocation) (hi : d.Invokes i) : i.Within S := by
    obtain ⟨howner, hname, -, hworld⟩ := hinvokes d hd i hi
    refine ⟨fun n h _ _ _ _ ↦ ?_, fun n v u hyield ↦ ?_⟩
    · obtain ⟨hcall, hclosure⟩ := hrun d hd i hi h n
      change i.run h n = i.run World.writingHost n
      rw [hcall, (hrun d hd i hi World.writingHost n).1]
      exact callValue_congr_of_body hclosure hbody n _
    · have hguarded : "y" ∈ ((w.begun ⟨0⟩ "y" (.bool true)).object ⟨0⟩).notifying := by
        have hsize : 0 < w.host.objects.size :=
          World.lt_size_of_observersOf (o := ⟨0⟩) (p := "y") (by rw [hobs]; exact nofun)
        rw [World.notifying_begun, if_pos ⟨rfl, hsize⟩]
        exact List.mem_cons_self
      have hkeeps : i.world.Keeps u := by
        obtain ⟨hcall, hclosure⟩ := hrun d hd i hi World.writingHost n
        exact World.keeps_of_callValue_of_body hclosure hbody (hcall.symm.trans hyield)
      rw [hworld] at hkeeps
      have hlater : (w.begun ⟨0⟩ "y" (.bool true)).Keeps { u with failures := 0 } :=
        ((World.Keeps.of_drifts (World.drifts_pinned _ _)).trans hkeeps).trans
          (.of_drifts ⟨rfl, rfl, rfl, rfl, .refl _⟩)
      refine ⟨(w.sameWiring_begun _ _ _).trans hlater.toSameWiring, .inr ?_⟩
      rw [howner, hname, hlater.notifying]
      exact hguarded
  have hempty : (World.create 256 16).Everywhere ReactiveObject.OnlyListeners :=
    fun _ _ _ h ↦ nomatch h
  obtain ⟨r, hr, hset, hstack⟩ := World.writes_terminate (S := S) hempty hf (fun d hd ↦ hd.1)
    hwithin hends start ⟨.refl w, .inl rfl⟩
  refine ⟨r, hr, hset, hstack fun o ↦ ?_⟩
  exact ((compileClosed_everywhere ReactiveObject.lasting_unguarded).compileObject
    selfObserving).of_ok (s := World.create 256 16) (fun _ ↦ rfl) hf o

end SelfObserving

end ReactiveFrames
