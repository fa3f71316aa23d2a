import ReactiveFrames.Proofs.Reactive.ObjectTree

/-!
# Notifications

A write that is not refused stores its value and then runs the observers of the property. If these
are listeners, each of them is invoked once, in the order in which they were added, and the next one
is invoked whether or not the one before has failed (`World.Notified`). An invocation that fails is
reported once, and has no result.

An invocation fails before its body is called, because of what its body does, or because its result
is refused. Whatever the body has written by then has taken effect at once, with all that follows
from it, and nothing of it is taken back. So what a failed invocation leaves is what the call of its
body has left (`World.invoke_cases_of_error`), and a property has its old value if no write of it
was made during the call, neither by the body nor by a listener that was run because of it
(`World.get?_of_spares`).

## Main definitions

* `World.Notified`: listeners are invoked one after the other, and failures are reported.
* `setSparing`: a write that gives up rather than write a certain property.
* `World.Spares`: the call of the body of a listener comes to its end without a write of a property.

## Main statements

* `World.notified_of_set`: what a write does that is not refused.
* `World.ripples`: the body of a listener that fails writes one property, and another one changes.
-/

open Filter

namespace ReactiveFrames

open Script (Value Host)

/-! ## Notifications -/

namespace World

/-- The listeners are invoked one after the other. If an invocation fails, then this is reported,
and the next listener has its turn. -/
inductive Notified : List Place → World → World → Prop
  | done (w : World) : Notified [] w w
  | stored {y : Place} {ys : List Place} {w u w' : World} (h : invoke y.1 y.2 w = .ok () u)
    (hrest : Notified ys u w') : Notified (y :: ys) w w'
  | failed {y : Place} {ys : List Place} {w u w' : World} {e : ObserverError}
    (h : invoke y.1 y.2 w = .error e u) (hrest : Notified ys (u.report e) w') :
    Notified (y :: ys) w w'

section Levels

variable {b w w' : World} {levels : Nat}

theorem guardClosed_sameWiring (b : World) : GuardClosed b.SameWiring where
  keeps _ _ hk hw := hw.trans hk.toSameWiring
  begun w o p v _ hw := hw.trans (w.sameWiring_begun o p v)

/-- A write with fewer levels that returns is the write. -/
theorem tracks_set (hlevels : levels ≤ b.levels) (o : ObjectRef) (p : String) (v : Value) :
    Run.Tracks b.SameWiring (setWithin stepBound get? levels o p v) fun _ ↦ World.set o p v := by
  intro w hw hr
  obtain ⟨hsame, heq⟩ := tracks_setWithin (guardClosed_sameWiring b) (R := fun _ ↦ get?)
    (fun _ _ _ _ ↦ .of_forall fun _ ↦ rfl) (b := fun _ ↦ stepBound) (.of_forall fun _ ↦ le_rfl)
    (l := fun _ ↦ b.levels) (.of_forall fun _ ↦ hlevels) o p v w hw hr
  have hset : World.set o p v w = setWithin stepBound get? b.levels o p v w := by
    rw [← hw.levels]
    rfl
  exact ⟨hsame, heq.mono fun _ h ↦ hset.trans h⟩

/-- The invocation of a listener by an observed write is the invocation. -/
theorem invokeListener_eq_invoke (hlevels : levels ≤ w.levels) {y : Place}
    (hr : (invokeListener stepBound ⟨get?, setWithin stepBound get? levels⟩ y.1 y.2 w).Returns) :
    invokeListener stepBound ⟨get?, setWithin stepBound get? levels⟩ y.1 y.2 w
      = invoke y.1 y.2 w := by
  have haccess : (⟨get?, setWithin stepBound get? levels⟩ : Access).Tracks w.SameWiring
      fun _ ↦ access :=
    ⟨fun _ _ _ _ ↦ .of_forall fun _ ↦ rfl, fun o p v ↦ tracks_set hlevels o p v⟩
  have htracks := tracks_invokeListener (guardClosed_sameWiring w).driftClosed haccess
    (b := fun _ ↦ stepBound) (.of_forall fun _ ↦ le_rfl) y.1 y.2
  exact (htracks.eq_of_returns (.refl w) hr).2.symm

theorem sameWiring_of_invoke {y : Place} (hr : (invoke y.1 y.2 w).Returns) :
    w.SameWiring (invoke y.1 y.2 w).state :=
  (tracks_invokeListener (writeClosed_sameWiring w).drifts (writeClosed_sameWiring w).access
    (b := fun _ ↦ stepBound) (.of_forall fun _ ↦ le_rfl) y.1 y.2 w (.refl w) hr).1

/-- Running listeners as observers notifies them. -/
theorem notified_of_runObservers {ε : Type} {v : Value} {ys : List Place}
    (hlevels : levels ≤ w.levels)
    (h : (runObservers stepBound ⟨get?, setWithin stepBound get? levels⟩ v
      (ys.map fun y ↦ .listener y.1 y.2) : Effect ε Unit) w = .ok () w') : Notified ys w w' := by
  induction ys generalizing w with
  | nil =>
    cases h
    exact .done w'
  | cons y ys ih =>
    obtain ⟨_, u, hfire, hrest⟩ := Run.bind_eq_ok.1 h
    have hinvoke := invokeListener_eq_invoke (y := y) hlevels
    have hwiring (hr : (invoke y.1 y.2 w).Returns) := (sameWiring_of_invoke hr).levels
    obtain hrun | ⟨e, u', hrun, rfl⟩ := reporting_eq_ok.1 hfire
    · rw [hrun] at hinvoke
      rw [← hinvoke trivial] at hwiring
      exact .stored (hinvoke trivial).symm (ih (hlevels.trans (hwiring trivial).ge) hrest)
    · rw [hrun] at hinvoke
      rw [← hinvoke trivial] at hwiring
      have hreport : (u'.report e).levels = u'.levels :=
        (SameWiring.of_objects (Drifts.report e u').objects).levels
      exact .failed (hinvoke trivial).symm
        (ih (hlevels.trans (hreport.trans (hwiring trivial)).ge) hrest)

end Levels

/-! ## Invocations that fail -/

section Failures

variable {w u : World} {e : ObserverError}

/-- A write that fails does nothing. -/
theorem eq_of_set_error {o : ObjectRef} {p : String} {v : Value} (h : set o p v w = .error e u) :
    u = w := by
  obtain ⟨n, hn⟩ : ∃ n, w.levels = n + 1 := ⟨_, rfl⟩
  rw [set, setBounded, hn, setWithin] at h
  rcases setWith_cases h trivial with ⟨-, heq⟩ | ⟨-, -, heq⟩ | ⟨-, -, w', -, heq⟩
  · cases heq
    rfl
  · cases heq
  · cases heq

/-- A result that is not stored changes nothing. -/
theorem eq_of_storeResult_error {owner : ObjectRef} {listener : String}
    {result : Except Script.ScriptError Value}
    (h : storeResult access.write owner listener result w = .error e u) :
    u = { w with failures := 0 } := by
  cases result with
  | error cause =>
    cases h
    rfl
  | ok v =>
    cases v with
    | undefined =>
      cases h
      rfl
    | _ => exact eq_of_set_error (w := { w with failures := 0 }) h

/-- An invocation that fails has left everything as it was, or as the call of the body has
left it. -/
theorem invoke_cases_of_error {y : Place} (h : invoke y.1 y.2 w = .error e u) :
    (listenerCall? get? w y.1 y.2 = .error e ∧ u = w) ∨
      ∃ f arguments, listenerCall? get? w y.1 y.2 = .ok (f, arguments) ∧
        (call f arguments (w.pinned (f :: arguments))).Returns ∧
        u = { (call f arguments (w.pinned (f :: arguments))).state with
          failures := 0, pins := w.pins } := by
  cases hcall : listenerCall? get? w y.1 y.2 with
  | error cause =>
    rw [invoke, invokeListener_of_error (a := access) hcall] at h
    cases h
    exact .inl ⟨rfl, rfl⟩
  | ok call =>
    obtain ⟨f, arguments⟩ := call
    refine .inr ⟨f, arguments, rfl, ?_⟩
    have hstored {result : Except Script.ScriptError Value} {s : World}
        (hs : (storeResult access.write y.1 y.2 result s).mapState
          (fun w' ↦ { w' with pins := w.pins }) = .error e u) :
        u = { s with failures := 0, pins := w.pins } := by
      cases hstore : storeResult access.write y.1 y.2 result s with
      | error cause s' =>
        rw [hstore] at hs
        cases hs
        rw [eq_of_storeResult_error hstore]
      | ok _ s' =>
        rw [hstore] at hs
        cases hs
      | exhausted s' =>
        rw [hstore] at hs
        cases hs
    rw [invoke, invokeListener_of_ok (a := access) hcall] at h
    change _ ∧ _ = { (Script.callValue scriptHost stepBound f arguments _).state with
      failures := 0, pins := w.pins }
    unfold World.call
    cases hrun : Script.callValue scriptHost stepBound f arguments (w.pinned (f :: arguments)) with
    | ok v s =>
      change Script.callValue (hostOf access) stepBound f arguments _ = _ at hrun
      rw [hrun] at h
      exact ⟨trivial, hstored h⟩
    | error cause s =>
      change Script.callValue (hostOf access) stepBound f arguments _ = _ at hrun
      rw [hrun] at h
      exact ⟨trivial, hstored h⟩
    | exhausted s =>
      change Script.callValue (hostOf access) stepBound f arguments _ = _ at hrun
      rw [hrun] at h
      cases h

end Failures

end World

/-! ## Properties that are not written -/

/-- Sets a property as `setWithin` does, and gives up rather than write the property `x`. A write of
it that is refused is none. -/
def setSparing (x : Place) (bound : Nat) : Nat → Writer
  | 0 => fun _ _ _ ↦ Run.exhaust
  | levels + 1 => fun o property value w ↦
    if (o, property) = x ∧ property ∉ (World.object w o).notifying then .exhausted w
    else setWith bound ⟨World.get?, setSparing x bound levels⟩ o property value w

theorem setSparing_succ (x : Place) (bound levels : Nat) (o : ObjectRef) (p : String) (v : Value)
    (w : World) : setSparing x bound (levels + 1) o p v w =
      if (o, p) = x ∧ p ∉ (w.object o).notifying then .exhausted w
      else setWith bound ⟨World.get?, setSparing x bound levels⟩ o p v w :=
  rfl

/-- What scripts reach, except that a script gives up rather than write a property other than
`x`. -/
def onlyWriting (x : Place) (host : Host ObjectGraph) : Host ObjectGraph where
  read := host.read
  write ref p v := if (⟨ref.index⟩, p) = x then host.write ref p v else Run.exhaust
  call := host.call

namespace World

/-- The body of the listener `y`, if it is called, comes to its end without a write of `x`: neither
it nor a listener that is run meanwhile writes `x`. -/
def Spares (w : World) (y x : Place) : Prop :=
  ∀ f arguments, listenerCall? get? w y.1 y.2 = .ok (f, arguments) →
    (Script.callValue (hostOf ⟨get?, setSparing x stepBound w.levels⟩) stepBound f arguments
      (w.pinned (f :: arguments))).Returns

section Spares

variable {w : World} {x : Place}

/-- A write that does not give up is the write, and the property has its old value. -/
theorem tracks_setSparing (x : Place) (a : Option Value) (levels : Nat) (o : ObjectRef) (p : String)
    (v : Value) : Run.Tracks (fun w ↦ w.get? x.1 x.2 = a) (setSparing x stepBound levels o p v)
      fun _ ↦ setWithin stepBound get? levels o p v := by
  induction levels generalizing o p v with
  | zero => exact .exhaust
  | succ levels ih =>
    intro w hw hr
    rw [setSparing_succ] at hr ⊢
    split_ifs at hr ⊢ with hx
    · exact hr.elim
    rcases setWith_cases rfl hr with ⟨hp, h⟩ | ⟨hp, hobs, h⟩ | ⟨hp, hobs, u, hrun, h⟩
    · rw [h]
      exact ⟨hw, .of_forall fun _ ↦ setWith_of_mem hp⟩
    · have hne : ¬(x.1 = o ∧ x.2 = p ∧ o.index < w.host.objects.size) := fun hand ↦
        hx ⟨(Prod.ext hand.1 hand.2.1).symm, hp⟩
      rw [h]
      refine ⟨?_, .of_forall fun _ ↦ setWith_of_unobserved hp hobs⟩
      change (w.define o p v).get? x.1 x.2 = a
      rw [get?_define, if_neg hne, hw]
    · have hne : ¬(x.1 = o ∧ x.2 = p ∧ o.index < w.host.objects.size) := fun hand ↦
        hx ⟨(Prod.ext hand.1 hand.2.1).symm, hp⟩
      have hdrift : DriftClosed fun w : World ↦ w.get? x.1 x.2 = a := fun _ _ hd hu ↦
        (hd.get? _ _).trans hu
      have haccess : (⟨get?, setSparing x stepBound levels⟩ : Access).Tracks
          (fun w ↦ w.get? x.1 x.2 = a) fun _ ↦ ⟨get?, setWithin stepBound get? levels⟩ :=
        ⟨fun _ _ _ _ ↦ .of_forall fun _ ↦ rfl, ih⟩
      have hbegun : (w.begun o p v).get? x.1 x.2 = a := by rw [get?_begun, if_neg hne, hw]
      obtain ⟨hu, heq⟩ := (tracks_runObservers (n := stepBound) (b := fun _ ↦ stepBound)
        (ε := ObserverError) hdrift haccess (.of_forall fun _ ↦ le_rfl) v
        ((w.object o).observersOf p)).of_ok hbegun hrun
      rw [h]
      refine ⟨?_, heq.mono fun _ h ↦ setWith_of_observed hp hobs h⟩
      exact (get?_stopNotifying { u with pins := w.pins } o x.1 p x.2).trans hu

/-- A call that comes to its end without a write of a property leaves its value. -/
theorem get?_of_callValue {f : Value} {arguments : List Value}
    (hr : (Script.callValue (hostOf ⟨get?, setSparing x stepBound w.levels⟩) stepBound f arguments
      w).Returns) : (call f arguments w).state.get? x.1 x.2 = w.get? x.1 x.2 := by
  let I (u : World) : Prop := w.SameWiring u ∧ u.get? x.1 x.2 = w.get? x.1 x.2
  have hdrift : DriftClosed I := fun _ _ hd hu ↦
    ⟨hu.1.trans (.of_objects hd.objects), (hd.get? _ _).trans hu.2⟩
  have haccess : (⟨get?, setSparing x stepBound w.levels⟩ : Access).Tracks I fun _ ↦ access := by
    refine ⟨fun _ _ _ _ ↦ .of_forall fun _ ↦ rfl, fun o p v u hu hr ↦ ?_⟩
    -- A write that spares `x` is the write with as many levels, and this one is the script's own.
    obtain ⟨hget, hwithin⟩ := (tracks_setSparing x _ w.levels o p v).eq_of_returns hu.2 hr
    obtain ⟨hwiring, hset⟩ := (tracks_set le_rfl o p v).eq_of_returns hu.1 (hwithin ▸ hr)
    rw [hwithin] at hwiring hset
    exact ⟨⟨hwiring, hget⟩, .of_forall fun _ ↦ hset⟩
  have htracks := Script.tracks_callValue hdrift.growthClosed (haccess.host hdrift)
    (b := fun _ ↦ stepBound) (.of_forall fun _ ↦ le_rfl) f arguments
  obtain ⟨hstate, hcall⟩ := htracks.eq_of_returns ⟨.refl w, rfl⟩ hr
  exact (congrArg (fun r ↦ World.get? (Outcome.state r) x.1 x.2) hcall).trans hstate.2

/-- An invocation that fails leaves every property that its call spares. -/
theorem get?_of_spares {u : World} {y : Place} {e : ObserverError}
    (h : invoke y.1 y.2 w = .error e u) (hspares : w.Spares y x) :
    u.get? x.1 x.2 = w.get? x.1 x.2 := by
  rcases invoke_cases_of_error h with ⟨-, rfl⟩ | ⟨f, arguments, hcall, -, rfl⟩
  · rfl
  · exact get?_of_callValue (hspares f arguments hcall)

end Spares

/-- A call that comes to its end without a write of a property other than `x` makes writes of `x`
only. -/
theorem makesOnly_of_callValue {host : Host ObjectGraph} {x : Place} {f : Value}
    {arguments : List Value} {w : World}
    (hr : (Script.callValue (onlyWriting x host) stepBound f arguments w).Returns) :
    MakesOnly {c | (c.object, c.property) = x} host
      fun h ↦ Script.callValue h stepBound f arguments w := by
  intro h hread hcall hwrite _
  -- The two hosts are not compared with each other, but each with the one that gives up.
  have hagrees (h' : Host ObjectGraph) (hread' : h'.read = host.read) (hcall' : h'.call = host.call)
      (hwrite' : ∀ ref p v u, (⟨ref.index⟩, p) = x → h'.write ref p v u = host.write ref p v u) :
      Script.callValue h' stepBound f arguments w
        = Script.callValue (onlyWriting x host) stepBound f arguments w := by
    have htracks : (onlyWriting x host).Tracks (fun _ ↦ True) fun _ ↦ h' := by
      refine ⟨fun u _ ref p ↦ .of_forall fun _ ↦ congrFun (congrFun (congrFun hread' ref) p) u,
        fun ref p v u _ hr' ↦ ⟨trivial, .of_forall fun _ ↦ ?_⟩,
        fun ref arguments ↦ hcall' ▸ .of_preserves fun _ _ ↦ trivial⟩
      change (ite _ _ _ : Script.Action ObjectGraph Unit) u |>.Returns at hr'
      change _ = (ite _ _ _ : Script.Action ObjectGraph Unit) u
      split_ifs at hr' ⊢ with hx
      · exact hwrite' ref p v u hx
      · exact hr'.elim
    exact ((Script.tracks_callValue (fun _ _ _ _ ↦ trivial) htracks (b := fun _ ↦ stepBound)
      (.of_forall fun _ ↦ le_rfl) f arguments).eq_of_returns trivial hr).2
  exact (hagrees h hread hcall hwrite).trans (hagrees host rfl rfl fun _ _ _ _ _ ↦ rfl).symm

/-! ## Writes -/

/-- A write that is not refused invokes each of the listeners that observe the property once and in
order, whichever of them fail, and reports each failure once. An invocation that fails leaves
everything as it was, or as the call of the body has left it, and it leaves every property which is
not written meanwhile. -/
theorem notified_of_set {o : ObjectRef} {p : String} {v : Value} {w w' : World} {ys : List Place}
    (hobservers : (w.object o).observersOf p = ys.map fun y ↦ .listener y.1 y.2)
    (h : set o p v w = .ok () w') :
    ((ys = [] ∧ w' = w.define o p v) ∨
        ∃ u, Notified ys (w.begun o p v) u ∧ w' = u.ended o p w.pins) ∧
      ∀ y b e u, invoke y.1 y.2 b = .error e u →
        ((listenerCall? get? b y.1 y.2 = .error e ∧ u = b) ∨
          ∃ f arguments, listenerCall? get? b y.1 y.2 = .ok (f, arguments) ∧
            u.host = (call f arguments (b.pinned (f :: arguments))).state.host) ∧
        ∀ x, b.Spares y x → u.get? x.1 x.2 = b.get? x.1 x.2 := by
  refine ⟨?_, fun y b e u hfails ↦ ⟨?_, fun x hx ↦ get?_of_spares hfails hx⟩⟩
  · obtain ⟨n, hn⟩ : ∃ n, w.levels = n + 1 := ⟨_, rfl⟩
    rw [set, setBounded, hn, setWithin] at h
    rcases setWith_cases h trivial with ⟨-, heq⟩ | ⟨-, hobs, heq⟩ | ⟨-, -, u, hrun, heq⟩
    · cases heq
    · cases heq
      exact .inl ⟨List.map_eq_nil_iff.1 (hobservers.symm.trans hobs), rfl⟩
    · cases heq
      rw [hobservers] at hrun
      refine .inr ⟨u, notified_of_runObservers ?_ hrun, rfl⟩
      rw [(w.sameWiring_begun o p v).levels, hn]
      exact Nat.le_succ n
  · rcases invoke_cases_of_error hfails with hsame | ⟨f, arguments, hcall, -, rfl⟩
    · exact .inl hsame
    · exact .inr ⟨f, arguments, hcall, rfl⟩

/-! ## A failure that changes another property -/

section Rippling

/-- A frame with a listener that writes `x` and then fails. Another one follows `x`. -/
def rippling : Frame :=
  ⟨"Object", "root",
    [.property "x" 0 (.scalar .bool) (.scalar (.bool false)),
     .property "t" 0 (.scalar .bool) (.scalar (.bool false)),
     .function "y" 0 (.listener [⟨"x", ["self", "x"]⟩] (.scalar .bool) "return x;"),
     .function "bad" 0 (.listener [⟨"t", ["self", "t"]⟩] (.scalar .bool)
       "if (t) \x7b self.x = true; throw \"no\"; \x7d return t;"),
     .function "good" 0 (.listener [⟨"t", ["self", "t"]⟩] (.scalar .bool) "return t;")]⟩

/-- The property has the truth value. -/
def isBool (b : Bool) : Option Value → Bool
  | some (.bool c) => b == c
  | _ => false

theorem eq_of_isBool {b : Bool} {v : Option Value} (h : isBool b v = true) :
    v = some (.bool b) := by
  unfold isBool at h
  split at h
  · rw [beq_iff_eq.1 h]
  · cases h

/-- The observers of `t` are `bad` and `good`. If it is set, then `bad` fails after a write of `x`
only, and `y` has changed. Nothing has written `good`. -/
def isRippling (w : World) : Bool :=
  let b := w.begun ⟨0⟩ "t" (.bool true)
  ((w.object ⟨0⟩).observersOf "t").map Observer.place? == [some (⟨0⟩, "bad"), some (⟨0⟩, "good")] &&
    (set ⟨0⟩ "t" (.bool true) w).okWith (fun _ _ ↦ true) &&
    Except.okWith (fun c ↦
      (Script.callValue (onlyWriting (⟨0⟩, "x") scriptHost) stepBound c.1 c.2
        (b.pinned (c.1 :: c.2))).errorWith (fun _ _ ↦ true) &&
      (Script.callValue (hostOf ⟨get?, setSparing (⟨0⟩, "good") stepBound b.levels⟩) stepBound
        c.1 c.2 (b.pinned (c.1 :: c.2))).errorWith (fun _ _ ↦ true))
      (listenerCall? get? b ⟨0⟩ "bad") &&
    (invoke ⟨0⟩ "bad" b).errorWith (fun _ u ↦
      isBool false (b.get? ⟨0⟩ "y") && isBool true (u.get? ⟨0⟩ "y"))

theorem compileObject_rippling : ∃ w,
    compileObject rippling (World.create 256 16) = .ok ⟨0⟩ w ∧ isRippling w = true := by
  have h : (compileObject rippling (World.create 256 16)).okWith
      (fun root w ↦ root == ⟨0⟩ && isRippling w) = true := by
    decide +kernel
  obtain ⟨root, w, hcompile, h⟩ := Outcome.exists_of_okWith h
  rw [Bool.and_eq_true, beq_iff_eq] at h
  obtain ⟨rfl, hw⟩ := h
  exact ⟨w, hcompile, hw⟩

theorem of_isRippling {w b : World} (hw : isRippling w = true)
    (hb : b = w.begun ⟨0⟩ "t" (.bool true)) :
    (w.object ⟨0⟩).observersOf "t" =
        [(⟨0⟩, "bad"), (⟨0⟩, "good")].map (fun y : Place ↦ .listener y.1 y.2) ∧
      (∃ w', set ⟨0⟩ "t" (.bool true) w = .ok () w') ∧
      (∃ f arguments, listenerCall? get? b ⟨0⟩ "bad" = .ok (f, arguments) ∧
        MakesOnly {c | (c.object, c.property) = (⟨0⟩, "x")} scriptHost
          (fun h ↦ Script.callValue h stepBound f arguments (b.pinned (f :: arguments))) ∧
        b.Spares (⟨0⟩, "bad") (⟨0⟩, "good")) ∧
      ∃ e u, invoke ⟨0⟩ "bad" b = .error e u ∧
        b.get? ⟨0⟩ "y" = some (.bool false) ∧ u.get? ⟨0⟩ "y" = some (.bool true) := by
  subst hb
  simp only [isRippling, Bool.and_eq_true, beq_iff_eq] at hw
  obtain ⟨⟨⟨hobservers, hset⟩, hcall⟩, hinvoke⟩ := hw
  obtain ⟨_, w', hset, -⟩ := Outcome.exists_of_okWith hset
  obtain ⟨⟨f, arguments⟩, hcall, hc⟩ := Except.exists_of_okWith hcall
  rw [Bool.and_eq_true] at hc
  obtain ⟨_, _, honly, -⟩ := Outcome.exists_of_errorWith hc.1
  obtain ⟨_, _, hspares, -⟩ := Outcome.exists_of_errorWith hc.2
  obtain ⟨e, u, hinvoke, hy⟩ := Outcome.exists_of_errorWith hinvoke
  rw [Bool.and_eq_true] at hy
  refine ⟨Observer.eq_map_listener hobservers, ⟨w', hset⟩, ⟨f, arguments, hcall,
    makesOnly_of_callValue (honly ▸ trivial), fun f' arguments' hcall' ↦ ?_⟩, e, u, hinvoke,
    eq_of_isBool hy.1, eq_of_isBool hy.2⟩
  cases hcall.symm.trans hcall'
  rw [hspares]
  trivial

/-- Both listeners of `t` have their turn, and that of `bad`, which fails, leaves `good` as it
is. -/
theorem notified_of_set_rippling : ∃ w w' u,
    compileObject rippling (World.create 256 16) = .ok ⟨0⟩ w ∧
      set ⟨0⟩ "t" (.bool true) w = .ok () w' ∧
      Notified [(⟨0⟩, "bad"), (⟨0⟩, "good")] (w.begun ⟨0⟩ "t" (.bool true)) u ∧
      w' = u.ended ⟨0⟩ "t" w.pins ∧
      ∃ e u', invoke ⟨0⟩ "bad" (w.begun ⟨0⟩ "t" (.bool true)) = .error e u' ∧
        u'.get? ⟨0⟩ "good" = (w.begun ⟨0⟩ "t" (.bool true)).get? ⟨0⟩ "good" := by
  obtain ⟨w, hcompile, hw⟩ := compileObject_rippling
  obtain ⟨hobservers, ⟨w', hset⟩, ⟨_, _, -, -, hspares⟩, e, u', hinvoke, -, -⟩ :=
    of_isRippling hw rfl
  obtain ⟨hnotified, hfailed⟩ := notified_of_set hobservers hset
  rcases hnotified with ⟨hnil, -⟩ | ⟨u, hnotified, rfl⟩
  · cases hnil
  · exact ⟨w, _, u, hcompile, hset, hnotified, rfl, e, u', hinvoke,
      (hfailed (⟨0⟩, "bad") _ e u' hinvoke).2 (⟨0⟩, "good") hspares⟩

/-- If `t` is set, then the call of the body of `bad` writes `x` only, and its invocation fails. Yet
it has changed `y`, which follows `x`. -/
theorem ripples : ∃ w w' f arguments e u,
    compileObject rippling (World.create 256 16) = .ok ⟨0⟩ w ∧
      set ⟨0⟩ "t" (.bool true) w = .ok () w' ∧
      (w.object ⟨0⟩).observersOf "t" = [.listener ⟨0⟩ "bad", .listener ⟨0⟩ "good"] ∧
      listenerCall? get? (w.begun ⟨0⟩ "t" (.bool true)) ⟨0⟩ "bad" = .ok (f, arguments) ∧
      MakesOnly {c | (c.object, c.property) = (⟨0⟩, "x")} scriptHost
        (fun h ↦ Script.callValue h stepBound f arguments
          ((w.begun ⟨0⟩ "t" (.bool true)).pinned (f :: arguments))) ∧
      invoke ⟨0⟩ "bad" (w.begun ⟨0⟩ "t" (.bool true)) = .error e u ∧
      (w.begun ⟨0⟩ "t" (.bool true)).get? ⟨0⟩ "y" = some (.bool false) ∧
      u.get? ⟨0⟩ "y" = some (.bool true) := by
  obtain ⟨w, hcompile, hw⟩ := compileObject_rippling
  obtain ⟨hobservers, ⟨w', hset⟩, ⟨f, arguments, hcall, honly, -⟩, e, u, hinvoke, hbefore,
    hafter⟩ := of_isRippling hw rfl
  exact ⟨w, w', f, arguments, e, u, hcompile, hset, hobservers, hcall, honly, hinvoke, hbefore,
    hafter⟩

end Rippling

end World

end ReactiveFrames
