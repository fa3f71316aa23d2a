import ReactiveFrames.Proofs.Reactive.Scopes

/-!
# Functions that statements declare

A statement that declares a function does nothing when it is executed: the functions of a list of
statements are declared before the first statement of the list. So a function is there once control
has come to its statement, at every position at which statements stand in a list: in programs, in
blocks and in bodies of functions. A function that is itself the branch of a conditional or the body
of a loop stands in no list. Its statement ends normally like the others, and its name is not bound.

For both, the name must be left to the one statement, by all code that is executed and by the
closures that were there before.

## Main definitions

* `Site.IsOnly`: no other site is about the name of the site.
* `Activity.Starts`: a program, a call or a write, where a program leaves the name to the site.

## Main statements

* `World.finds_listed_function`: a lookup finds the function where it is listed, and not where it is
  bare.
-/

namespace ReactiveFrames

open Script (Value Heap Machine Task Event Site Expr Stmt Scope FunctionDecl)

/-- The other site is about another name, unless it is the same. -/
def Script.Site.IsOnly (site other : Site) : Prop := other.name = site.name → other = site

/-- What a host starts: a program that the parser accepts, in which no other site is about the name
of the site, a call, or a write. -/
inductive Activity.Starts (site : Site) : Activity → Prop
  | program {levels : Option Nat} {bound : Nat} {source : String} {body : List Stmt} :
    Script.parse source = .ok body → (∀ s ∈ Stmt.sitesOfAll body, site.IsOnly s) →
      Starts site (.script levels bound (.program source))
  | call {levels : Option Nat} {bound : Nat} {f : Value} {arguments : List Value} :
    Starts site (.script levels bound (.call f arguments))
  | write {levels : Option Nat} {o : ObjectRef} {p : String} {v : Value} :
    Starts site (.write levels o p v)

theorem Activity.Starts.sound {site : Site} {start : Activity} (hstart : start.Starts site)
    (h : Heap) : start.Sound site.IsOnly h := by
  cases hstart with
  | @program _ _ source body hparse hsites =>
    refine ⟨h.rooted_nil, ?_, trivial⟩
    rw [Task.sites, hparse]
    exact hsites
  | call => exact .of_sites_eq_nil rfl rfl trivial
  | write => trivial

namespace Moment

variable {a : Moment} {levels : Option Nat} {n : Nat} {scope : Scope} {f : FunctionDecl}

/-- A statement that declares a function ends normally and does nothing. -/
theorem exec_function (ha : a.activity = .script levels (n + 1) (.exec scope (.function f))) :
    Script.exec (hostOf (accessAt levels)) (n + 1) scope (.function f) a.world = .ok .normal a.final
      ∧ a.final = a.world := by
  obtain ⟨activity, w⟩ := a
  subst ha
  have hexec : Script.exec (hostOf (accessAt levels)) (n + 1) scope (.function f) w
      = .ok .normal w := rfl
  have hfinal : final ⟨.script levels (n + 1) (.exec scope (.function f)), w⟩ = w := by
    rw [final, Task.run, Script.Action.state_forget, hexec]
    rfl
  exact ⟨hexec.trans (by rw [hfinal]), hfinal⟩

/-- A listed function has been hoisted, and it is no bare one. -/
theorem lookup_listed (ha : a.Sound (Site.listed f).IsOnly)
    (hexec : a.activity = .script levels n (.exec scope (.function f))) :
    ∃ v, a.world.heap.lookup f.declaredName scope = some v ∧ a.world.heap.IsClosureOf v f := by
  have hactivity := ha.activity
  rw [hexec] at hactivity
  rcases hactivity.hoisted with hbare | hhoisted
  · exact nomatch hbare rfl
  · obtain ⟨v, hv, hclosure⟩ := hhoisted fun s hs ↦ hs
    exact ⟨v, Heap.lookup_of_place hv, hclosure⟩

/-- Nothing gives a value to the name of a bare function. -/
theorem binding_bare {start : Moment} {k : Nat} (hstart : start.Sound (Site.bare f).IsOnly)
    (h : Within start k a) (p : Script.Place) :
    a.world.heap.binding p f.declaredName = start.world.heap.binding p f.declaredName := by
  obtain ⟨hrebinds, -⟩ := rebinds_of_within hstart h
  rcases hrebinds.valued p f.declaredName with heq | hassigned | ⟨-, s, hs⟩
  · exact heq
  · exact nomatch hassigned rfl
  · have hbare : s = .bare f := hs.allowed hs.names.name_eq
    exact (hbare ▸ hs.names : (Site.bare f).Names f.declaredName).elim

end Moment

/-- In every world, whatever is started, when control comes to a statement that declares a function
whose name is left to this statement: the statement ends normally, and if it stands in a list of
statements, a lookup from its scope finds a closure of just this function. If it does not, all
variables of the name are what they were at the start, so that a name which was unknown then is
unknown still. And the name is left to the statement afterwards, by what is started next. -/
theorem World.finds_listed_function (site : Script.Site) (w : World) (start : Activity)
    (hw : w.heap.Sound site.IsOnly) (hstart : start.Starts site) :
    (Moment.final ⟨start, w⟩).heap.Sound site.IsOnly ∧
    ∀ (k : Nat) (a : Moment) (levels : Option Nat) (n : Nat) (scope : Scope) (f : FunctionDecl),
      Moment.Within ⟨start, w⟩ k a →
      a.activity = .script levels (n + 1) (.exec scope (.function f)) →
        Script.exec (hostOf (accessAt levels)) (n + 1) scope (.function f) a.world
            = .ok .normal a.final ∧
          (site = .listed f → ∃ v, a.final.heap.lookup f.declaredName scope = some v ∧
            a.final.heap.IsClosureOf v f) ∧
          (site = .bare f → (∀ p, a.final.heap.binding p f.declaredName
              = w.heap.binding p f.declaredName) ∧
            ((∀ p, ¬w.heap.Binds p f.declaredName) →
              a.final.heap.lookup f.declaredName scope = none)) := by
  have hsound : Moment.Sound site.IsOnly ⟨start, w⟩ := ⟨hw, hstart.sound w.heap⟩
  refine ⟨(Moment.rebinds_final hsound).sound, fun k a levels n scope f hwithin hexec ↦ ?_⟩
  obtain ⟨hnormal, hfinal⟩ := Moment.exec_function hexec
  refine ⟨hnormal, ?_, ?_⟩
  · rintro rfl
    rw [hfinal]
    exact Moment.lookup_listed (Moment.rebinds_of_within hsound hwithin).2 hexec
  · rintro rfl
    rw [hfinal]
    have hbinding := Moment.binding_bare hsound hwithin
    refine ⟨hbinding, fun hunknown ↦ Heap.lookup_eq_none fun p ↦ ?_⟩
    exact (hbinding p).trans (Option.not_isSome_iff_eq_none.1 (hunknown p))

/-- Test for a program that is one function `f` of a parameter `a`. -/
def Script.isOneFunction : List Stmt → Bool
  | [.function f] =>
    f.declaredName == "f" && f.parameters == ["a"] && f.sites.map Site.name == ["a"]
  | _ => false

theorem Script.exists_of_isOneFunction {body : List Stmt} (h : isOneFunction body = true) :
    ∃ f, body = [.function f] ∧ f.declaredName = "f" ∧ f.parameters = ["a"] ∧
      ∀ s ∈ Stmt.sitesOfAll body, (Script.Site.listed f).IsOnly s := by
  unfold isOneFunction at h
  split at h
  case h_2 => cases h
  case h_1 f =>
    simp only [Bool.and_eq_true, beq_iff_eq] at h
    obtain ⟨⟨hname, hparameters⟩, hsites⟩ := h
    refine ⟨f, rfl, hname, hparameters, fun s hs heq ↦ ?_⟩
    rw [Stmt.sitesOfAll, Stmt.sitesOfAll, List.append_nil] at hs
    rcases List.mem_append.1 hs with hs | hs
    · exact List.mem_singleton.1 hs
    · -- The only name inside the function is the one of its parameter.
      have hinside : s.name ∈ f.sites.map Site.name := List.mem_map_of_mem hs
      rw [hsites, heq, Site.name, hname] at hinside
      exact absurd hinside (by decide)

/-- The statement of a program with one function, and what a lookup finds behind it. -/
theorem World.finds_listed_function_one :
    ∃ (f : FunctionDecl) (u : World) (v : Value), f.parameters = ["a"] ∧
      Moment.Within ⟨.script none 8 (.program "function f(a) \x7b return a; \x7d"),
        World.create 256 16⟩ 0 ⟨.script none 8 (.exec [] (.function f)), u⟩ ∧
      u.heap.lookup "f" [] = some v ∧ u.heap.IsClosureOf v f := by
  have hparse : Except.okWith Script.isOneFunction
      (Script.parse "function f(a) \x7b return a; \x7d") = true := by decide +kernel
  obtain ⟨body, hparse, hbody⟩ := Except.exists_of_okWith hparse
  obtain ⟨f, rfl, hname, hparameters, hsites⟩ := Script.exists_of_isOneFunction hbody
  have hsound : (World.create 256 16).heap.Sound (Script.Site.listed f).IsOnly :=
    fun n c hc ↦ nomatch hc
  let start : Moment :=
    ⟨.script none 8 (.program "function f(a) \x7b return a; \x7d"), World.create 256 16⟩
  let w : World := (World.create 256 16).mapHeap (Heap.hoist [.function f] [])
  have hstatements : start.Enters ⟨.script none 8 (.statements .undefined [.function f]), w⟩ := by
    refine .task ?_
    rw [Task.enters, Script.programEnters, hparse]
    exact List.mem_cons_self
  have hexec : Moment.Enters ⟨.script none 8 (.statements .undefined [.function f]), w⟩
      ⟨.script none 8 (.exec [] (.function f)), w.pin [.value .undefined]⟩ :=
    .task List.mem_cons_self
  have hwithin := (Moment.Within.start.enters hstatements).enters hexec
  have hfound := (World.finds_listed_function (.listed f) (World.create 256 16) _ hsound
    (.program hparse hsites)).2 0 _ none 7 [] f hwithin rfl
  obtain ⟨v, hv, hclosure⟩ := hfound.2.1 rfl
  obtain ⟨-, hfinal⟩ := Moment.exec_function
    (a := ⟨.script none 8 (.exec [] (.function f)), w.pin [.value .undefined]⟩) rfl
  rw [hfinal] at hv hclosure
  rw [hname] at hv
  exact ⟨f, _, v, hparameters, hwithin, hv, hclosure⟩

/-- Test for a program whose first statement is a conditional with a function `f` as its branch, and
which has no other site of that name. -/
def Script.isBareFunction : List Stmt → Bool
  | .branch (.bool true) (.function f) none :: rest =>
    f.declaredName == "f" && f.sites.map Site.name == ["a"] && (Stmt.sitesOfAll rest).isEmpty
  | _ => false

/-- The statement of a function is reached and ends normally, and the name of the function, which no
other site is about, is unknown in its scope. -/
theorem World.bare_function_lost :
    Except.okWith Script.isBareFunction
        (Script.parse "if (true) function f(a) \x7b return a + 1; \x7d typeof f") = true ∧
      (∀ f, Script.exec World.scriptHost 8 [] (.branch (.bool true) (.function f) none)
        (World.create 256 16) = .ok .normal (World.create 256 16)) ∧
      (World.evaluate "if (true) function f(a) \x7b return a + 1; \x7d typeof f"
        (World.create 256 16)).okWith (fun v w ↦
          v.strictEquals (.string "undefined") && (w.heap.lookup "f" []).isNone) = true :=
  ⟨by decide +kernel, fun _ ↦ rfl, by decide +kernel⟩

end ReactiveFrames
