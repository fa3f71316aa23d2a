import ReactiveFrames.Script.Syntax

/-!
# Where scripts name variables

A variable gets its name or its value at a site: an assignment, a declaration, a parameter, or a
function that a statement declares. The sites of a function body are sites of the code around it
too, so that all code which a script can make closures of is looked at once.

Where a function is declared makes a difference. One that stands in a list of statements is
*listed*. One that is itself the branch of a conditional, or the body or the start of a loop, is
*bare*.

## Main definitions

* `Site`: a site, with the name that it is about.
* `Expr.sites`, `Stmt.sites`, `FunctionDecl.sites`: the sites of code.
-/

namespace ReactiveFrames.Script

/-- Name that a function is declared under. -/
def FunctionDecl.declaredName (f : FunctionDecl) : String := f.name.getD ""

/-- A place in a script at which a name is given to a variable, or a value to the variable of a
name. -/
inductive Site where
  | assigned (name : String)
  | declared (name : String)
  | parameter (name : String)
  /-- A function that stands in a list of statements. -/
  | listed (f : FunctionDecl)
  /-- A function that is itself a branch, or the body or the start of a loop. -/
  | bare (f : FunctionDecl)

namespace Site

/-- Name that the site is about. -/
def name : Site → String
  | assigned name | declared name | parameter name => name
  | listed f | bare f => f.declaredName

/-- The site gives the name to a variable of the innermost scope. -/
def Names : Site → String → Prop
  | declared name, x | parameter name, x => name = x
  | listed f, x => f.declaredName = x
  | assigned _, _ | bare _, _ => False

theorem Names.name_eq {s : Site} {x : String} (h : s.Names x) : s.name = x := by
  cases s with
  | declared _ | parameter _ | listed _ => exact h
  | assigned _ | bare _ => exact h.elim

end Site

/-- Function that the statement declares, as a site of the given kind. -/
def Stmt.declaration (site : FunctionDecl → Site) : Stmt → List Site
  | .function f => [site f]
  | _ => []

mutual

/-- Sites of an expression. -/
def Expr.sites : Expr → List Site
  | .array items => Expr.sitesOfAll items
  | .object entries => Expr.sitesOfEntries entries
  | .function f => f.sites
  | .unary _ operand => operand.sites
  | .binary _ left right => left.sites ++ right.sites
  | .logical _ left right => left.sites ++ right.sites
  | .conditional test consequent alternate => test.sites ++ consequent.sites ++ alternate.sites
  | .assign _ target value => target.sites ++ value.sites
  | .update _ _ target => target.sites
  | .member object _ => object.sites
  | .index object index => object.sites ++ index.sites
  | .call callee arguments => callee.sites ++ Expr.sitesOfAll arguments
  | _ => []

/-- Sites of expressions. -/
def Expr.sitesOfAll : List Expr → List Site
  | [] => []
  | e :: es => e.sites ++ Expr.sitesOfAll es

/-- Sites of the entries of a record. -/
def Expr.sitesOfEntries : List (String × Expr) → List Site
  | [] => []
  | (_, e) :: entries => e.sites ++ Expr.sitesOfEntries entries

/-- Sites of a target; a variable that is a target is assigned. -/
def Target.sites : Target → List Site
  | .variable name => [.assigned name]
  | .member object _ => object.sites
  | .index object index => object.sites ++ index.sites

/-- Sites of a function, at any depth in it. -/
def FunctionDecl.sites : FunctionDecl → List Site
  | .mk _ parameters body => parameters.map .parameter ++ Stmt.sitesOfAll body

/-- Sites inside a statement. Whether a function is listed or bare is said by what the statement is
a part of. -/
def Stmt.sites : Stmt → List Site
  | .expression e => e.sites
  | .declare declared => Stmt.sitesOfDeclared declared
  | .function f => f.sites
  | .returnValue none => []
  | .returnValue (some e) => e.sites
  | .branch test consequent none => test.sites ++ consequent.declaration .bare ++ consequent.sites
  | .branch test consequent (some alternate) =>
    test.sites ++ consequent.declaration .bare ++ consequent.sites ++ alternate.declaration .bare
      ++ alternate.sites
  | .whileLoop test body => test.sites ++ body.declaration .bare ++ body.sites
  | .forLoop init test update body =>
    Stmt.sitesOfInit init ++ Expr.sitesOfOption test ++ Expr.sitesOfOption update
      ++ body.declaration .bare ++ body.sites
  | .block body => Stmt.sitesOfAll body
  | .throwValue e => e.sites
  | .breakLoop | .continueLoop | .empty => []

/-- Sites of a list of statements. -/
def Stmt.sitesOfAll : List Stmt → List Site
  | [] => []
  | s :: rest => s.declaration .listed ++ s.sites ++ Stmt.sitesOfAll rest

/-- Sites of the start of a loop. -/
def Stmt.sitesOfInit : Option Stmt → List Site
  | none => []
  | some s => s.declaration .bare ++ s.sites

/-- Sites of an expression that may be missing. -/
def Expr.sitesOfOption : Option Expr → List Site
  | none => []
  | some e => e.sites

/-- Sites of variables that are declared. -/
def Stmt.sitesOfDeclared : List (String × Option Expr) → List Site
  | [] => []
  | (name, initial) :: rest =>
    .declared name :: Expr.sitesOfOption initial ++ Stmt.sitesOfDeclared rest

end

/-- Statements of a function are code of it. -/
theorem FunctionDecl.sites_eq (f : FunctionDecl) :
    f.sites = f.parameters.map .parameter ++ Stmt.sitesOfAll f.body := by
  cases f
  rw [sites]
  rfl

end ReactiveFrames.Script
