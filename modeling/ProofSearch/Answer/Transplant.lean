import ProofSearch.Error

/-!
# Transplanting metavariables

Metavariables recorded in snapshots are copied into one running solver state: a variable comes with
its declaration, its binding and everything that these mention.  What the running state already
declares or binds is left as it is.
-/

namespace ProofSearch

/-- A transplant under way: the running solver state and how deep its steps are nested. -/
structure Transplant where
  solver : Solver
  guard : DepthGuard

/-- A computation that copies into the running state and may fail; what it copied before a failure
stays. -/
abbrev TransplantM (α : Type) := ExceptT SearchError (StateM Transplant) α

/-- How deep copying from a context can be nested: every variable is declared once, and between two
declarations no variable is passed twice. -/
def Transplant.nestingBound (source : Context) : Nat := (source.size + 1) * (source.size + 2)

namespace TransplantM

def getSolver : TransplantM Solver := return (← get).solver

/-- Runs a computation on the solver that may fail. -/
def onSolverM {α : Type} (x : SolverM SearchError α) : TransplantM α := fun s =>
  let (result, solver) := x.run.run s.solver
  (result, { s with solver })

/-- Runs a computation one level deeper.  The level is left also if the computation fails. -/
def deeper {α : Type} (x : TransplantM α) : TransplantM α := fun s =>
  match s.guard.enter with
  | .error e => (.error e, s)
  | .ok inner =>
    let (result, done) := x.run.run { s with guard := inner }
    (result, { done with guard := done.guard.leave })

/-- Runs a transplant on a solver, beginning at the depth of `guard`. -/
def runAt {α : Type} (x : TransplantM α) (guard : DepthGuard) : SolverM SearchError α := fun s =>
  let (result, done) := x.run.run ⟨s, guard⟩
  (result, done.solver)

/-- Copies, by the given way of copying one variable, all variables of a term. -/
def copyVarsWith (copy : Var → TransplantM Unit) (t : Term) : TransplantM Unit :=
  t.vars.toList.forM copy

/-- Declares `x` as recorded in `source` and copies, one level deeper, the variables that its type
and hypotheses mention. -/
def copyDeclWith (source : Context) (copy : Var → TransplantM Unit) (x : Var) :
    TransplantM Unit := do
  if (← getSolver).context.isDeclared x then
    return
  else
    match source.decl? x with
    | none => throw (.extraction (.undeclared x))
    | some decl =>
      onSolverM ((Solver.declare x decl).adapt .metavar)
      deeper do
        copyVarsWith copy decl.type
        decl.hyps.forM fun h => copyVarsWith copy h.type

/-- Copies the declaration and the binding of `x`, nested at most `fuel` times.  Everything the
binding mentions is copied first. -/
def copyNested (source : Context) : Nat → Var → TransplantM Unit
  | 0, _ => throw .outOfFuel
  | fuel + 1, x => do
    copyDeclWith source (copyNested source fuel) x
    if (← getSolver).isAssigned x then
      return
    else
      match source.binding? x with
      | none => return
      | some (.value t) => deeper do
        copyVarsWith (copyNested source fuel) t
        onSolverM ((Solver.assign x t).adapt .metavar)
      | some (.delayed p) => deeper do
        copyNested source fuel p
        onSolverM ((Solver.assignDelayed x p).adapt .metavar)

/-- Copies the declaration and the binding of a variable with all that they mention. -/
def copyBinding (source : Context) (x : Var) : TransplantM Unit :=
  copyNested source (Transplant.nestingBound source) x

/-- Copies the declaration of a variable with all that it mentions. -/
def copyDecl (source : Context) (x : Var) : TransplantM Unit :=
  copyDeclWith source (copyBinding source) x

/-- Copies all variables of a term. -/
def copyVars (source : Context) (t : Term) : TransplantM Unit :=
  copyVarsWith (copyBinding source) t

end TransplantM

namespace Transplant

/-- Copies the declaration and the binding of a variable into a solver, beginning at the depth of
`guard`. -/
def copyBinding (source : Context) (guard : DepthGuard) (x : Var) : SolverM SearchError Unit :=
  (TransplantM.copyBinding source x).runAt guard

/-- Adds the global declarations that `env` has gained over `earlier` and the running state
lacks. -/
def mergeEnv (env earlier : Environment) : StateM Solver Unit :=
  (env.addedSince earlier).forM fun decl => do
    if !(← get).env.contains decl.1 then
      Solver.addDeclaration decl.1 decl.2

end Transplant

end ProofSearch
