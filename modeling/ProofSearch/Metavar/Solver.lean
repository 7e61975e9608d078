import ProofSearch.Metavar.Snapshot

/-!
# Solvers

A solver holds one current snapshot and the number of the latest variable.  Restoring a snapshot
never takes that number back, so variables made on different branches of a search stay apart.

Numbers are not bounded: the generator of fresh variables is assumed not to overflow.
-/

namespace ProofSearch

/-- The current snapshot and the greatest number given to a variable so far. -/
structure Solver where
  state : Snapshot
  lastId : Nat

/-- A computation on a solver that may fail with an error; changes made before a failure stay. -/
abbrev SolverM (ε α : Type) := ExceptT ε (StateM Solver) α

/-- A result that does not depend on the solver. -/
def SolverM.orThrow {ε α : Type} (e : Except ε α) : SolverM ε α := fun s => (e, s)

namespace Solver

def empty : Solver := ⟨.empty, 0⟩

instance : Inhabited Solver := ⟨empty⟩

def context (s : Solver) : Context := s.state.context

def env (s : Solver) : Environment := s.state.env

def withContext (s : Solver) (m : Context) : Solver :=
  { s with state := { s.state with context := m } }

def isAssigned (s : Solver) (x : Var) : Bool := s.context.isAssigned x

/-! ## Operations -/

def restore (snapshot : Snapshot) : StateM Solver Unit := fun s =>
  ((), { s with state := snapshot })

/-- A variable that no earlier operation has named. -/
def freshVar : StateM Solver Var := fun s =>
  (⟨s.lastId + 1⟩, { s with lastId := s.lastId + 1 })

/-- Declares a fresh open variable that stands for a proof of `type` from `hyps`. -/
def mkGoal (type : Term) (hyps : LocalContext) : StateM Solver Var := do
  let x ← freshVar
  modify fun s => s.withContext (s.context.declareFresh x { type, hyps })
  return x

/-- Replaces the context if `change` succeeds. -/
def updateContext (change : Context → Except MetavarError Context) : SolverM MetavarError Unit :=
  fun s => match change s.context with
    | .ok m => (.ok (), s.withContext m)
    | .error e => (.error e, s)

/-- Declares a variable under a number of the caller's choice, which fresh variables then avoid. -/
def declare (x : Var) (decl : VarDecl) : SolverM MetavarError Unit := do
  modify fun s => { s with lastId := max s.lastId x.index }
  updateContext (·.declare x decl)

def assign (x : Var) (t : Term) : SolverM MetavarError Unit := updateContext (·.assign x t)

def assignDelayed (x pending : Var) : SolverM MetavarError Unit :=
  updateContext (·.assignDelayed x pending)

/-- Makes two terms equal by binding variables; on failure nothing changes. -/
def unify (l r : Term) : StateM Solver Bool := fun s =>
  match s.context.unify l r with
  | some m => (true, s.withContext m)
  | none => (false, s)

def addDeclaration (name : String) (value : Term) : StateM Solver Unit :=
  modify fun s => { s with state := { s.state with env := s.env.add name value } }

/-- The instantiated type of a goal in the current state. -/
def goalType (goal : Var) : SolverM MetavarError Term := do
  SolverM.orThrow ((← get).context.goalType goal)

/-- The instantiated hypotheses of a goal in the current state. -/
def goalHyps (goal : Var) : SolverM MetavarError LocalContext := do
  SolverM.orThrow ((← get).context.goalHyps goal)

end Solver

end ProofSearch
