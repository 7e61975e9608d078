import ProofSearch.Answer.Proof

/-!
# Safe prefixes

The part of a proof that normalization and safe rules alone have built.  Goals that need anything
else are left open.
-/

namespace ProofSearch

/-- A partial proof. -/
structure SafePrefix where
  /-- The goals left open, in tree order. -/
  goals : List Var
  /-- The value of the root goal, with the open goals as holes. -/
  term : Term
  state : Snapshot
deriving DecidableEq

namespace Tree

/-- The first application of a goal that belongs to the safe prefix. -/
def safeApplication? (t : Tree) (g : GoalId) : Option ApplicationId :=
  (t.goal g).applications.find? fun r => (t.application r).rule.kind.isSafe

/-- The goals of an application, cluster by cluster. -/
def subgoalIds (t : Tree) (r : ApplicationId) : List GoalId :=
  (t.application r).clusters.flatMap fun c => (t.cluster c).goals

end Tree

namespace TransplantM

/-- Declares a goal that stays open, and lists it unless it is assigned or listed already. -/
def leaveOpen (source : Snapshot) (x : Var) (found : List Var) : TransplantM (List Var) := do
  copyDecl source.context x
  if (← getSolver).isAssigned x || x ∈ found then return found else return found ++ [x]

/-- Copies the safe prefix below a goal, nested at most `fuel` times, and lists the goals left open
behind those already found. -/
def prefixGoal (t : Tree) : Nat → GoalId → List Var → TransplantM (List Var)
  | 0, _, _ => throw .outOfFuel
  | fuel + 1, g, found =>
    match (t.goal g).norm with
    | .notNormal => leaveOpen (t.preState g) (t.goal g).var found
    | .proven post => do
      copyNormalization t g post
      return found
    | .normal x post => do
      copyNormalization t g post
      match t.safeApplication? g with
      | none => leaveOpen post x found
      | some r =>
        copyApplication t r post x
        (t.subgoalIds r).foldlM (fun found g => deeper (prefixGoal t fuel g found)) found

end TransplantM

namespace Tree

/-- Puts together the safe prefix of a tree; `limit` bounds the nesting, 0 meaning no bound. -/
def extractSafePrefix (t : Tree) (limit : Nat) : SolverM SearchError SafePrefix := do
  Solver.restore t.rootState
  let goals ← (TransplantM.prefixGoal t (t.goals.size + 1) root []).runAt (.ofLimit limit)
  let s ← get
  return ⟨goals, s.context.instantiate (.var (t.goal root).var), s.state⟩

end Tree

end ProofSearch
