import ProofSearch.AndOr.Tree
import ProofSearch.Answer.Transplant

/-!
# Proofs

The proof of a proven tree is put together in one solver state.  Beginning with the root, each
proven goal and its first proven rule application contribute the bindings recorded in their own
snapshots, and so does the first proven goal of each cluster below.
-/

namespace ProofSearch

/-- A closed proof of the root goal, with the state in which all its variables are assigned. -/
structure Proof where
  term : Term
  state : Snapshot
deriving DecidableEq

namespace TransplantM

/-- Copies what an application contributed to the proof of the goal `x` since `previous`. -/
def copyApplication (t : Tree) (r : ApplicationId) (previous : Snapshot) (x : Var) :
    TransplantM Unit := do
  let node := t.application r
  copyBinding node.post.context x
  node.assigned.toList.forM (copyBinding node.post.context)
  onSolverM (Transplant.mergeEnv node.post.env previous.env)

/-- Copies what normalization contributed to the proof of a goal. -/
def copyNormalization (t : Tree) (g : GoalId) (post : Snapshot) : TransplantM Unit := do
  copyBinding post.context (t.goal g).var
  onSolverM (Transplant.mergeEnv post.env (t.preState g).env)

/-- Copies the proof of a goal, nested at most `fuel` times. -/
def extractGoal (t : Tree) : Nat → GoalId → TransplantM Unit
  | 0, _ => throw .outOfFuel
  | fuel + 1, g =>
    match (t.goal g).norm with
    | .notNormal => throw (.extraction (.neverNormalized g))
    | .proven post => copyNormalization t g post
    | .normal x post => do
      copyNormalization t g post
      match (t.goal g).applications.find? fun r => (t.application r).state.isProven with
      | none => throw (.extraction (.noProvenApplication g))
      | some r =>
        copyApplication t r post x
        (t.application r).clusters.forM fun c =>
          match (t.cluster c).goals.find? fun g => (t.goal g).state.isProven with
          | none => throw (.extraction (.unprovenCluster r c))
          | some g => deeper (extractGoal t fuel g)

end TransplantM

namespace Tree

/-- Puts together the proof of a proven tree; `limit` bounds the nesting, 0 meaning no bound.  Each
level of nesting passes another goal, so the number of goals bounds the levels. -/
def extractProof (t : Tree) (limit : Nat) : SolverM SearchError Proof := do
  Solver.restore t.rootState
  (TransplantM.extractGoal t (t.goals.size + 1) root).runAt (.ofLimit limit)
  let s ← get
  let term := s.context.instantiate (.var (t.goal root).var)
  match term.vars.toList with
  | [] => return ⟨term, s.state⟩
  | x :: xs => throw (.extraction (.openTerm term x (xs.length + 1)))

end Tree

end ProofSearch
