import ProofSearch.AndOr.Prune

/-!
# Settling goals

A goal that is proven or unprovable settles what is above it: a cluster is proven by one of its
goals and unprovable if all are, an application is proven if all its clusters are and unprovable
if one is, and a goal is proven by one of its applications and unprovable if no rule is left to
try and all its applications are.  What is settled never changes again.  Both walks follow the
path to the root.
-/

namespace ProofSearch

namespace Tree

/-! ## Proven goals -/

/-- Spreads the proof of the first goal of the path to what is above it, and gives up what it makes
superfluous. -/
def spreadProven (t : Tree) : List Level → Tree
  | [] => t
  | ⟨g, c, above⟩ :: path =>
    if !(t.cluster c).state.isUnknown then t
    else
      let t := (t.setClusterState c .proven).pruneOtherGoals c g
      match above with
      | none => t
      | some r =>
        let node := t.application r
        if !node.state.isUnknown || !node.clusters.all fun c => (t.cluster c).state.isProven then t
        else
          let t := t.setApplicationState r .proven
          if !(t.goal node.parent).state.isUnknown then t
          else
            ((t.setGoalState node.parent .provenByRule).pruneOtherApplications node.parent r)
              |>.spreadProven path

/-- Marks a goal as closed by its normalization. -/
def markProvenByNorm (t : Tree) (g : GoalId) : Tree :=
  if !(t.goal g).state.isUnknown then t
  else
    let t := t.setGoalState g .provenByNorm
    t.spreadProven (t.path g)

/-- Marks an application as proven, which holds once all its clusters are proven. -/
def markApplicationProven (t : Tree) (r : ApplicationId) : Tree :=
  if !(t.application r).state.isUnknown then t
  else
    let t := t.setApplicationState r .proven
    let g := (t.application r).parent
    if !(t.goal g).state.isUnknown then t
    else
      let t := (t.setGoalState g .provenByRule).pruneOtherApplications g r
      t.spreadProven (t.path g)

/-! ## Unprovable goals -/

/-- All applications of a goal are unprovable. -/
def allApplicationsFailed (t : Tree) (g : GoalId) : Bool :=
  (t.goal g).applications.all fun r => (t.application r).state.isUnprovable

/-- Marks the first goal of the path unprovable and spreads that to what is above it. -/
def spreadUnprovable (t : Tree) : List Level → Tree
  | [] => t
  | ⟨g, c, above⟩ :: path =>
    if !(t.goal g).state.isUnknown then t
    else
      let t := t.setGoalState g .unprovable
      if !(t.cluster c).state.isUnknown
          || !(t.cluster c).goals.all fun g => (t.goal g).state.isUnprovable then t
      else
        let t := t.setClusterState c .unprovable
        match above with
        | none => t
        | some r =>
          if !(t.application r).state.isUnknown then t
          else
            let t := (t.setApplicationState r .unprovable).pruneOtherClusters r c
            let parent := (t.application r).parent
            if !(t.goal parent).state.isUnknown || !(t.goal parent).isExhausted
                || !t.allApplicationsFailed parent then t
            else t.spreadUnprovable path

/-- Marks a goal unprovable. -/
def markUnprovable (t : Tree) (g : GoalId) : Tree := t.spreadUnprovable (t.path g)

/-- Gives up on a goal without trying further rules. -/
def markForcedUnprovable (t : Tree) (g : GoalId) : Tree :=
  if !(t.goal g).state.isUnknown then t
  else (t.modifyGoal g ({ · with forced := true })).markUnprovable g

/-- Marks a goal unprovable if nothing is left to try and all its applications failed.  Also tells
whether the goal is unprovable now. -/
def checkExhausted (t : Tree) (g : GoalId) : Bool × Tree :=
  let goal := t.goal g
  if goal.state.isUnprovable then (true, t)
  else if !goal.state.isUnknown || !goal.isExhausted then (false, t)
  else if t.allApplicationsFailed g then (true, t.markUnprovable g)
  else (false, t)

end Tree

end ProofSearch
