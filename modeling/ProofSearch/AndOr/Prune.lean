import ProofSearch.AndOr.Tree

/-!
# Irrelevant nodes

A node whose outcome no longer matters is marked irrelevant together with everything below it.
Marking stops at nodes that are marked already.  Every step takes a node off the list or marks one
that has not been marked before, so it ends for every tree.
-/

namespace ProofSearch

/-- A node of any kind. -/
inductive Node where
  | goal (g : GoalId)
  | application (r : ApplicationId)
  | cluster (c : ClusterId)
deriving DecidableEq, Repr

namespace Tree

/-- Whether a node exists and is not marked irrelevant. -/
def isRelevant (t : Tree) : Node → Bool
  | .goal g => t.goals[g.index]?.any (!·.irrelevant)
  | .application r => t.applications[r.index]?.any (!·.irrelevant)
  | .cluster c => t.clusters[c.index]?.any (!·.irrelevant)

def markIrrelevant (t : Tree) : Node → Tree
  | .goal g => t.modifyGoal g ({ · with irrelevant := true })
  | .application r => t.modifyApplication r ({ · with irrelevant := true })
  | .cluster c => t.modifyCluster c ({ · with irrelevant := true })

def children (t : Tree) : Node → List Node
  | .goal g => (t.goal g).applications.map .application
  | .application r => (t.application r).clusters.map .cluster
  | .cluster c => (t.cluster c).goals.map .goal

/-- The nodes of one kind that are not marked irrelevant and the links below them, counted. -/
def weigh {α : Type} (marked : α → Bool) (links : α → Nat) : List α → Nat
  | [] => 0
  | a :: as => (if marked a then 0 else links a + 1) + weigh marked links as

/-- How much there is left to mark. -/
def weight (t : Tree) : Nat :=
  weigh (·.irrelevant) (·.applications.length) t.goals.toList +
    weigh (·.irrelevant) (·.clusters.length) t.applications.toList +
    weigh (·.irrelevant) (·.goals.length) t.clusters.toList

/-- Marking a node takes off the node and the links below it. -/
theorem weigh_modify {α : Type} (marked : α → Bool) (links : α → Nat) {f : α → α}
    (hf : ∀ a, marked (f a) = true) {a : α} (ha : (!marked a) = true) : ∀ (as : List α) (i : Nat),
    as[i]? = some a → weigh marked links (as.modify i f) + links a + 1 = weigh marked links as
  | [], i, h => by simp at h
  | b :: as, 0, h => by
    have h : b = a := by simpa using h
    subst h
    simp only [Bool.not_eq_true'] at ha
    simp [weigh, hf, ha]
    omega
  | b :: as, i + 1, h => by
    have := weigh_modify marked links hf ha as i (by simpa using h)
    simp only [List.modify_succ_cons, weigh]
    omega

theorem weight_markIrrelevant {t : Tree} {n : Node} (h : t.isRelevant n = true) :
    (t.markIrrelevant n).weight + (t.children n).length + 1 = t.weight := by
  cases n with
  | goal g =>
    obtain ⟨a, ha, hr⟩ := (Option.any_eq_true ..).1 h
    have hw := weigh_modify (·.irrelevant) (·.applications.length)
      (f := fun g : Goal => { g with irrelevant := true }) (fun _ => rfl) hr t.goals.toList g.index
      (by simpa using ha)
    simp only [weight, markIrrelevant, modifyGoal, Array.toList_modify, children, goal,
      Array.getD_eq_getD_getElem?, ha, Option.getD_some, List.length_map]
    omega
  | application r =>
    obtain ⟨a, ha, hr⟩ := (Option.any_eq_true ..).1 h
    have hw := weigh_modify (·.irrelevant) (·.clusters.length)
      (f := fun r : Application => { r with irrelevant := true }) (fun _ => rfl) hr
      t.applications.toList r.index (by simpa using ha)
    simp only [weight, markIrrelevant, modifyApplication, Array.toList_modify, children,
      application, Array.getD_eq_getD_getElem?, ha, Option.getD_some, List.length_map]
    omega
  | cluster c =>
    obtain ⟨a, ha, hr⟩ := (Option.any_eq_true ..).1 h
    have hw := weigh_modify (·.irrelevant) (·.goals.length)
      (f := fun c : Cluster => { c with irrelevant := true }) (fun _ => rfl) hr t.clusters.toList
      c.index (by simpa using ha)
    simp only [weight, markIrrelevant, modifyCluster, Array.toList_modify, children, cluster,
      Array.getD_eq_getD_getElem?, ha, Option.getD_some, List.length_map]
    omega

/-- Marks the listed nodes and everything below them irrelevant. -/
def prune (t : Tree) (nodes : List Node) : Tree :=
  match nodes with
  | [] => t
  | n :: rest =>
    if _h : t.isRelevant n then (t.markIrrelevant n).prune (t.children n ++ rest)
    else t.prune rest
termination_by t.weight + nodes.length
decreasing_by
  · have := weight_markIrrelevant _h
    simp only [List.length_append, List.length_cons]
    omega
  · simp

/-- Gives up the applications of a goal other than `keep`. -/
def pruneOtherApplications (t : Tree) (g : GoalId) (keep : ApplicationId) : Tree :=
  t.prune (((t.goal g).applications.filter (· ≠ keep)).map .application)

/-- Gives up the goals of a cluster other than `keep`. -/
def pruneOtherGoals (t : Tree) (c : ClusterId) (keep : GoalId) : Tree :=
  t.prune (((t.cluster c).goals.filter (· ≠ keep)).map .goal)

/-- Gives up the clusters of an application other than `keep`. -/
def pruneOtherClusters (t : Tree) (r : ApplicationId) (keep : ClusterId) : Tree :=
  t.prune (((t.application r).clusters.filter (· ≠ keep)).map .cluster)

end Tree

end ProofSearch
