import ProofSearch.Proofs.AndOr.Forest
import ProofSearch.Proofs.Ends

/-!
# Adding in place

A search adds an application to its tree node by node.  Two of the steps can fail: siblings are
copied and subgoals are grouped before the first node is added, but the dependencies of each subgoal
are looked up again between the nodes.  That second look-up never fails.

1. `Tree.addApplication`: the tree with the application, made in one go.
2. `Context.clusterGoals_perm`: the groups have the given goals, each once.
3. `SiteM.run_pushClusters`: clusters added one node after the other are the clusters added at once.
4. `SiteM.run_addApplication`: both ways to add an application agree, and a failure leaves the tree
   as it was.
-/

namespace ProofSearch

/-! ## Trees with new nodes -/

namespace Tree

/-- Adds a cluster of an application with its goals. -/
def addCluster (t : Tree) (r : ApplicationId) (make : ClusterId → Subgoal → Goal)
    (members : List Subgoal) : Tree :=
  let c : ClusterId := ⟨t.clusters.size⟩
  { t with
    goals := t.goals ++ (members.map (make c)).toArray
    clusters := t.clusters.push
      ⟨some r, (List.range members.length).map (⟨t.goals.size + ·⟩), .unknown, false⟩ }

/-- Adds an application below its goal, with a cluster for each group of subgoals. -/
def addNodes (t : Tree) (new : NewApplication) (copies : List GoalCopy)
    (groups : List (List Subgoal)) : Tree :=
  let r : ApplicationId := ⟨t.applications.size⟩
  let grown := groups.foldl (fun t' members => t'.addCluster r (t.makeGoal new copies) members) t
  { grown with
    applications := grown.applications.push {
      parent := new.parent
      clusters := (List.range groups.length).map (⟨t.clusters.size + ·⟩)
      state := .unknown
      irrelevant := false
      rule := new.rule
      post := new.post
      introduced := new.introduced
      assigned := new.assigned
      probability := new.probability } }
    |>.modifyGoal new.parent fun goal => { goal with applications := goal.applications ++ [r] }

/-- Adds a rule application, with copies of the siblings that depend on what it assigned. -/
def addApplication (t : Tree) (new : NewApplication) :
    SolverM SearchError (AddedApplication × Tree) := do
  let (new, copies) ← t.carrySiblings new
  let groups ← (SolverM.orThrow (new.post.context.clusterGoals new.goals)).adapt .metavar
  let r : ApplicationId := ⟨t.applications.size⟩
  let grown := t.addNodes new copies groups
  let added := (List.range (grown.goals.size - t.goals.size)).map fun i => ⟨t.goals.size + i⟩
  return (⟨r, added⟩, if added.isEmpty then grown.markApplicationProven r else grown)

/-- How an application is added: with copied siblings, grouped subgoals and, if there are none, a
proof of its goal. -/
theorem addApplication_ends {t t' : Tree} {new : NewApplication} {added : AddedApplication}
    {s s' : Solver} (h : Ends (t.addApplication new) s (added, t') s') :
    ∃ new' copies groups, Ends (t.carrySiblings new) s (new', copies) s' ∧
      new'.post.context.clusterGoals new'.goals = .ok groups ∧
      added.application = ⟨t.applications.size⟩ ∧
      added.goals = (List.range ((t.addNodes new' copies groups).goals.size - t.goals.size)).map
        (fun i => ⟨t.goals.size + i⟩) ∧
      t' = if added.goals.isEmpty then
        (t.addNodes new' copies groups).markApplicationProven added.application
        else t.addNodes new' copies groups := by
  unfold addApplication at h
  simp only [ends_bind, ends_adapt, ends_solver_orThrow, ends_pure] at h
  obtain ⟨⟨new', copies⟩, u, hc, groups, v, ⟨hgroups, rfl⟩, h, rfl⟩ := h
  cases h
  exact ⟨new', copies, groups, hc, hgroups, rfl, rfl, rfl⟩

end Tree

/-! ## Groups of subgoals -/

theorem Context.exists_subgoals {m : Context} {goals : List Var} {groups : List (List Subgoal)}
    (h : m.clusterGoals goals = .ok groups) :
    ∃ subgoals, m.subgoals goals = .ok subgoals ∧ groups = Subgoal.clusters subgoals := by
  unfold Context.clusterGoals at h
  cases hs : m.subgoals goals with
  | error e =>
    rw [hs] at h
    cases h
  | ok subgoals =>
    rw [hs] at h
    exact ⟨subgoals, rfl, (Except.ok.inj h).symm⟩

theorem Context.clusterGoals_ne_nil {m : Context} {goals : List Var} {groups : List (List Subgoal)}
    (h : m.clusterGoals goals = .ok groups) {members : List Subgoal} (hm : members ∈ groups) :
    members ≠ [] := by
  obtain ⟨subgoals, -, rfl⟩ := Context.exists_subgoals h
  exact Subgoal.clusters_ne_nil hm

/-- Subgoals are the given goals with their dependencies. -/
theorem Context.subgoals_eq_ok {m : Context} {goals : List Var} {subgoals : List Subgoal}
    (h : m.subgoals goals = .ok subgoals) : subgoals.map (·.var) = goals ∧
      ∀ s ∈ subgoals, m.dependencies s.var = .ok s.deps := by
  have hall : List.Forall₂ (fun x s => s.var = x ∧ m.dependencies x = .ok s.deps) goals
      subgoals := by
    refine (forall₂_of_mapM h).imp fun x s hs => ?_
    cases hdeps : m.dependencies x with
    | error e =>
      rw [hdeps] at hs
      cases hs
    | ok deps =>
      rw [hdeps] at hs
      cases hs
      exact ⟨rfl, rfl⟩
  refine ⟨List.ext_getElem (by simp [hall.length_eq]) fun i hi hi' => ?_, fun s hs => ?_⟩
  · rw [List.getElem_map]
    exact (hall.get hi' (by simpa using hi)).1
  · obtain ⟨i, hi, rfl⟩ := List.mem_iff_getElem.1 hs
    obtain ⟨hvar, hdeps⟩ := hall.get (hall.length_eq ▸ hi) hi
    rw [List.get_eq_getElem, List.get_eq_getElem] at hvar hdeps
    rw [hvar]
    exact hdeps

/-- The groups have the given goals with their dependencies, each once. -/
theorem Context.clusterGoals_perm {m : Context} {goals : List Var} {groups : List (List Subgoal)}
    (h : m.clusterGoals goals = .ok groups) : (groups.flatten.map (·.var)).Perm goals ∧
      ∀ s ∈ groups.flatten, m.dependencies s.var = .ok s.deps := by
  obtain ⟨subgoals, hsub, rfl⟩ := Context.exists_subgoals h
  obtain ⟨hvars, hdeps⟩ := Context.subgoals_eq_ok hsub
  have hperm := Subgoal.flatten_clusters_perm subgoals
  exact ⟨hvars ▸ hperm.map _, fun s hs => hdeps s (hperm.mem_iff.1 hs)⟩

/-! ## Node by node -/

theorem Array.modify_push_size {α : Type} (as : Array α) (a : α) (f : α → α) :
    (as.push a).modify as.size f = as.push (f a) := by
  refine Array.ext (by simp) fun i hi hi' => ?_
  rw [Array.getElem_modify, Array.getElem_push, Array.getElem_push]
  rw [Array.size_push] at hi'
  by_cases h : i < as.size
  · rw [if_neg (by omega), dif_pos h, dif_pos h]
  · rw [if_pos (by omega), dif_neg h, dif_neg h]

/-- Consecutive numbers: the first one and the rest. -/
theorem map_range_succ {α : Type} (f : Nat → α) (i n : Nat) :
    (List.range (n + 1)).map (fun k => f (i + k)) =
      f i :: (List.range n).map fun k => f (i + 1 + k) := by
  rw [List.range_succ_eq_map, List.map_cons, List.map_map]
  exact congrArg (f i :: ·) (List.map_congr_left fun k _ => congrArg f (by simp; omega))

namespace SiteM

variable {s : Solver} {t : Tree}

theorem run_onSolverM {α : Type} {x : SolverM SearchError α} {result : Except SearchError α}
    {s' : Solver} (h : x.run.run s = (result, s')) :
    (onSolverM x).run.run ⟨s, t⟩ = (result, ⟨s', t⟩) := by
  show ((x.run.run s).1, Site.mk (x.run.run s).2 t) = _
  rw [h]

/-- The tree with one more cluster, which has the listed goals. -/
def withCluster (t : Tree) (r : ApplicationId) (goals : List GoalId) : Tree :=
  { t with clusters := t.clusters.push ⟨some r, goals, .unknown, false⟩ }

theorem ends_pushCluster (r : ApplicationId) :
    Ends (pushCluster r) ⟨s, t⟩ ⟨t.clusters.size⟩ ⟨s, withCluster t r []⟩ := rfl

/-- A goal is added to the cluster that was added last. -/
theorem ends_pushGoal {goal : Goal} (hc : goal.cluster = ⟨t.clusters.size⟩) (r : ApplicationId)
    (goals : List GoalId) :
    Ends (pushGoal goal) ⟨s, withCluster t r goals⟩ ⟨t.goals.size⟩
      ⟨s, withCluster { t with goals := t.goals.push goal } r (goals ++ [⟨t.goals.size⟩])⟩ := by
  have hrun : Ends (pushGoal goal) ⟨s, withCluster t r goals⟩ ⟨t.goals.size⟩
      ⟨s, (withCluster { t with goals := t.goals.push goal } r goals).modifyCluster goal.cluster
        fun c => { c with goals := c.goals ++ [⟨t.goals.size⟩] }⟩ := rfl
  simp only [hc, Tree.modifyCluster, withCluster, Array.modify_push_size] at hrun
  exact hrun

/-- Goals with known dependencies are all added to the cluster that was added last. -/
theorem ends_pushMembers {post : Context} {make : Subgoal → Goal} (r : ApplicationId)
    {members : List Subgoal} (hdeps : ∀ m ∈ members, post.dependencies m.var = .ok m.deps)
    (hc : ∀ m, (make m).cluster = ⟨t.clusters.size⟩) (goals : List GoalId) :
    Ends (pushMembers post make (members.map (·.var))) ⟨s, withCluster t r goals⟩
      ((List.range members.length).map (⟨t.goals.size + ·⟩))
      ⟨s, withCluster { t with goals := t.goals ++ (members.map make).toArray } r
        (goals ++ (List.range members.length).map (⟨t.goals.size + ·⟩))⟩ := by
  induction members generalizing t goals with
  | nil =>
    refine ends_pure.2 ⟨rfl, ?_⟩
    simp
  | cons m members ih =>
    have hlook : Ends (onSolverM ((SolverM.orThrow (post.dependencies m.var)).adapt .metavar))
        ⟨s, withCluster t r goals⟩ m.deps ⟨s, withCluster t r goals⟩ := by
      rw [hdeps m (by simp)]
      rfl
    have hrest := ih (t := { t with goals := t.goals.push (make m) })
      (fun m hm => hdeps m (by simp [hm])) hc (goals ++ [⟨t.goals.size⟩])
    refine ends_bind.2 ⟨_, _, hlook, ends_bind.2 ⟨_, _, ends_pushGoal (hc m) r goals,
      ends_bind.2 ⟨_, _, hrest, ends_pure.2 ⟨?_, ?_⟩⟩⟩⟩
    · rw [List.length_cons, map_range_succ GoalId.mk, Array.size_push]
    · rw [List.length_cons, map_range_succ GoalId.mk, Array.size_push]
      simp

/-- Clusters of goals with known dependencies are added as if at once. -/
theorem ends_pushClusters {post : Context} {make : ClusterId → Subgoal → Goal}
    (r : ApplicationId) (hc : ∀ c m, (make c m).cluster = c) {groups : List (List Subgoal)}
    (hdeps : ∀ m ∈ groups.flatten, post.dependencies m.var = .ok m.deps) :
    Ends (pushClusters post r make (groups.map fun members => members.map (·.var))) ⟨s, t⟩
      ((List.range groups.length).map (⟨t.clusters.size + ·⟩),
        (List.range groups.flatten.length).map (⟨t.goals.size + ·⟩))
      ⟨s, groups.foldl (fun t' members => t'.addCluster r make members) t⟩ := by
  induction groups generalizing t with
  | nil => exact ends_pure.2 ⟨rfl, rfl⟩
  | cons members groups ih =>
    have hhere (m : Subgoal) (hm : m ∈ members) : post.dependencies m.var = .ok m.deps :=
      hdeps m (List.mem_append_left _ hm)
    have hlater (m : Subgoal) (hm : m ∈ groups.flatten) : post.dependencies m.var = .ok m.deps :=
      hdeps m (List.mem_append_right _ hm)
    have hmembers := ends_pushMembers (s := s) r hhere (hc ⟨t.clusters.size⟩) []
    have hrest := ih (t := t.addCluster r make members) hlater
    refine ends_bind.2 ⟨_, _, ends_pushCluster r, ends_bind.2 ⟨_, _, hmembers,
      ends_bind.2 ⟨_, _, hrest, ends_pure.2 ⟨?_, rfl⟩⟩⟩⟩
    refine Prod.ext ?_ ?_
    · rw [List.length_cons, map_range_succ ClusterId.mk, Tree.addCluster, Array.size_push]
    · simp [Tree.addCluster, List.range_add, Nat.add_assoc]

theorem ends_pushApplication (node : Application) :
    Ends (pushApplication node) ⟨s, t⟩ ⟨t.applications.size⟩
      ⟨s, ({ t with applications := t.applications.push node }).modifyGoal node.parent fun goal =>
        { goal with applications := goal.applications ++ [ApplicationId.mk t.applications.size] }⟩ := rfl

/-- Adding clusters at once leaves the applications alone. -/
theorem applications_foldl_addCluster (r : ApplicationId) (make : ClusterId → Subgoal → Goal)
    (groups : List (List Subgoal)) :
    (groups.foldl (fun t' members => t'.addCluster r make members) t).applications =
      t.applications := by
  induction groups generalizing t with
  | nil => rfl
  | cons members groups ih => exact ih

theorem goals_size_foldl_addCluster (r : ApplicationId) (make : ClusterId → Subgoal → Goal)
    (groups : List (List Subgoal)) :
    (groups.foldl (fun t' members => t'.addCluster r make members) t).goals.size =
      t.goals.size + groups.flatten.length := by
  induction groups generalizing t with
  | nil => rfl
  | cons members groups ih =>
    rw [List.foldl_cons, ih]
    simp [Tree.addCluster, Nat.add_assoc]

variable {new : NewApplication}

/-- The application that is made in one go is made in place. -/
theorem ends_addApplication {added : AddedApplication} {t' : Tree} {s' : Solver}
    (h : Ends (t.addApplication new) s (added, t') s') :
    Ends (addApplication new) ⟨s, t⟩ added ⟨s', t'⟩ := by
  obtain ⟨new', copies, groups, hcarry, hgroups, happ, hadded, rfl⟩ := Tree.addApplication_ends h
  have hlook : (onSolverM ((SolverM.orThrow
      (new'.post.context.clusterGoals new'.goals)).adapt .metavar)).run.run ⟨s', t⟩ =
        (.ok groups, ⟨s', t⟩) := run_onSolverM (by rw [hgroups]; rfl)
  have hcluster (c : ClusterId) (m : Subgoal) : (t.makeGoal new' copies c m).cluster = c := rfl
  have hclusters := ends_pushClusters (s := s') (t := t) ⟨t.applications.size⟩ hcluster
    (Context.clusterGoals_perm hgroups).2
  have hgoals : added.goals = (List.range groups.flatten.length).map (⟨t.goals.size + ·⟩) := by
    rw [hadded, Tree.addNodes, Tree.modifyGoal]
    simp [goals_size_foldl_addCluster]
  refine ends_bind.2 ⟨_, _, ends_pure.2 ⟨rfl, rfl⟩, ends_bind.2 ⟨_, _, run_onSolverM hcarry,
    ends_bind.2 ⟨_, _, hlook, ends_bind.2 ⟨_, _, hclusters,
      ends_bind.2 ⟨_, _, ends_pushApplication _, ?_⟩⟩⟩⟩⟩
  simp only [Tree.addNodes, applications_foldl_addCluster, ← hgoals]
  obtain ⟨r, goals⟩ := added
  cases happ
  split
  · exact ends_bind.2 ⟨(), _, ends_modify.2 rfl, ends_pure.2 ⟨rfl, rfl⟩⟩
  · exact ends_pure.2 ⟨rfl, rfl⟩

/-- An application that cannot be made leaves the tree as it was. -/
theorem run_addApplication_error {e : SearchError} {s' : Solver}
    (h : (t.addApplication new).run.run s = (.error e, s')) :
    (addApplication new).run.run ⟨s, t⟩ = (.error e, ⟨s', t⟩) := by
  have htree (f : Tree → SiteM AddedApplication) :
      (getTree >>= f).run.run ⟨s, t⟩ = (f t).run.run ⟨s, t⟩ := rfl
  rw [addApplication, htree, run_bind]
  rw [Tree.addApplication, run_bind] at h
  cases hcarry : (t.carrySiblings new).run.run s with
  | mk res u =>
    rw [hcarry] at h
    rw [run_onSolverM hcarry]
    cases res with
    | error e' =>
      cases h
      rfl
    | ok carried =>
      obtain ⟨new', copies⟩ := carried
      dsimp only at h ⊢
      rw [run_bind] at h ⊢
      cases hgroups : new'.post.context.clusterGoals new'.goals with
      | error e' =>
        rw [hgroups] at h
        cases h
        rfl
      | ok groups =>
        rw [hgroups] at h
        cases h

end SiteM

end ProofSearch
