import ProofSearch.Proofs.AndOr.Adding
import ProofSearch.Proofs.Metavar.Resolution

/-!
# Independent subgoals

Subgoals with closed types share no variables.  Each of them becomes a cluster of its own, and no
sibling is copied.

1. `Context.dependencies_closed`: a goal with closed type and hypotheses depends on no variable.
2. `Subgoal.clusters_independent`: such subgoals are grouped one by one.
3. `Tree.members_addNodes`: the members of a group become the goals of its cluster.
4. `Tree.ends_addApplication`: how an application with independent subgoals is added.
-/

namespace ProofSearch

/-! ## Closed goals -/

namespace Context

variable {m : Context} {x : Var} {d : VarDecl}

theorem openVars_closed {t : Term} (h : (m.instantiate t).hasVar = false) : m.openVars t = ∅ := by
  have hvars : (m.instantiate t).vars = ∅ := by
    ext y
    simp [Term.mem_vars, Term.hasVar_eq_false.1 h y]
  unfold openVars
  cases m.size with
  | zero => exact hvars
  | succ n =>
    rw [openBelow, hvars]
    rfl

/-- A goal with closed type and hypotheses depends on no variable. -/
theorem dependencies_closed (hd : m.decl? x = some d) (ht : (m.instantiate d.type).hasVar = false)
    (hh : ∀ h ∈ d.hyps, (m.instantiate h.type).hasVar = false) : m.dependencies x = .ok ∅ := by
  have hfold (hyps : LocalContext) (hh : ∀ h ∈ hyps, (m.instantiate h.type).hasVar = false) :
      hyps.foldl (fun (found : VarSet) h => found.union (m.openVars h.type)) ∅ = ∅ := by
    induction hyps with
    | nil => rfl
    | cons h hyps ih =>
      rw [List.foldl_cons, openVars_closed (hh h List.mem_cons_self)]
      exact ih fun k hk => hh k (List.mem_cons_of_mem h hk)
  simp only [dependencies, hd, openVars_closed ht, hfold d.hyps hh]
  rfl

end Context

/-! ## Grouping -/

namespace Subgoal

/-- A subgoal that depends on no variable. -/
def free (x : Var) : Subgoal := ⟨x, ∅⟩

theorem mem_reach_free {x y : Var} : y ∈ (free x).reach ↔ y = x := by
  simp [reach, free]

/-- Different free subgoals are grouped one by one. -/
theorem clusters_independent {xs : List Var} (h : xs.Nodup) :
    clusters (xs.map free) = xs.map fun x => [free x] := by
  obtain ⟨parts, hparts, hc⟩ := clusters_components (xs.map free)
  have hget (i : Fin (xs.map free).length) : (xs.map free).get i =
      free (xs.get (i.cast (List.length_map ..))) := by
    simp
  rw [hparts, hc.eq_singletons fun i j hij => ?_, List.map_map]
  · have hmap := congrArg (List.map fun s => [s]) (List.map_get_finRange (xs.map free))
    rw [List.map_map, List.map_map] at hmap
    exact hmap
  · obtain ⟨x, hi, hj⟩ := hij
    simp only [hget, mem_reach_free] at hi hj
    exact Fin.cast_injective _ (List.nodup_iff_injective_get.1 h (hi.symm.trans hj))

end Subgoal

/-- Open goals with closed types and hypotheses are grouped one by one. -/
theorem Context.clusterGoals_independent {m : Context} {goals : List Var} (h : goals.Nodup)
    (hdeps : ∀ x ∈ goals, m.dependencies x = .ok ∅) :
    m.clusterGoals goals = .ok (goals.map fun x => [Subgoal.free x]) := by
  have hsubgoals : m.subgoals goals = .ok (goals.map Subgoal.free) := by
    have hmap (xs : List Var) (hxs : ∀ x ∈ xs, m.dependencies x = .ok ∅) :
        (xs.mapM fun x => (m.dependencies x).map (Subgoal.mk x)) = .ok (xs.map Subgoal.free) := by
      induction xs with
      | nil => rfl
      | cons x xs ih =>
        rw [List.mapM_cons, hxs x List.mem_cons_self,
          ih fun y hy => hxs y (List.mem_cons_of_mem x hy)]
        rfl
    exact hmap goals hdeps
  rw [clusterGoals, hsubgoals, ← Subgoal.clusters_independent h]
  rfl

namespace Tree

/-! ## Nodes of groups -/

/-- The members of a group become the goals of its cluster. -/
theorem members_foldl (r : ApplicationId) {make : ClusterId → Subgoal → Goal}
    (hmake : ∀ c s, (make c s).cluster = c) {groups : List (List Subgoal)}
    (hne : ∀ members ∈ groups, members ≠ []) (t : Tree) {i : Nat} {members : List Subgoal}
    (hi : groups[i]? = some members) :
    List.Forall₂ (fun g s =>
        (groups.foldl (fun t ms => t.addCluster r make ms) t).goal g =
          make ⟨t.clusters.size + i⟩ s)
      ((groups.foldl (fun t ms => t.addCluster r make ms) t).cluster
        ⟨t.clusters.size + i⟩).goals members := by
  induction groups generalizing t i with
  | nil => simp at hi
  | cons first groups ih =>
    have hrest := clustersAdded_foldl r hmake groups (t.addCluster r make first)
      fun ms h => hne ms (List.mem_cons_of_mem first h)
    rw [List.foldl_cons]
    cases i with
    | zero =>
      obtain rfl : first = members := by simpa using hi
      have hcluster : (t.addCluster r make first).cluster ⟨t.clusters.size⟩ =
          ⟨some r, (List.range first.length).map (⟨t.goals.size + ·⟩), .unknown, false⟩ := by
        simp [cluster, addCluster, Array.getD_eq_getD_getElem?]
      rw [Nat.add_zero, hrest.cluster_old _ (by simp [HasCluster, addCluster]), hcluster]
      refine List.forall₂_iff_get.2 ⟨by simp, fun j hj hj' => ?_⟩
      have hgoal : (t.addCluster r make first).goal ⟨t.goals.size + j⟩ =
          make ⟨t.clusters.size⟩ first[j] := by
        simp [goal, addCluster, Array.getD_eq_getD_getElem?, hj']
      have hhas : (t.addCluster r make first).HasGoal ⟨t.goals.size + j⟩ := by
        simp [HasGoal, addCluster, hj']
      simpa using (hrest.goal_old _ hhas).trans hgoal
    | succ i =>
      have hsize : (t.addCluster r make first).clusters.size = t.clusters.size + 1 := by
        simp [addCluster]
      have ih := ih (fun ms h => hne ms (List.mem_cons_of_mem first h)) (t.addCluster r make first)
        (by simpa using hi)
      rwa [hsize, show t.clusters.size + 1 + i = t.clusters.size + (i + 1) by omega] at ih

theorem members_addNodes (t : Tree) {new : NewApplication} (hp : t.HasGoal new.parent)
    (copies : List GoalCopy) {groups : List (List Subgoal)}
    (hne : ∀ members ∈ groups, members ≠ []) {i : Nat} {members : List Subgoal}
    (hi : groups[i]? = some members) :
    List.Forall₂ (fun g s =>
        (t.addNodes new copies groups).goal g =
          t.makeGoal new copies ⟨t.clusters.size + i⟩ s)
      ((t.addNodes new copies groups).cluster ⟨t.clusters.size + i⟩).goals members := by
  have hgrow := growth_addNodes t hp copies hne
  have hcluster : (t.addNodes new copies groups).cluster ⟨t.clusters.size + i⟩ =
      (groups.foldl (fun t' ms => t'.addCluster ⟨t.applications.size⟩ (t.makeGoal new copies) ms)
        t).cluster ⟨t.clusters.size + i⟩ := rfl
  have hall := members_foldl ⟨t.applications.size⟩
    (fun _ _ => rfl : ∀ c s, (t.makeGoal new copies c s).cluster = c) hne t hi
  have hlt : i < groups.length := (List.getElem?_eq_some_iff.1 hi).1
  have hnew := (hgrow.cluster_new ⟨t.clusters.size + i⟩ (by simp [HasCluster])
    (by simp [HasCluster, hgrow.clusters_size, hlt])).2.2.2.2
  rw [hcluster] at hnew ⊢
  refine List.forall₂_iff_get.2 ⟨hall.length_eq, fun j hj hj' => ?_⟩
  have hg := (hnew _ (List.get_mem _ ⟨j, hj⟩)).1
  rw [addNodes, goal_modifyGoal, if_neg]
  · exact hall.get hj hj'
  · rintro ⟨he, -⟩
    exact hg (he ▸ hp)

/-- Siblings without variables are not copied. -/
theorem dependents_nil {t : Tree} (h : ∀ g, (t.goal g).vars = ∅) (post : Context)
    (path : List Level) (assigned : VarSet) : t.dependents post path assigned = [] := by
  have hcopy (g : GoalId) (vars : VarSet) : needsCopy post vars (t.goal g) = false := by
    have hdisjoint : (t.goal g).vars.disjoint vars = true := by
      rw [h]
      rfl
    simp [needsCopy, hdisjoint]
  induction path generalizing assigned with
  | nil => rfl
  | cons level path ih =>
    obtain ⟨g, c, above⟩ := level
    have hhere (vars : VarSet) : ((t.cluster c).goals.filter fun s =>
        s ≠ g && needsCopy post vars (t.goal s)) = [] :=
      List.filter_eq_nil_iff.2 fun s _ => by simp [hcopy]
    unfold dependents
    split
    · rfl
    · cases above with
      | none => exact hhere assigned
      | some r => simp only [hhere, ih, List.append_nil]

/-- An application with independent subgoals is added as it is, and settles its goal if it has
none. -/
theorem ends_addApplication {t : Tree} (new : NewApplication) (s : Solver)
    (hvars : ∀ g, (t.goal g).vars = ∅) (hnodup : new.goals.Nodup)
    (hdeps : ∀ x ∈ new.goals, new.post.context.dependencies x = .ok ∅) :
    ∃ added t', Ends (t.addApplication new) s (added, t') s ∧
      (t.addNodes new [] (new.goals.map fun x => [Subgoal.free x])).Settling t' := by
  have hcarry : t.carrySiblings new = pure (new, []) := by
    simp only [carrySiblings, dependents_nil hvars]
    rfl
  have hgroups := Context.clusterGoals_independent hnodup hdeps
  simp only [addApplication, hcarry, ends_bind, ends_pure, ends_adapt, ends_solver_orThrow]
  refine ⟨_, _, ⟨_, s, ⟨rfl, rfl⟩, _, s, ⟨hgroups, rfl⟩, rfl, rfl⟩, ?_⟩
  split
  · exact settling_markApplicationProven _ _
  · exact .refl _

end Tree

end ProofSearch
