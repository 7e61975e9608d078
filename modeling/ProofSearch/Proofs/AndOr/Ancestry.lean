import ProofSearch.Proofs.AndOr.Pruning

/-!
# Ancestry

Nodes refer to each other by number, and new nodes are added one at a time.  However a tree is grown
and marked, its nodes form a tree.

1. `IsTree`: each node hangs below one node, which lists it once; parents are older, and all of them
   lead to the root.  The depth of a goal counts the applications above it.
2. `Arranged`: what has to be kept for this step by step; `Arranged.isTree` says that it is enough.
3. `Marking`: what may be done to a tree between additions; `Grown`: the trees that can be made.
4. `Extended`: what an added application brings.
5. `grown_isTree`: every grown tree is a tree, a new node hangs below a goal that was there before,
   and an application that cannot be added leaves the tree as it was.
-/

namespace ProofSearch

namespace Tree

/-! ## Trees -/

/-- The goal closest above a node. -/
def goalAbove? (t : Tree) : Node → Option GoalId
  | .goal g => (t.parentApplication? g).map fun r => (t.application r).parent
  | .application r => some (t.application r).parent
  | .cluster c => (t.cluster c).parent.map fun r => (t.application r).parent

/-- The nodes form a tree below the root cluster. -/
structure IsTree (t : Tree) : Prop where
  top : t.Has (.cluster rootCluster) ∧ t.above? (.cluster rootCluster) = none ∧
    t.children (.cluster rootCluster) = [.goal root]
  /-- A node lists the nodes that name it as the node above them. -/
  listed : ∀ n, t.Has n → ∀ k, k ∈ t.children n ↔ t.Has k ∧ t.above? k = some n
  /-- No node is listed twice. -/
  once : ∀ n, t.Has n → (t.children n).Nodup
  nonempty : ∀ c, t.HasCluster c → (t.cluster c).goals ≠ []
  /-- Every node but the root has a goal above it, and a goal is younger than the goal above it. -/
  parent : ∀ n, t.Has n → n ≠ .cluster rootCluster → n ≠ .goal root →
    ∃ p, t.goalAbove? n = some p ∧ t.HasGoal p ∧ ∀ g, n = .goal g → p.index < g.index
  rooted : ∀ n, t.Has n → n = .cluster rootCluster ∨ t.Above (.cluster rootCluster) n
  acyclic : ∀ n, t.Has n → ¬ t.Above n n
  /-- The depth of a goal is the number of applications above it. -/
  depth : ∀ g, t.HasGoal g → ∃ above : List ApplicationId, above.Nodup ∧
    (∀ r, r ∈ above ↔ t.Above (.application r) (.goal g)) ∧ (t.goal g).depth = above.length

/-- References are mutual, without repetitions, and depths grow by one from goal to goal. -/
structure Arranged (t : Tree) : Prop where
  linked : t.Linked
  once : ∀ n, t.Has n → (t.children n).Nodup
  depth_root : (t.goal root).depth = 0
  depth_step : ∀ g r, t.HasGoal g → t.parentApplication? g = some r →
    (t.goal g).depth = (t.goal (t.application r).parent).depth + 1

section

variable {t t' : Tree}

theorem above_iff {n k : Node} :
    t.Above n k ↔ ∃ m, t.above? k = some m ∧ (m = n ∨ t.Above n m) := by
  constructor
  · intro h
    rcases Relation.TransGen.head'_iff.1 h with ⟨m, hm, hrest⟩
    exact ⟨m, hm, (Relation.reflTransGen_iff_eq_or_transGen.1 hrest).imp_left Eq.symm⟩
  · rintro ⟨m, hm, rfl | h⟩
    · exact .single hm
    · exact .head hm h

namespace Linked

theorem mem_children_iff (hl : t.Linked) {n k : Node} (hn : t.Has n) :
    k ∈ t.children n ↔ t.Has k ∧ t.above? k = some n := by
  refine ⟨fun h => ⟨hl.has_child h, ?_⟩, fun h => (hl.mem_children h.1 h.2).2⟩
  cases n with
  | goal g =>
    obtain ⟨r, hr, rfl⟩ := List.mem_map.1 h
    rw [above?, (hl.applicationChild g hn r hr).2]
  | application r =>
    obtain ⟨c, hc, rfl⟩ := List.mem_map.1 h
    rw [above?, (hl.clusterChild r hn c hc).2, Option.map_some]
  | cluster c =>
    obtain ⟨g, hg, rfl⟩ := List.mem_map.1 h
    rw [above?, (hl.member c hn g hg).2]

/-- The root is the goal without an application above it. -/
theorem eq_root (hl : t.Linked) {g : GoalId} (hg : t.HasGoal g)
    (h : t.parentApplication? g = none) : g = Tree.root := by
  obtain ⟨hc, hm⟩ := hl.home g hg
  rw [hl.parentless _ hc h, hl.rootCluster.2.2] at hm
  exact List.mem_singleton.1 hm

end Linked

/-- Nodes in an order in which the node above comes first. -/
def rank (t : Tree) : Node → Nat
  | .goal g => 3 * g.index + 1
  | .application r => 3 * (t.application r).parent.index + 2
  | .cluster c => ((t.cluster c).parent.map fun r => 3 * (t.application r).parent.index + 3).getD 0

theorem Linked.rank_lt (hl : t.Linked) {n k : Node} (hk : t.Has k) (h : t.above? k = some n) :
    t.rank n < t.rank k := by
  cases k with
  | goal g =>
    obtain rfl := Option.some.inj h
    cases hp : t.parentApplication? g with
    | none =>
      have hp : (t.cluster (t.goal g).cluster).parent = none := hp
      simp [rank, hp]
    | some r =>
      have hlt := hl.earlier g r hk hp
      have hp : (t.cluster (t.goal g).cluster).parent = some r := hp
      simp only [rank, hp, Option.map_some, Option.getD_some]
      omega
  | application r =>
    obtain rfl := Option.some.inj h
    simp [rank]
  | cluster c =>
    obtain ⟨r, hr, rfl⟩ := Option.map_eq_some_iff.1 h
    simp [rank, hr]

theorem Linked.rank_lt_of_above (hl : t.Linked) {n k : Node} (hk : t.Has k) (h : t.Above n k) :
    t.rank n < t.rank k := by
  induction h using Relation.TransGen.head_induction_on with
  | single h => exact hl.rank_lt hk h
  | head h _ ih => exact (ih (hl.mem_children hk h).1).trans (hl.rank_lt hk h)

/-- Every node leads to the root cluster. -/
theorem Linked.rooted (hl : t.Linked) {n : Node} (hn : t.Has n) :
    n = .cluster Tree.rootCluster ∨ t.Above (.cluster Tree.rootCluster) n := by
  induction hr : t.rank n using Nat.strong_induction_on generalizing n with
  | _ i ih =>
    subst hr
    cases ha : t.above? n with
    | none =>
      left
      cases n with
      | cluster c => rw [hl.parentless c hn (Option.map_eq_none_iff.1 ha)]
      | goal g => cases ha
      | application r => cases ha
    | some m =>
      refine .inr (above_iff.2 ⟨m, ha, ?_⟩)
      exact ih _ (hl.rank_lt hn ha) (hl.mem_children hn ha).1 rfl

/-- The applications above a goal are its own one and those above the goal of that. -/
theorem above_application_iff {g : GoalId} {r : ApplicationId} :
    t.Above (.application r) (.goal g) ↔ ∃ r', t.parentApplication? g = some r' ∧
      (r' = r ∨ t.Above (.application r) (.goal (t.application r').parent)) := by
  have hcluster (c : ClusterId) : t.Above (.application r) (.cluster c) ↔
      ∃ r', (t.cluster c).parent = some r' ∧
        (r' = r ∨ t.Above (.application r) (.application r')) := by
    rw [above_iff]
    constructor
    · rintro ⟨m, hm, h⟩
      obtain ⟨r', hr', rfl⟩ := Option.map_eq_some_iff.1 hm
      exact ⟨r', hr', h.imp_left Node.application.inj⟩
    · rintro ⟨r', hr', h⟩
      exact ⟨_, Option.map_eq_some_iff.2 ⟨r', hr', rfl⟩, h.imp_left (congrArg _)⟩
  have hgoal (k : GoalId) : t.Above (.application r) (.goal k) ↔
      t.Above (.application r) (.cluster (t.goal k).cluster) := by
    rw [above_iff]
    constructor
    · rintro ⟨m, hm, h⟩
      cases hm
      exact h.resolve_left nofun
    · exact fun h => ⟨_, rfl, .inr h⟩
  have happ (r' : ApplicationId) : t.Above (.application r) (.application r') ↔
      t.Above (.application r) (.goal (t.application r').parent) := by
    rw [above_iff]
    constructor
    · rintro ⟨m, hm, h⟩
      cases hm
      exact h.resolve_left nofun
    · exact fun h => ⟨_, rfl, .inr h⟩
  rw [hgoal, hcluster]
  simp only [happ]
  exact Iff.rfl

namespace Arranged

/-- The depth of a goal is the number of applications above it. -/
theorem exists_above (h : t.Arranged) {g : GoalId} (hg : t.HasGoal g) :
    ∃ above : List ApplicationId, above.Nodup ∧
      (∀ r, r ∈ above ↔ t.Above (.application r) (.goal g)) ∧
      (t.goal g).depth = above.length := by
  induction hi : g.index using Nat.strong_induction_on generalizing g with
  | _ i ih =>
    subst hi
    cases hp : t.parentApplication? g with
    | none =>
      refine ⟨[], .nil, fun r => ?_, ?_⟩
      · rw [above_application_iff]
        simp [hp]
      · rw [h.linked.eq_root hg hp]
        exact h.depth_root
    | some r =>
      obtain ⟨hr, hparent⟩ := h.linked.has_parent hg hp
      obtain ⟨above, hnodup, hmem, hdepth⟩ := ih _ (h.linked.earlier g r hg hp) hparent rfl
      refine ⟨r :: above, List.nodup_cons.2 ⟨fun hin => ?_, hnodup⟩, fun r' => ?_, ?_⟩
      · -- the application hangs below its goal and cannot be above it
        have hlt := h.linked.rank_lt_of_above (k := .goal _) hparent ((hmem r).1 hin)
        simp [rank] at hlt
      · rw [above_application_iff, List.mem_cons, hmem]
        simp [hp, eq_comm]
      · rw [h.depth_step g r hg hp, hdepth, List.length_cons]

theorem isTree (h : t.Arranged) : t.IsTree where
  top := by
    obtain ⟨hc, hp, hg⟩ := h.linked.rootCluster
    refine ⟨hc, ?_, ?_⟩
    · rw [above?, hp, Option.map_none]
    · rw [children, hg, List.map_singleton]
  listed _ hn _ := h.linked.mem_children_iff hn
  once := h.once
  nonempty := h.linked.nonempty
  parent n hn hcluster hroot := by
    cases n with
    | goal g =>
      cases hp : t.parentApplication? g with
      | none => exact absurd (congrArg Node.goal (h.linked.eq_root hn hp)) hroot
      | some r =>
        refine ⟨_, by rw [goalAbove?, hp, Option.map_some], (h.linked.has_parent hn hp).2, ?_⟩
        rintro _ ⟨⟩
        exact h.linked.earlier g r hn hp
    | application r => exact ⟨_, rfl, (h.linked.applicationParent r hn).1, by rintro _ ⟨⟩⟩
    | cluster c =>
      cases hp : (t.cluster c).parent with
      | none => exact absurd (congrArg Node.cluster (h.linked.parentless c hn hp)) hcluster
      | some r =>
        have hr := (h.linked.clusterParent c r hn hp).1
        exact ⟨_, by rw [goalAbove?, hp, Option.map_some], (h.linked.applicationParent r hr).1,
          by rintro _ ⟨⟩⟩
  rooted _ hn := h.linked.rooted hn
  acyclic n hn hab := (h.linked.rank_lt_of_above hn hab).false
  depth _ hg := h.exists_above hg

end Arranged

/-! ## What is kept -/

theorem arranged_ofGoal (goal : Var) (vars : VarSet) (state : Snapshot) :
    (ofGoal goal vars state).Arranged := by
  refine ⟨linked_ofGoal goal vars state, fun n hn => ?_, rfl, fun g r hg hp => ?_⟩
  · cases n with
    | goal g =>
      rw [hasGoal_ofGoal.1 hn]
      exact .nil
    | application r => exact (not_hasApplication_ofGoal hn).elim
    | cluster c =>
      rw [hasCluster_ofGoal.1 hn]
      exact List.nodup_singleton _
  · rw [hasGoal_ofGoal.1 hg] at hp
    cases hp

theorem SameLinks.has_iff (h : t.SameLinks t') {n : Node} : t'.Has n ↔ t.Has n := by
  cases n with
  | goal g => exact h.hasGoal
  | application r => exact h.hasApplication
  | cluster c => exact h.hasCluster

/-- References and depths are all that matters. -/
theorem Arranged.relink (h : t.Arranged) (hl : t.SameLinks t')
    (hd : ∀ g, (t'.goal g).depth = (t.goal g).depth) : t'.Arranged where
  linked := hl.linked h.linked
  once n hn := by
    rw [hl.children_eq]
    exact h.once n (hl.has_iff.1 hn)
  depth_root := (hd _).trans h.depth_root
  depth_step g r hg hp := by
    rw [hl.parentApplication?_eq] at hp
    rw [hd, hd, hl.parent]
    exact h.depth_step g r (hl.hasGoal.1 hg) hp

theorem Settling.depth_eq (h : t.Settling t') (g : GoalId) :
    (t'.goal g).depth = (t.goal g).depth := by
  rw [(h.goal g).eq]

theorem Arranged.settle (h : t.Arranged) (hs : t.Settling t') : t'.Arranged :=
  h.relink hs.sameLinks hs.depth_eq

/-- A change of one goal that leaves its references and its depth alone. -/
theorem Arranged.modifyGoal (h : t.Arranged) (g : GoalId) {f : Goal → Goal}
    (hf : ∀ a, (f a).cluster = a.cluster ∧ (f a).applications = a.applications ∧
      (f a).depth = a.depth) : (t.modifyGoal g f).Arranged := by
  refine h.relink (sameLinks_modifyGoal t g (fun a => (hf a).1) fun a => (hf a).2.1) fun k => ?_
  rw [goal_modifyGoal]
  split
  · exact (hf _).2.2
  · rfl

/-! ## Added applications -/

/-- The goals of every cluster are different. -/
def Distinct (t : Tree) : Prop := ∀ c, t.HasCluster c → (t.cluster c).goals.Nodup

theorem Arranged.distinct (h : t.Arranged) : t.Distinct :=
  fun c hc => List.Nodup.of_map _ (h.once (.cluster c) hc)

theorem Distinct.addCluster (h : t.Distinct) (r : ApplicationId)
    (make : ClusterId → Subgoal → Goal) (members : List Subgoal) :
    (t.addCluster r make members).Distinct := by
  intro c hc
  by_cases hold : t.HasCluster c
  · have hsame : (t.addCluster r make members).cluster c = t.cluster c := by
      simp only [HasCluster] at hold
      simp [cluster, Tree.addCluster, Array.getD_eq_getD_getElem?, Array.getElem?_push,
        Nat.ne_of_lt hold]
    rw [hsame]
    exact h c hold
  · have hlast : c = ⟨t.clusters.size⟩ := by
      obtain ⟨i⟩ := c
      simp only [HasCluster, Tree.addCluster, Array.size_push] at hold hc
      simp only [ClusterId.mk.injEq]
      omega
    have hnew : ((t.addCluster r make members).cluster c).goals =
        (List.range members.length).map (⟨t.goals.size + ·⟩) := by
      rw [hlast]
      simp [cluster, Tree.addCluster, Array.getD_eq_getD_getElem?]
    rw [hnew]
    refine List.Nodup.map (fun i j hij => ?_) List.nodup_range
    have := GoalId.mk.inj hij
    omega

theorem Distinct.addNodes (h : t.Distinct) (new : NewApplication) (copies : List GoalCopy)
    (groups : List (List Subgoal)) : (t.addNodes new copies groups).Distinct := by
  have hfold (u : Tree) (hu : u.Distinct) : (groups.foldl (fun t' members =>
      t'.addCluster ⟨t.applications.size⟩ (t.makeGoal new copies) members) u).Distinct := by
    induction groups generalizing u with
    | nil => exact hu
    | cons members groups ih => exact ih _ (hu.addCluster _ _ _)
  exact hfold t h

namespace Growth

variable {new : NewApplication} {copies : List GoalCopy} {groups : List (List Subgoal)}

theorem depth_old (h : Growth new copies groups t t') {g : GoalId} (hg : t.HasGoal g) :
    (t'.goal g).depth = (t.goal g).depth := by
  obtain ⟨rs, he⟩ := h.exists_goal_eq hg
  rw [he]

/-- A new goal is a subgoal of the new application. -/
theorem parentApplication?_new (h : Growth new copies groups t t') {g : GoalId}
    (hg : ¬ t.HasGoal g) (hg' : t'.HasGoal g) :
    t'.parentApplication? g = some ⟨t.applications.size⟩ ∧
      (t'.goal g).depth = (t.goal new.parent).depth + 1 := by
  obtain ⟨c, s, hc, hc', -, -, he⟩ := h.goal_new g hg hg'
  rw [parentApplication?, he]
  exact ⟨(h.cluster_new c hc hc').1, rfl⟩

theorem nodup_children (h : Growth new copies groups t t') (ho : t.Arranged)
    (hd : t'.Distinct) {n : Node} (hn : t'.Has n) : (t'.children n).Nodup := by
  cases n with
  | goal g =>
    refine List.Nodup.map (fun _ _ => Node.application.inj) ?_
    by_cases hg : t.HasGoal g
    · have hold := List.Nodup.of_map _ (ho.once (.goal g) hg)
      by_cases hp : g = new.parent
      · rw [hp, h.goal_parent]
        refine List.Nodup.append (hp ▸ hold) (List.nodup_singleton _) ?_
        rw [List.disjoint_singleton]
        intro hm
        exact (lt_irrefl _ (ho.linked.applicationChild _ (hp ▸ hg) _ hm).1)
      · rw [h.goal_old g hg hp]
        exact hold
    · rw [h.applications_new hg hn]
      exact .nil
  | application r =>
    rcases h.hasApplication.1 hn with hr | rfl
    · rw [children, h.application_old r hr]
      exact ho.once (.application r) hr
    · rw [children, h.application_new]
      refine List.Nodup.map (fun _ _ => Node.cluster.inj) (List.Nodup.map ?_ List.nodup_range)
      intro i j hij
      have := ClusterId.mk.inj hij
      omega
  | cluster c => exact List.Nodup.map (fun _ _ => Node.goal.inj) (hd c hn)

theorem arranged (h : Growth new copies groups t t') (ho : t.Arranged) (hd : t'.Distinct)
    (hp : t.HasGoal new.parent) : t'.Arranged := by
  have hl := h.linked ho.linked hp
  refine ⟨hl, fun n hn => h.nodup_children ho hd hn, ?_, fun g r hg hr => ?_⟩
  · rw [h.depth_old ho.linked.root]
    exact ho.depth_root
  · by_cases hold : t.HasGoal g
    · rw [h.parentApplication?_old ho.linked hold] at hr
      obtain ⟨happ, hparent⟩ := ho.linked.has_parent hold hr
      rw [h.application_old r happ, h.depth_old hold, h.depth_old hparent]
      exact ho.depth_step g r hold hr
    · obtain ⟨habove, hdepth⟩ := h.parentApplication?_new hold hg
      obtain rfl := Option.some.inj (habove.symm.trans hr)
      rw [hdepth, h.application_new, newNode, h.depth_old hp]

end Growth

/-- What an application brings that is added below the goal `p`. -/
structure Extended (t : Tree) (p : GoalId) (added : AddedApplication) (t' : Tree) : Prop where
  /-- Nothing is lost or moved. -/
  old : ∀ n, t.Has n → t'.Has n ∧ t'.goalAbove? n = t.goalAbove? n
  /-- All that is new hangs below `p`. -/
  fresh : ∀ n, ¬ t.Has n → t'.Has n → t'.goalAbove? n = some p
  application : ∀ r, r = added.application ↔ ¬ t.HasApplication r ∧ t'.HasApplication r
  /-- The new goals, in the order in which they were made. -/
  goals : added.goals.Pairwise (fun g k => g.index < k.index) ∧
    ∀ g, g ∈ added.goals ↔ ¬ t.HasGoal g ∧ t'.HasGoal g

theorem SameLinks.goalAbove?_eq (h : t.SameLinks t') (n : Node) :
    t'.goalAbove? n = t.goalAbove? n := by
  cases n <;> simp only [goalAbove?, h.parentApplication?_eq, h.parent, h.above]

/-- Settling moves nothing. -/
theorem Extended.relink {u : Tree} {p : GoalId} {added : AddedApplication}
    (h : t.Extended p added t') (hl : t'.SameLinks u) : t.Extended p added u where
  old n hn := by
    rw [hl.has_iff, hl.goalAbove?_eq]
    exact h.old n hn
  fresh n hn hn' := by
    rw [hl.goalAbove?_eq]
    exact h.fresh n hn (hl.has_iff.1 hn')
  application r := by
    rw [hl.hasApplication]
    exact h.application r
  goals := by
    simp only [hl.hasGoal]
    exact h.goals

theorem Growth.extended {new : NewApplication} {copies : List GoalCopy}
    {groups : List (List Subgoal)} {added : AddedApplication}
    (h : Growth new copies groups t t') (hl : t.Linked)
    (happ : added.application = ⟨t.applications.size⟩)
    (hgoals : added.goals = (List.range (t'.goals.size - t.goals.size)).map
      (fun i => ⟨t.goals.size + i⟩)) : t.Extended new.parent added t' where
  old n hn := by
    cases n with
    | goal g =>
      refine ⟨h.hasGoal hn, ?_⟩
      rw [goalAbove?, goalAbove?, h.parentApplication?_old hl hn]
      cases ha : t.parentApplication? g with
      | none => rfl
      | some r =>
        rw [Option.map_some, Option.map_some, h.application_old r (hl.has_parent hn ha).1]
    | application r =>
      exact ⟨h.hasApplication.2 (.inl hn), by rw [goalAbove?, goalAbove?, h.application_old r hn]⟩
    | cluster c =>
      refine ⟨h.hasCluster hn, ?_⟩
      rw [goalAbove?, goalAbove?, h.cluster_old c hn]
      cases hr : (t.cluster c).parent with
      | none => rfl
      | some r =>
        rw [Option.map_some, Option.map_some, h.application_old r (hl.clusterParent c r hn hr).1]
  fresh n hn hn' := by
    cases n with
    | goal g =>
      rw [goalAbove?, (h.parentApplication?_new hn hn').1, Option.map_some, h.application_new]
      rfl
    | application r =>
      obtain rfl := (h.hasApplication.1 hn').resolve_left hn
      rw [goalAbove?, h.application_new]
      rfl
    | cluster c =>
      rw [goalAbove?, (h.cluster_new c hn hn').1, Option.map_some, h.application_new]
      rfl
  application r := by
    rw [h.hasApplication, happ]
    constructor
    · rintro rfl
      exact ⟨lt_irrefl _, .inr rfl⟩
    · exact fun hr => hr.2.resolve_left hr.1
  goals := by
    rw [hgoals]
    refine ⟨?_, fun g => ?_⟩
    · rw [List.pairwise_map]
      exact List.pairwise_lt_range.imp fun hij => by simpa using hij
    · obtain ⟨i⟩ := g
      simp only [List.mem_map, List.mem_range, GoalId.mk.injEq, HasGoal]
      constructor
      · rintro ⟨k, hk, rfl⟩
        omega
      · exact fun hi => ⟨i - t.goals.size, by omega, by omega⟩

/-- An added application keeps the nodes in order, and all that is new hangs below its goal. -/
theorem Arranged.addApplication {new : NewApplication} {added : AddedApplication} {s s' : Solver}
    (h : t.Arranged) (hp : t.HasGoal new.parent)
    (hends : Ends (t.addApplication new) s (added, t') s') :
    t'.Arranged ∧ t.Extended new.parent added t' := by
  obtain ⟨new', copies, groups, hcarry, hgroups, happ, hgoals, rfl⟩ := addApplication_ends hends
  have hparent : new'.parent = new.parent := by rw [carrySiblings_ends hcarry]
  rw [← hparent] at hp ⊢
  have hgrow := growth_addNodes t hp copies fun _ => Context.clusterGoals_ne_nil hgroups
  have harranged := hgrow.arranged h (h.distinct.addNodes new' copies groups) hp
  have hextended := hgrow.extended h.linked happ hgoals
  split
  · have hsettling := settling_markApplicationProven (t.addNodes new' copies groups)
      added.application
    exact ⟨harranged.settle hsettling, hextended.relink hsettling.sameLinks⟩
  · exact ⟨harranged, hextended⟩

end

/-! ## Grown trees -/

/-- What can be done to the marks of a tree. -/
inductive Marking where
  | provenByNorm (g : GoalId)
  | applicationProven (r : ApplicationId)
  | forcedUnprovable (g : GoalId)
  | unprovable (g : GoalId)
  | exhausted (g : GoalId)
  | irrelevant (n : Node)
deriving DecidableEq, Repr

def mark (t : Tree) : Marking → Tree
  | .provenByNorm g => t.markProvenByNorm g
  | .applicationProven r => t.markApplicationProven r
  | .forcedUnprovable g => t.markForcedUnprovable g
  | .unprovable g => t.markUnprovable g
  | .exhausted g => (t.checkExhausted g).2
  | .irrelevant n => t.prune [n]

/-- Trees made from a single goal.  Applications are added to goals of the tree, whether or not that
succeeds, and in between nodes are marked and the search notes on its goals what it finds out. -/
inductive Grown : Tree → Prop
  | ofGoal (goal : Var) (vars : VarSet) (state : Snapshot) : Grown (ofGoal goal vars state)
  | add {t : Tree} {new : NewApplication} (s : Solver) : Grown t → t.HasGoal new.parent →
      Grown ((SiteM.addApplication new).run.run ⟨s, t⟩).2.tree
  | mark {t : Tree} (m : Marking) : Grown t → Grown (t.mark m)
  | note {t : Tree} (g : GoalId) {f : Goal → Goal} : Grown t →
      (∀ a, (f a).cluster = a.cluster ∧ (f a).applications = a.applications ∧
        (f a).depth = a.depth) → Grown (t.modifyGoal g f)

theorem Arranged.mark {t : Tree} (h : t.Arranged) (m : Marking) : (t.mark m).Arranged := by
  cases m with
  | provenByNorm g => exact h.settle (settling_markProvenByNorm t g)
  | applicationProven r => exact h.settle (settling_markApplicationProven t r)
  | forcedUnprovable g =>
    show (t.markForcedUnprovable g).Arranged
    unfold markForcedUnprovable
    split
    · exact h
    · exact (h.modifyGoal g (f := ({ · with forced := true })) fun _ => ⟨rfl, rfl, rfl⟩).settle
        (settling_markUnprovable _ g)
  | unprovable g => exact h.settle (settling_markUnprovable t g)
  | exhausted g => exact h.settle (settling_checkExhausted t g)
  | irrelevant n => exact h.settle (settling_prune t [n])

/-- How adding an application ends: in place as in one go, or with the tree as it was. -/
theorem addApplication_cases (t : Tree) (s : Solver) (new : NewApplication) :
    (∃ added t' s', Ends (t.addApplication new) s (added, t') s' ∧
      (SiteM.addApplication new).run.run ⟨s, t⟩ = (.ok added, ⟨s', t'⟩)) ∨
    ∃ e s', (SiteM.addApplication new).run.run ⟨s, t⟩ = (.error e, ⟨s', t⟩) := by
  cases h : (t.addApplication new).run.run s with
  | mk result s' =>
    cases result with
    | ok a => exact .inl ⟨a.1, a.2, s', h, SiteM.ends_addApplication h⟩
    | error e => exact .inr ⟨e, s', SiteM.run_addApplication_error h⟩

theorem Grown.arranged {t : Tree} (h : Grown t) : t.Arranged := by
  induction h with
  | ofGoal goal vars state => exact arranged_ofGoal goal vars state
  | @add t new s _ hp ih =>
    rcases addApplication_cases t s new with ⟨added, t', s', hends, hrun⟩ | ⟨e, s', hrun⟩
    · rw [hrun]
      exact (ih.addApplication hp hends).1
    · rw [hrun]
      exact ih
  | mark m _ ih => exact ih.mark m
  | note g _ hf ih => exact ih.modifyGoal g hf

/-- The nodes of a grown tree form a tree.  All that a new application brings hangs below its goal,
which was there before.  An application that cannot be added leaves the tree as it was, whatever the
tree, the solver and the application are. -/
theorem grown_isTree :
    (∀ t, Grown t → t.IsTree) ∧
    (∀ t s new added site, Grown t → t.HasGoal new.parent →
      (SiteM.addApplication new).run.run ⟨s, t⟩ = (.ok added, site) →
      t.Extended new.parent added site.tree) ∧
    (∀ t s new e site, (SiteM.addApplication new).run.run ⟨s, t⟩ = (.error e, site) →
      site.tree = t) := by
  refine ⟨fun t h => h.arranged.isTree, fun t s new added site h hp hrun => ?_,
    fun t s new e site hrun => ?_⟩
  · rcases addApplication_cases t s new with ⟨added', t', s', hends, hrun'⟩ | ⟨e, s', hrun'⟩
    · cases hrun'.symm.trans hrun
      exact (h.arranged.addApplication hp hends).2
    · cases hrun'.symm.trans hrun
  · rcases addApplication_cases t s new with ⟨added', t', s', hends, hrun'⟩ | ⟨e, s', hrun'⟩
    · cases hrun'.symm.trans hrun
    · cases hrun'.symm.trans hrun
      rfl

/-- Subgoals `?2 : P ?3` and `?3 : X`, which share a variable. -/
def sharedPair : NewApplication where
  parent := root
  rule := ⟨"pair", .tentative⟩
  post := ⟨(Context.empty.declareFresh ⟨2⟩ ⟨.app "P" [.var ⟨3⟩], [], none⟩).declareFresh ⟨3⟩
    ⟨.const "X", [], none⟩, .empty⟩
  goals := [⟨2⟩, ⟨3⟩]
  introduced := .ofList [⟨2⟩, ⟨3⟩]
  assigned := ∅
  probability := .hundred
  branch := .empty
  iteration := 1

/-- `?3` is assigned, so that its sibling is copied. -/
def sharedChoice (goals : List Var) : NewApplication where
  parent := ⟨2⟩
  rule := ⟨"choose", .tentative⟩
  post := ⟨sharedPair.post.context.bind ⟨3⟩ ⟨.const "X", [], none⟩ (.value (.const "a")), .empty⟩
  goals := goals
  introduced := ∅
  assigned := .ofList [⟨3⟩]
  probability := .hundred
  branch := .empty
  iteration := 2

/-- A tree in which one of two siblings was copied below the other, and the copy was given up. -/
def copiedSibling : Tree :=
  let t := ((SiteM.addApplication sharedPair).run.run ⟨⟨.empty, 3⟩, ofGoal ⟨1⟩ ∅ .empty⟩).2.tree
  let t := ((SiteM.addApplication (sharedChoice [])).run.run ⟨⟨.empty, 3⟩, t⟩).2.tree
  t.mark (.forcedUnprovable ⟨3⟩)

theorem grown_copiedSibling : Grown copiedSibling := by
  have h := Grown.ofGoal ⟨1⟩ ∅ .empty
  have h := @Grown.add _ sharedPair ⟨.empty, 3⟩ h (by decide +kernel)
  have h := @Grown.add _ (sharedChoice []) ⟨.empty, 3⟩ h (by decide +kernel)
  exact h.mark (.forcedUnprovable ⟨3⟩)

/-- A further application with an undeclared subgoal fails after the sibling was copied once more,
and the tree stays as it is. -/
theorem grown_isTree_copied_sibling :
    copiedSibling.IsTree ∧ (copiedSibling.goal ⟨3⟩).depth = 2 ∧
    (∃ added site, (SiteM.addApplication (sharedChoice [])).run.run ⟨⟨.empty, 9⟩, copiedSibling⟩ =
      (.ok added, site) ∧ added.goals = [⟨4⟩] ∧ copiedSibling.Extended ⟨2⟩ added site.tree) ∧
    ∃ e site, (SiteM.addApplication (sharedChoice [⟨9⟩])).run.run ⟨⟨.empty, 9⟩, copiedSibling⟩ =
      (.error e, site) ∧ site.solver.lastId = 10 ∧ site.tree = copiedSibling := by
  obtain ⟨htree, hadds, hfails⟩ := grown_isTree
  refine ⟨htree _ grown_copiedSibling, by decide +kernel, ?_, ?_⟩
  · obtain ⟨added, site, hrun, hgoals⟩ := exists_ends (x := SiteM.addApplication (sharedChoice []))
      (s := ⟨⟨.empty, 9⟩, copiedSibling⟩) (fun added _ => decide (added.goals = [⟨4⟩]))
      (by decide +kernel)
    exact ⟨added, site, hrun, of_decide_eq_true hgoals,
      hadds _ _ _ _ _ grown_copiedSibling (by decide +kernel) hrun⟩
  · obtain ⟨e, site, hrun, hlast⟩ := exists_fails (x := SiteM.addApplication (sharedChoice [⟨9⟩]))
      (s := ⟨⟨.empty, 9⟩, copiedSibling⟩) (fun _ site => decide (site.solver.lastId = 10))
      (by decide +kernel)
    exact ⟨e, site, hrun, of_decide_eq_true hlast, hfails _ _ _ _ _ hrun⟩

end Tree

end ProofSearch
