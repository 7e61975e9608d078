import ProofSearch.Proofs.AndOr.InPlace
import ProofSearch.Proofs.AndOr.Settling

/-!
# Links between nodes

Goals, clusters and applications refer to each other by number.  In a linked tree these references
are mutual and lead upwards to the root.

1. `Linked`: each node is listed where it says it belongs, and a goal is younger than the goal above
   it.
2. `Upward`: a list of levels that leads from a goal to the root; `Linked.upward_path` says that
   `path` is one.
3. `SameLinks`: two trees with the same references; settling and changes of a goal's own data are
   of this kind.
4. `Growth`: what adding an application does to a tree, node by node (`growth_addNodes`).
5. `linked_ofGoal`, `SameLinks.linked`, `Growth.linked`: every operation keeps a tree linked.
-/

namespace ProofSearch

namespace Tree

/-- References between nodes are mutual, and they lead to the root. -/
structure Linked (t : Tree) : Prop where
  root : t.HasGoal Tree.root
  rootCluster : t.HasCluster Tree.rootCluster ∧ (t.cluster Tree.rootCluster).parent = none ∧
    (t.cluster Tree.rootCluster).goals = [Tree.root]
  home : ∀ g, t.HasGoal g →
    t.HasCluster (t.goal g).cluster ∧ g ∈ (t.cluster (t.goal g).cluster).goals
  member : ∀ c, t.HasCluster c → ∀ g ∈ (t.cluster c).goals, t.HasGoal g ∧ (t.goal g).cluster = c
  clusterParent : ∀ c r, t.HasCluster c → (t.cluster c).parent = some r →
    t.HasApplication r ∧ c ∈ (t.application r).clusters
  clusterChild : ∀ r, t.HasApplication r → ∀ c ∈ (t.application r).clusters,
    t.HasCluster c ∧ (t.cluster c).parent = some r
  applicationParent : ∀ r, t.HasApplication r →
    t.HasGoal (t.application r).parent ∧ r ∈ (t.goal (t.application r).parent).applications
  applicationChild : ∀ g, t.HasGoal g → ∀ r ∈ (t.goal g).applications,
    t.HasApplication r ∧ (t.application r).parent = g
  parentless : ∀ c, t.HasCluster c → (t.cluster c).parent = none → c = Tree.rootCluster
  nonempty : ∀ c, t.HasCluster c → (t.cluster c).goals ≠ []
  earlier : ∀ g r, t.HasGoal g → t.parentApplication? g = some r →
    (t.application r).parent.index < g.index

/-! ## Paths -/

/-- Levels that lead from a goal to the root, each with the nodes that the tree names. -/
inductive Upward (t : Tree) : GoalId → List Level → Prop
  | top {g : GoalId} : (t.cluster (t.goal g).cluster).parent = none →
      Upward t g [⟨g, (t.goal g).cluster, none⟩]
  | step {g : GoalId} {r : ApplicationId} {path : List Level} :
      (t.cluster (t.goal g).cluster).parent = some r → Upward t (t.application r).parent path →
      Upward t g (⟨g, (t.goal g).cluster, some r⟩ :: path)

theorem Linked.upward_levels {t : Tree} (h : t.Linked) (n : Nat) :
    ∀ g, t.HasGoal g → g.index < n → t.Upward g (t.levels n g) := by
  induction n with
  | zero => intro g _ hn; omega
  | succ n ih =>
    intro g hg hn
    rw [levels]
    cases hp : (t.cluster (t.goal g).cluster).parent with
    | none => exact .top hp
    | some r =>
      have hr := (h.clusterParent _ r (h.home g hg).1 hp).1
      have hlt := h.earlier g r hg hp
      exact .step hp (ih _ (h.applicationParent r hr).1 (by omega))

/-- The path of a goal leads to the root. -/
theorem Linked.upward_path {t : Tree} (h : t.Linked) {g : GoalId} (hg : t.HasGoal g) :
    t.Upward g (t.path g) :=
  h.upward_levels _ g hg (Nat.lt_succ_self _)

/-- The application above a goal exists, and so does the goal above that. -/
theorem Linked.has_parent {t : Tree} (h : t.Linked) {g : GoalId} {r : ApplicationId}
    (hg : t.HasGoal g) (hr : t.parentApplication? g = some r) :
    t.HasApplication r ∧ t.HasGoal (t.application r).parent := by
  have hhas := (h.clusterParent _ r (h.home g hg).1 hr).1
  exact ⟨hhas, (h.applicationParent r hhas).1⟩

/-! ## Changes that keep links -/

/-- Both trees have the same nodes with the same references. -/
structure SameLinks (t t' : Tree) : Prop where
  goals_size : t'.goals.size = t.goals.size
  applications_size : t'.applications.size = t.applications.size
  clusters_size : t'.clusters.size = t.clusters.size
  home : ∀ g, (t'.goal g).cluster = (t.goal g).cluster
  applications : ∀ g, (t'.goal g).applications = (t.goal g).applications
  parent : ∀ r, (t'.application r).parent = (t.application r).parent
  clusters : ∀ r, (t'.application r).clusters = (t.application r).clusters
  above : ∀ c, (t'.cluster c).parent = (t.cluster c).parent
  members : ∀ c, (t'.cluster c).goals = (t.cluster c).goals

namespace SameLinks

variable {t t' : Tree}

theorem symm (h : t.SameLinks t') : t'.SameLinks t where
  goals_size := h.goals_size.symm
  applications_size := h.applications_size.symm
  clusters_size := h.clusters_size.symm
  home := fun g => (h.home g).symm
  applications := fun g => (h.applications g).symm
  parent := fun r => (h.parent r).symm
  clusters := fun r => (h.clusters r).symm
  above := fun c => (h.above c).symm
  members := fun c => (h.members c).symm

theorem trans {u : Tree} (h : t.SameLinks t') (h' : t'.SameLinks u) : t.SameLinks u where
  goals_size := h'.goals_size.trans h.goals_size
  applications_size := h'.applications_size.trans h.applications_size
  clusters_size := h'.clusters_size.trans h.clusters_size
  home := fun g => (h'.home g).trans (h.home g)
  applications := fun g => (h'.applications g).trans (h.applications g)
  parent := fun r => (h'.parent r).trans (h.parent r)
  clusters := fun r => (h'.clusters r).trans (h.clusters r)
  above := fun c => (h'.above c).trans (h.above c)
  members := fun c => (h'.members c).trans (h.members c)

theorem hasGoal (h : t.SameLinks t') {g : GoalId} : t'.HasGoal g ↔ t.HasGoal g := by
  simp only [HasGoal, h.goals_size]

theorem hasApplication (h : t.SameLinks t') {r : ApplicationId} :
    t'.HasApplication r ↔ t.HasApplication r := by
  simp only [HasApplication, h.applications_size]

theorem parentApplication?_eq (h : t.SameLinks t') (g : GoalId) :
    t'.parentApplication? g = t.parentApplication? g := by
  rw [parentApplication?, parentApplication?, h.home, h.above]

theorem hasCluster (h : t.SameLinks t') {c : ClusterId} : t'.HasCluster c ↔ t.HasCluster c := by
  simp only [HasCluster, h.clusters_size]

theorem linked (h : t.SameLinks t') (hl : t.Linked) : t'.Linked := by
  constructor <;>
    simp only [h.hasGoal, h.hasApplication, h.hasCluster, h.home, h.applications, h.parent,
      h.clusters, h.above, h.members, parentApplication?]
  · exact hl.root
  · exact hl.rootCluster
  · exact hl.home
  · exact hl.member
  · exact hl.clusterParent
  · exact hl.clusterChild
  · exact hl.applicationParent
  · exact hl.applicationChild
  · exact hl.parentless
  · exact hl.nonempty
  · exact hl.earlier

theorem upward (h : t.SameLinks t') {g : GoalId} {path : List Level} (hu : t.Upward g path) :
    t'.Upward g path := by
  induction hu with
  | @top g hp =>
    rw [← h.home]
    exact .top (by rw [h.home, h.above, hp])
  | @step g r path hp _ ih =>
    rw [← h.home]
    exact .step (by rw [h.home, h.above, hp]) (by rw [h.parent]; exact ih)

end SameLinks

/-- A change of one goal that leaves its references alone. -/
theorem sameLinks_modifyGoal (t : Tree) (g : GoalId) {f : Goal → Goal}
    (hhome : ∀ a, (f a).cluster = a.cluster) (happs : ∀ a, (f a).applications = a.applications) :
    t.SameLinks (t.modifyGoal g f) := by
  refine ⟨by simp [modifyGoal], rfl, rfl, fun k => ?_, fun k => ?_, fun _ => rfl, fun _ => rfl,
    fun _ => rfl, fun _ => rfl⟩
  · rw [goal_modifyGoal]
    split
    · exact hhome _
    · rfl
  · rw [goal_modifyGoal]
    split
    · exact happs _
    · rfl

namespace Settling

variable {t t' : Tree}

theorem home_eq (h : t.Settling t') (g : GoalId) : (t'.goal g).cluster = (t.goal g).cluster := by
  rw [(h.goal g).eq]

theorem applications_eq (h : t.Settling t') (g : GoalId) :
    (t'.goal g).applications = (t.goal g).applications := by
  rw [(h.goal g).eq]

theorem parent_eq (h : t.Settling t') (r : ApplicationId) :
    (t'.application r).parent = (t.application r).parent := by
  rw [(h.application r).eq]

theorem clusters_eq (h : t.Settling t') (r : ApplicationId) :
    (t'.application r).clusters = (t.application r).clusters := by
  rw [(h.application r).eq]

theorem above_eq (h : t.Settling t') (c : ClusterId) :
    (t'.cluster c).parent = (t.cluster c).parent := by
  rw [(h.cluster c).eq]

theorem members_eq (h : t.Settling t') (c : ClusterId) :
    (t'.cluster c).goals = (t.cluster c).goals := by
  rw [(h.cluster c).eq]

theorem isExhausted_eq (h : t.Settling t') (g : GoalId) :
    (t'.goal g).isExhausted = (t.goal g).isExhausted := by
  rw [(h.goal g).eq]
  rfl

theorem forced_eq (h : t.Settling t') (g : GoalId) : (t'.goal g).forced = (t.goal g).forced := by
  rw [(h.goal g).eq]

theorem sameLinks (h : t.Settling t') : t.SameLinks t' :=
  ⟨h.goals_size, h.applications_size, h.clusters_size, h.home_eq, h.applications_eq, h.parent_eq,
    h.clusters_eq, h.above_eq, h.members_eq⟩

theorem hasGoal (h : t.Settling t') {g : GoalId} : t'.HasGoal g ↔ t.HasGoal g :=
  h.sameLinks.hasGoal

theorem hasApplication (h : t.Settling t') {r : ApplicationId} :
    t'.HasApplication r ↔ t.HasApplication r := h.sameLinks.hasApplication

theorem hasCluster (h : t.Settling t') {c : ClusterId} : t'.HasCluster c ↔ t.HasCluster c :=
  h.sameLinks.hasCluster

theorem linked (h : t.Settling t') (hl : t.Linked) : t'.Linked := h.sameLinks.linked hl

theorem upward (h : t.Settling t') {g : GoalId} {path : List Level} (hu : t.Upward g path) :
    t'.Upward g path := h.sameLinks.upward hu

end Settling

/-! ## Adding nodes -/

/-- `t'` is `t` with a cluster below `r` for each group of subgoals. -/
structure ClustersAdded (r : ApplicationId) (make : ClusterId → Subgoal → Goal)
    (groups : List (List Subgoal)) (t t' : Tree) : Prop where
  goals_size : t'.goals.size = t.goals.size + groups.flatten.length
  applications : t'.applications = t.applications
  clusters_size : t'.clusters.size = t.clusters.size + groups.length
  rootState : t'.rootState = t.rootState
  goal_old : ∀ g, t.HasGoal g → t'.goal g = t.goal g
  cluster_old : ∀ c, t.HasCluster c → t'.cluster c = t.cluster c
  cluster_new : ∀ c, ¬ t.HasCluster c → t'.HasCluster c →
    (t'.cluster c).parent = some r ∧ (t'.cluster c).state = .unknown ∧
    (t'.cluster c).irrelevant = false ∧ (t'.cluster c).goals ≠ [] ∧
    ∀ g ∈ (t'.cluster c).goals, ¬ t.HasGoal g ∧ t'.HasGoal g ∧ (t'.goal g).cluster = c
  goal_new : ∀ g, ¬ t.HasGoal g → t'.HasGoal g → ∃ c s, ¬ t.HasCluster c ∧ t'.HasCluster c ∧
    g ∈ (t'.cluster c).goals ∧ s ∈ groups.flatten ∧ t'.goal g = make c s
  goal_at : ∀ i s, groups.flatten[i]? = some s → ∃ c, t'.goal ⟨t.goals.size + i⟩ = make c s

theorem clustersAdded_addCluster (t : Tree) (r : ApplicationId)
    {make : ClusterId → Subgoal → Goal} (hmake : ∀ c s, (make c s).cluster = c)
    {members : List Subgoal} (hne : members ≠ []) :
    ClustersAdded r make [members] t (t.addCluster r make members) := by
  have hold (g : GoalId) (hg : t.HasGoal g) :
      (t.addCluster r make members).goal g = t.goal g := by
    simp only [HasGoal] at hg
    simp [goal, addCluster, Array.getD_eq_getD_getElem?, Array.getElem?_append, hg]
  have hnew (i : Nat) (hi : i < members.length) :
      (t.addCluster r make members).goal ⟨t.goals.size + i⟩
        = make ⟨t.clusters.size⟩ members[i] := by
    simp [goal, addCluster, Array.getD_eq_getD_getElem?, hi]
  have hcl : (t.addCluster r make members).cluster ⟨t.clusters.size⟩ =
      ⟨some r, (List.range members.length).map (⟨t.goals.size + ·⟩), .unknown, false⟩ := by
    simp [cluster, addCluster, Array.getD_eq_getD_getElem?]
  have hsize : (t.addCluster r make members).goals.size = t.goals.size + members.length := by
    simp [addCluster]
  refine ⟨by simpa using hsize, rfl, by simp [addCluster], rfl, hold, ?_, ?_, ?_, ?_⟩
  · intro c hc
    simp only [HasCluster] at hc
    simp [cluster, addCluster, Array.getD_eq_getD_getElem?, Array.getElem?_push, Nat.ne_of_lt hc]
  · intro c hc hc'
    have hi : c = ⟨t.clusters.size⟩ := by
      obtain ⟨i⟩ := c
      simp only [HasCluster, addCluster, Array.size_push] at hc hc'
      simp only [ClusterId.mk.injEq]
      omega
    subst hi
    refine ⟨by rw [hcl], by rw [hcl], by rw [hcl], ?_, ?_⟩
    · rw [hcl]
      simpa using hne
    · intro g hg
      rw [hcl] at hg
      simp only [List.mem_map, List.mem_range] at hg
      obtain ⟨i, hi, rfl⟩ := hg
      refine ⟨by simp [HasGoal], ?_, ?_⟩
      · simp only [HasGoal, hsize]
        omega
      · rw [hnew i hi, hmake]
  · intro g hg hg'
    obtain ⟨k⟩ := g
    simp only [HasGoal, hsize] at hg hg'
    obtain ⟨i, rfl⟩ : ∃ i, k = t.goals.size + i := ⟨k - t.goals.size, by omega⟩
    have hi : i < members.length := by omega
    refine ⟨⟨t.clusters.size⟩, members[i], by simp [HasCluster],
      by simp [HasCluster, addCluster], ?_, by simp, hnew i hi⟩
    rw [hcl]
    simp only [List.mem_map, List.mem_range]
    exact ⟨i, hi, rfl⟩
  · intro i s hs
    obtain ⟨hi, rfl⟩ := List.getElem?_eq_some_iff.1 (by simpa using hs)
    exact ⟨_, hnew i hi⟩

theorem ClustersAdded.trans {r : ApplicationId} {make : ClusterId → Subgoal → Goal}
    {gs hs : List (List Subgoal)} {t u v : Tree} (h : ClustersAdded r make gs t u)
    (h' : ClustersAdded r make hs u v) : ClustersAdded r make (gs ++ hs) t v where
  goals_size := by rw [h'.goals_size, h.goals_size]; simp; omega
  applications := h'.applications.trans h.applications
  clusters_size := by rw [h'.clusters_size, h.clusters_size]; simp; omega
  rootState := h'.rootState.trans h.rootState
  goal_old := fun g hg => by
    have hu : u.HasGoal g := by simp only [HasGoal, h.goals_size] at hg ⊢; omega
    rw [h'.goal_old g hu, h.goal_old g hg]
  cluster_old := fun c hc => by
    have hu : u.HasCluster c := by simp only [HasCluster, h.clusters_size] at hc ⊢; omega
    rw [h'.cluster_old c hu, h.cluster_old c hc]
  cluster_new := fun c hc hc' => by
    by_cases hu : u.HasCluster c
    · obtain ⟨h1, h2, h3, h4, h5⟩ := h.cluster_new c hc hu
      rw [h'.cluster_old c hu]
      refine ⟨h1, h2, h3, h4, fun g hg => ?_⟩
      obtain ⟨hg1, hg2, hg3⟩ := h5 g hg
      refine ⟨hg1, ?_, by rw [h'.goal_old g hg2, hg3]⟩
      simp only [HasGoal, h'.goals_size] at hg2 ⊢
      omega
    · obtain ⟨h1, h2, h3, h4, h5⟩ := h'.cluster_new c hu hc'
      refine ⟨h1, h2, h3, h4, fun g hg => ?_⟩
      obtain ⟨hg1, hg2, hg3⟩ := h5 g hg
      refine ⟨fun ht => hg1 ?_, hg2, hg3⟩
      simp only [HasGoal, h.goals_size] at ht ⊢
      omega
  goal_new := fun g hg hg' => by
    by_cases hu : u.HasGoal g
    · obtain ⟨c, s, hc, hc', hm, hs, he⟩ := h.goal_new g hg hu
      refine ⟨c, s, hc, ?_, by rw [h'.cluster_old c hc']; exact hm, by simp [hs],
        by rw [h'.goal_old g hu, he]⟩
      simp only [HasCluster, h'.clusters_size] at hc' ⊢
      omega
    · obtain ⟨c, s, hc, hc', hm, hs, he⟩ := h'.goal_new g hu hg'
      refine ⟨c, s, fun ht => hc ?_, hc', hm, by simp [hs], he⟩
      simp only [HasCluster, h.clusters_size] at ht ⊢
      omega
  goal_at := fun i s hi => by
    rw [List.flatten_append] at hi
    by_cases hlt : i < gs.flatten.length
    · rw [List.getElem?_append_left hlt] at hi
      obtain ⟨c, hc⟩ := h.goal_at i s hi
      have hu : u.HasGoal ⟨t.goals.size + i⟩ := by simp only [HasGoal, h.goals_size]; omega
      exact ⟨c, by rw [h'.goal_old _ hu, hc]⟩
    · rw [List.getElem?_append_right (by omega)] at hi
      obtain ⟨c, hc⟩ := h'.goal_at _ s hi
      rw [h.goals_size] at hc
      rw [show t.goals.size + i =
        t.goals.size + gs.flatten.length + (i - gs.flatten.length) by omega]
      exact ⟨c, hc⟩

theorem clustersAdded_foldl (r : ApplicationId) {make : ClusterId → Subgoal → Goal}
    (hmake : ∀ c s, (make c s).cluster = c) (groups : List (List Subgoal)) (t : Tree)
    (hne : ∀ members ∈ groups, members ≠ []) :
    ClustersAdded r make groups t
      (groups.foldl (fun t members => t.addCluster r make members) t) := by
  induction groups generalizing t with
  | nil =>
    refine ⟨by simp, rfl, by simp, rfl, fun _ _ => rfl, fun _ _ => rfl, ?_, ?_, by simp⟩
    · intro c hc hc'
      exact absurd hc' hc
    · intro g hg hg'
      exact absurd hg' hg
  | cons members groups ih =>
    exact (clustersAdded_addCluster t r hmake (hne members (by simp))).trans
      (ih _ fun ms h => hne ms (by simp [h]))

/-- An application that was just added, with its clusters. -/
def newNode (new : NewApplication) (clusters : List ClusterId) : Application where
  parent := new.parent
  clusters := clusters
  state := .unknown
  irrelevant := false
  rule := new.rule
  post := new.post
  introduced := new.introduced
  assigned := new.assigned
  probability := new.probability

/-- `t'` is `t` with the application `new` below its goal, one cluster for each group. -/
structure Growth (new : NewApplication) (copies : List GoalCopy) (groups : List (List Subgoal))
    (t t' : Tree) : Prop where
  goals_size : t'.goals.size = t.goals.size + groups.flatten.length
  applications_size : t'.applications.size = t.applications.size + 1
  clusters_size : t'.clusters.size = t.clusters.size + groups.length
  rootState : t'.rootState = t.rootState
  goal_parent : t'.goal new.parent = { t.goal new.parent with
    applications := (t.goal new.parent).applications ++ [⟨t.applications.size⟩] }
  goal_old : ∀ g, t.HasGoal g → g ≠ new.parent → t'.goal g = t.goal g
  application_old : ∀ r, t.HasApplication r → t'.application r = t.application r
  cluster_old : ∀ c, t.HasCluster c → t'.cluster c = t.cluster c
  application_new : t'.application ⟨t.applications.size⟩ =
    newNode new ((List.range groups.length).map (⟨t.clusters.size + ·⟩))
  cluster_new : ∀ c, ¬ t.HasCluster c → t'.HasCluster c →
    (t'.cluster c).parent = some ⟨t.applications.size⟩ ∧ (t'.cluster c).state = .unknown ∧
    (t'.cluster c).irrelevant = false ∧ (t'.cluster c).goals ≠ [] ∧
    ∀ g ∈ (t'.cluster c).goals, ¬ t.HasGoal g ∧ t'.HasGoal g ∧ (t'.goal g).cluster = c
  goal_new : ∀ g, ¬ t.HasGoal g → t'.HasGoal g → ∃ c s, ¬ t.HasCluster c ∧ t'.HasCluster c ∧
    g ∈ (t'.cluster c).goals ∧ s ∈ groups.flatten ∧ t'.goal g = t.makeGoal new copies c s
  goal_at : ∀ i s, groups.flatten[i]? = some s →
    ∃ c, t'.goal ⟨t.goals.size + i⟩ = t.makeGoal new copies c s

theorem growth_addNodes (t : Tree) {new : NewApplication} (hp : t.HasGoal new.parent)
    (copies : List GoalCopy) {groups : List (List Subgoal)}
    (hne : ∀ members ∈ groups, members ≠ []) :
    Growth new copies groups t (t.addNodes new copies groups) := by
  obtain ⟨u, hu⟩ : ∃ u, groups.foldl (fun t' members =>
      t'.addCluster ⟨t.applications.size⟩ (t.makeGoal new copies) members) t = u := ⟨_, rfl⟩
  have h := hu ▸ clustersAdded_foldl ⟨t.applications.size⟩ (fun _ _ => rfl) groups t hne
  have happs : (t.addNodes new copies groups).applications = t.applications.push
      (newNode new ((List.range groups.length).map (⟨t.clusters.size + ·⟩))) := by
    rw [← h.applications, ← hu]
    rfl
  have hgoal (g : GoalId) (hg : g ≠ new.parent) :
      (t.addNodes new copies groups).goal g = u.goal g := by
    rw [addNodes, goal_modifyGoal, if_neg (fun hc => hg hc.1), ← hu]
    rfl
  have hnot {g : GoalId} (hg : ¬ t.HasGoal g) : g ≠ new.parent := fun he => hg (he ▸ hp)
  have hsize : (t.addNodes new copies groups).goals.size = u.goals.size := by
    simp [addNodes, modifyGoal, hu]
  have hcluster : (t.addNodes new copies groups).clusters = u.clusters := by
    rw [← hu]
    rfl
  have hcl (c : ClusterId) : (t.addNodes new copies groups).cluster c = u.cluster c := by
    simp only [cluster, hcluster]
  have hhas {g : GoalId} : (t.addNodes new copies groups).HasGoal g ↔ u.HasGoal g := by
    simp only [HasGoal, hsize]
  have hhasc {c : ClusterId} : (t.addNodes new copies groups).HasCluster c ↔ u.HasCluster c := by
    simp only [HasCluster, hcluster]
  refine ⟨by rw [hsize, h.goals_size], by rw [happs, Array.size_push],
    by rw [hcluster, h.clusters_size], ?_, ?_, ?_, ?_, ?_, ?_, ?_, ?_, ?_⟩
  · rw [← h.rootState, ← hu]
    rfl
  · have hp' : u.HasGoal new.parent := by
      simp only [HasGoal, h.goals_size] at hp ⊢
      omega
    rw [← hu] at hp'
    rw [addNodes, goal_modifyGoal, if_pos ⟨rfl, hp'⟩]
    have := h.goal_old _ hp
    rw [← hu] at this
    exact congrArg (fun goal : Goal => { goal with
      applications := goal.applications ++ [ApplicationId.mk t.applications.size] }) this
  · intro g hg hne
    rw [hgoal g hne, h.goal_old g hg]
  · intro r hr
    simp only [HasApplication] at hr
    simp [application, Array.getD_eq_getD_getElem?, happs, Array.getElem?_push, Nat.ne_of_lt hr]
  · intro c hc
    rw [hcl, h.cluster_old c hc]
  · simp [application, Array.getD_eq_getD_getElem?, happs]
  · intro c hc hc'
    rw [hcl]
    obtain ⟨h1, h2, h3, h4, h5⟩ := h.cluster_new c hc (hhasc.1 hc')
    refine ⟨h1, h2, h3, h4, fun g hg => ?_⟩
    obtain ⟨hg1, hg2, hg3⟩ := h5 g hg
    exact ⟨hg1, hhas.2 hg2, by rw [hgoal g (hnot hg1), hg3]⟩
  · intro g hg hg'
    obtain ⟨c, s, hc, hc', hm, hs, he⟩ := h.goal_new g hg (hhas.1 hg')
    exact ⟨c, s, hc, hhasc.2 hc', by rw [hcl]; exact hm, hs, by rw [hgoal g (hnot hg), he]⟩
  · intro i s hi
    obtain ⟨c, hc⟩ := h.goal_at i s hi
    exact ⟨c, by rw [hgoal _ (hnot (by simp [HasGoal])), hc]⟩

/-! ## Operations keep links -/

section

variable {goal : Var} {vars : VarSet} {state : Snapshot}

/-- The tree of a goal has the root only. -/
theorem hasGoal_ofGoal {g : GoalId} : (ofGoal goal vars state).HasGoal g ↔ g = Tree.root := by
  obtain ⟨i⟩ := g
  simp [HasGoal, ofGoal, Tree.root]

theorem hasCluster_ofGoal {c : ClusterId} :
    (ofGoal goal vars state).HasCluster c ↔ c = Tree.rootCluster := by
  obtain ⟨i⟩ := c
  simp [HasCluster, ofGoal, Tree.rootCluster]

theorem not_hasApplication_ofGoal {r : ApplicationId} :
    ¬ (ofGoal goal vars state).HasApplication r := by
  simp [HasApplication, ofGoal]

end

theorem linked_ofGoal (goal : Var) (vars : VarSet) (state : Snapshot) :
    (ofGoal goal vars state).Linked := by
  have hc {c : ClusterId} (h : (ofGoal goal vars state).HasCluster c) : c = Tree.rootCluster :=
    hasCluster_ofGoal.1 h
  have hg {g : GoalId} (h : (ofGoal goal vars state).HasGoal g) : g = Tree.root :=
    hasGoal_ofGoal.1 h
  have hr {r : ApplicationId} (h : (ofGoal goal vars state).HasApplication r) : False :=
    not_hasApplication_ofGoal h
  have h0 : (ofGoal goal vars state).HasCluster Tree.rootCluster := hasCluster_ofGoal.2 rfl
  have h1 : (ofGoal goal vars state).HasGoal Tree.root := hasGoal_ofGoal.2 rfl
  have hmem : Tree.root ∈ ((ofGoal goal vars state).cluster Tree.rootCluster).goals :=
    List.mem_singleton.2 rfl
  refine ⟨h1, ⟨h0, rfl, rfl⟩, ?_, ?_, ?_, ?_, ?_, ?_, ?_, ?_, ?_⟩
  · intro g h
    rw [hg h]
    exact ⟨h0, hmem⟩
  · intro c h g hm
    rw [hc h] at hm ⊢
    rw [List.mem_singleton.1 hm]
    exact ⟨h1, rfl⟩
  · intro c r h hp
    rw [hc h] at hp
    cases hp
  · intro r h
    exact (hr h).elim
  · intro r h
    exact (hr h).elim
  · intro g h r hm
    rw [hg h] at hm
    cases hm
  · intro c h _
    exact hc h
  · intro c h he
    rw [hc h] at he
    cases he
  · intro g r h hp
    rw [hg h] at hp
    cases hp

namespace Growth

variable {new : NewApplication} {copies : List GoalCopy} {groups : List (List Subgoal)}
  {t t' : Tree}

theorem hasGoal (h : Growth new copies groups t t') {g : GoalId} (hg : t.HasGoal g) :
    t'.HasGoal g := by
  simp only [HasGoal, h.goals_size] at hg ⊢
  omega

theorem hasApplication (h : Growth new copies groups t t') {r : ApplicationId} :
    t'.HasApplication r ↔ t.HasApplication r ∨ r = ⟨t.applications.size⟩ := by
  obtain ⟨i⟩ := r
  simp only [HasApplication, h.applications_size, ApplicationId.mk.injEq]
  omega

theorem hasCluster (h : Growth new copies groups t t') {c : ClusterId} (hc : t.HasCluster c) :
    t'.HasCluster c := by
  simp only [HasCluster, h.clusters_size] at hc ⊢
  omega

/-- The clusters of the new application are the new clusters. -/
theorem mem_clusters_new (h : Growth new copies groups t t') {c : ClusterId} :
    c ∈ (t'.application ⟨t.applications.size⟩).clusters ↔ ¬ t.HasCluster c ∧ t'.HasCluster c := by
  obtain ⟨i⟩ := c
  rw [h.application_new]
  simp only [newNode, List.mem_map, List.mem_range, ClusterId.mk.injEq, HasCluster, h.clusters_size]
  constructor
  · rintro ⟨k, hk, rfl⟩
    omega
  · intro hi
    exact ⟨i - t.clusters.size, by omega, by omega⟩

/-- An added application changes nothing of the goals but their lists of applications. -/
theorem exists_goal_eq (h : Growth new copies groups t t') {g : GoalId} (hg : t.HasGoal g) :
    ∃ rs, t'.goal g = { t.goal g with applications := rs } := by
  by_cases hp : g = new.parent
  · exact ⟨_, hp ▸ h.goal_parent⟩
  · exact ⟨_, h.goal_old g hg hp⟩

/-- A goal gets the application, is left alone or is one of the subgoals. -/
theorem goal_cases (h : Growth new copies groups t t') (g : GoalId) :
    (g = new.parent ∧ t'.goal g = { t.goal g with
      applications := (t.goal g).applications ++ [⟨t.applications.size⟩] }) ∨
    t'.goal g = t.goal g ∨
    ¬ t.HasGoal g ∧ ∃ c s, s ∈ groups.flatten ∧ t'.goal g = t.makeGoal new copies c s := by
  by_cases hp : g = new.parent
  · exact .inl ⟨hp, hp ▸ h.goal_parent⟩
  by_cases hg : t.HasGoal g
  · exact .inr (.inl (h.goal_old g hg hp))
  by_cases hg' : t'.HasGoal g
  · obtain ⟨c, s, -, -, -, hs, he⟩ := h.goal_new g hg hg'
    exact .inr (.inr ⟨hg, c, s, hs, he⟩)
  · rw [goal_of_not_has hg, goal_of_not_has hg']
    exact .inr (.inl rfl)

theorem home_old (h : Growth new copies groups t t') {g : GoalId} (hg : t.HasGoal g) :
    (t'.goal g).cluster = (t.goal g).cluster := by
  obtain ⟨rs, he⟩ := h.exists_goal_eq hg
  rw [he]

/-- What is above an old goal stays there. -/
theorem parentApplication?_old (h : Growth new copies groups t t') (hl : t.Linked) {g : GoalId}
    (hg : t.HasGoal g) : t'.parentApplication? g = t.parentApplication? g := by
  rw [parentApplication?, parentApplication?, h.home_old hg, h.cluster_old _ (hl.home g hg).1]

/-- An old goal keeps what is recorded of it. -/
theorem recorded (h : Growth new copies groups t t') {g : GoalId} (hg : t.HasGoal g) :
    (t'.goal g).var = (t.goal g).var ∧ (t'.goal g).norm = (t.goal g).norm ∧
      (t'.goal g).vars = (t.goal g).vars ∧ (t'.goal g).origin = (t.goal g).origin := by
  obtain ⟨rs, he⟩ := h.exists_goal_eq hg
  rw [he]
  exact ⟨rfl, rfl, rfl, rfl⟩

theorem mem_applications (h : Growth new copies groups t t') {g : GoalId} (hg : t.HasGoal g)
    {r : ApplicationId} : r ∈ (t'.goal g).applications ↔
      r ∈ (t.goal g).applications ∨ g = new.parent ∧ r = ⟨t.applications.size⟩ := by
  by_cases hp : g = new.parent
  · rw [hp, h.goal_parent]
    simp
  · rw [h.goal_old g hg hp]
    simp [hp]

theorem applications_new (h : Growth new copies groups t t') {g : GoalId} (hg : ¬ t.HasGoal g)
    (hg' : t'.HasGoal g) : (t'.goal g).applications = [] := by
  obtain ⟨c, s, -, -, -, -, he⟩ := h.goal_new g hg hg'
  rw [he]
  rfl

theorem linked (h : Growth new copies groups t t') (hl : t.Linked) (hp : t.HasGoal new.parent) :
    t'.Linked := by
  have hold {c : ClusterId} (hc : t.HasCluster c) := h.cluster_old c hc
  refine ⟨h.hasGoal hl.root, ?_, ?_, ?_, ?_, ?_, ?_, ?_, ?_, ?_, ?_⟩
  · rw [hold hl.rootCluster.1]
    exact ⟨h.hasCluster hl.rootCluster.1, hl.rootCluster.2⟩
  · intro g hg
    by_cases hg' : t.HasGoal g
    · rw [h.home_old hg', hold (hl.home g hg').1]
      exact ⟨h.hasCluster (hl.home g hg').1, (hl.home g hg').2⟩
    · obtain ⟨c, s, hc, hc', hm, -, he⟩ := h.goal_new g hg' hg
      have hcl : (t'.goal g).cluster = c := by rw [he]; rfl
      rw [hcl]
      exact ⟨hc', hm⟩
  · intro c hc g hm
    by_cases hc' : t.HasCluster c
    · rw [hold hc'] at hm
      obtain ⟨hg, he⟩ := hl.member c hc' g hm
      exact ⟨h.hasGoal hg, by rw [h.home_old hg, he]⟩
    · exact ((h.cluster_new c hc' hc).2.2.2.2 g hm).2
  · intro c r hc hr
    by_cases hc' : t.HasCluster c
    · rw [hold hc'] at hr
      obtain ⟨ha, hm⟩ := hl.clusterParent c r hc' hr
      exact ⟨h.hasApplication.2 (.inl ha), by rw [h.application_old r ha]; exact hm⟩
    · rw [(h.cluster_new c hc' hc).1] at hr
      cases hr
      exact ⟨h.hasApplication.2 (.inr rfl), h.mem_clusters_new.2 ⟨hc', hc⟩⟩
  · intro r hr c hm
    rcases h.hasApplication.1 hr with ha | rfl
    · rw [h.application_old r ha] at hm
      obtain ⟨hc, he⟩ := hl.clusterChild r ha c hm
      exact ⟨h.hasCluster hc, by rw [hold hc, he]⟩
    · obtain ⟨hc, hc'⟩ := h.mem_clusters_new.1 hm
      exact ⟨hc', (h.cluster_new c hc hc').1⟩
  · intro r hr
    rcases h.hasApplication.1 hr with ha | rfl
    · rw [h.application_old r ha]
      obtain ⟨hg, hm⟩ := hl.applicationParent r ha
      exact ⟨h.hasGoal hg, (h.mem_applications hg).2 (.inl hm)⟩
    · rw [h.application_new]
      exact ⟨h.hasGoal hp, (h.mem_applications hp).2 (.inr ⟨rfl, rfl⟩)⟩
  · intro g hg r hm
    by_cases hg' : t.HasGoal g
    · rcases (h.mem_applications hg').1 hm with hm | ⟨rfl, rfl⟩
      · obtain ⟨ha, he⟩ := hl.applicationChild g hg' r hm
        exact ⟨h.hasApplication.2 (.inl ha), by rw [h.application_old r ha, he]⟩
      · exact ⟨h.hasApplication.2 (.inr rfl), by rw [h.application_new]; rfl⟩
    · rw [h.applications_new hg' hg] at hm
      cases hm
  · intro c hc he
    by_cases hc' : t.HasCluster c
    · rw [hold hc'] at he
      exact hl.parentless c hc' he
    · rw [(h.cluster_new c hc' hc).1] at he
      cases he
  · intro c hc
    by_cases hc' : t.HasCluster c
    · rw [hold hc']
      exact hl.nonempty c hc'
    · exact (h.cluster_new c hc' hc).2.2.2.1
  · intro g r hg hr
    by_cases hg' : t.HasGoal g
    · have hc := (hl.home g hg').1
      rw [parentApplication?, h.home_old hg', hold hc] at hr
      rw [h.application_old r (hl.clusterParent _ r hc hr).1]
      exact hl.earlier g r hg' hr
    · obtain ⟨c, s, hc, hc', hm, -, he⟩ := h.goal_new g hg' hg
      have hcl : (t'.goal g).cluster = c := by rw [he]; rfl
      rw [parentApplication?, hcl, (h.cluster_new c hc hc').1] at hr
      cases hr
      rw [h.application_new]
      simp only [HasGoal, newNode] at hp hg' ⊢
      omega

end Growth

end Tree

end ProofSearch
