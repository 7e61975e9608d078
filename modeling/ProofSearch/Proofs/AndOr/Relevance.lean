import ProofSearch.Proofs.AndOr.Consistency

/-!
# Why nodes are irrelevant

A node is marked irrelevant only when the node above it no longer needs it.

1. `Over`: a node that is decided or marked; `Excused`: the node above is over.
2. `Caused`: every marked node is excused.
3. `Caused.prune`, `Caused.spreadProven`, `Caused.spreadUnprovable` and the operations built from
   them keep this, and so does adding an application.
4. `exists_active`: below an undecided root there is an active goal for which rules are left.
-/

namespace ProofSearch

namespace Tree

/-- The node is marked irrelevant. -/
def Marked (t : Tree) : Node → Prop
  | .goal g => (t.goal g).irrelevant = true
  | .application r => (t.application r).irrelevant = true
  | .cluster c => (t.cluster c).irrelevant = true

/-- The node is decided or marked irrelevant. -/
def Over (t : Tree) : Node → Prop
  | .goal g => (t.goal g).state ≠ .unknown ∨ (t.goal g).irrelevant = true
  | .application r => (t.application r).state ≠ .unknown ∨ (t.application r).irrelevant = true
  | .cluster c => (t.cluster c).state ≠ .unknown ∨ (t.cluster c).irrelevant = true

/-- The node above is over. -/
def Excused (t : Tree) : Node → Prop
  | .goal g => t.Over (.cluster (t.goal g).cluster)
  | .application r => t.Over (.goal (t.application r).parent)
  | .cluster c => ∃ r, (t.cluster c).parent = some r ∧ t.Over (.application r)

/-- Every marked node is excused. -/
def Caused (t : Tree) : Prop := ∀ n, t.Marked n → t.Excused n

section

variable {t t' : Tree}

theorem Settling.over (h : t.Settling t') {n : Node} (ho : t.Over n) : t'.Over n := by
  cases n with
  | goal g => exact ho.imp (fun hs => (h.goal g).state hs ▸ hs) (h.goal g).mark
  | application r => exact ho.imp (fun hs => (h.application r).state hs ▸ hs) (h.application r).mark
  | cluster c => exact ho.imp (fun hs => (h.cluster c).state hs ▸ hs) (h.cluster c).mark

theorem Settling.excused (h : t.Settling t') {n : Node} (he : t.Excused n) : t'.Excused n := by
  cases n with
  | goal g =>
    show t'.Over (.cluster (t'.goal g).cluster)
    rw [h.home_eq]
    exact h.over he
  | application r =>
    show t'.Over (.goal (t'.application r).parent)
    rw [h.parent_eq]
    exact h.over he
  | cluster c =>
    obtain ⟨r, hr, ho⟩ := he
    exact ⟨r, by rw [h.above_eq, hr], h.over ho⟩

/-- Settling keeps causes if every new mark has one. -/
theorem Caused.settle (hc : t.Caused) (h : t.Settling t')
    (hnew : ∀ n, t'.Marked n → t.Marked n ∨ t'.Excused n) : t'.Caused := by
  intro n hn
  rcases hnew n hn with hn | he
  · exact h.excused (hc n hn)
  · exact he

theorem marked_markIrrelevant {n k : Node} (h : (t.markIrrelevant n).Marked k) :
    t.Marked k ∨ k = n := by
  cases n with
  | goal g =>
    cases k with
    | goal k =>
      simp only [Marked, markIrrelevant, goal_modifyGoal] at h
      split at h
      · next hk => exact .inr (by rw [hk.1])
      · exact .inl h
    | application r => exact .inl h
    | cluster c => exact .inl h
  | application r =>
    cases k with
    | goal k => exact .inl h
    | application q =>
      simp only [Marked, markIrrelevant, application_modifyApplication] at h
      split at h
      · next hq => exact .inr (by rw [hq.1])
      · exact .inl h
    | cluster c => exact .inl h
  | cluster c =>
    cases k with
    | goal k => exact .inl h
    | application q => exact .inl h
    | cluster d =>
      simp only [Marked, markIrrelevant, cluster_modifyCluster] at h
      split at h
      · next hd => exact .inr (by rw [hd.1])
      · exact .inl h

theorem Caused.markIrrelevant (hc : t.Caused) {n : Node} (he : t.Excused n) :
    (t.markIrrelevant n).Caused := by
  have hs := settling_markIrrelevant t n
  refine hc.settle hs fun k hk => ?_
  rcases marked_markIrrelevant hk with hk | rfl
  · exact .inl hk
  · exact .inr (hs.excused he)

/-- The nodes below a node that was just marked are excused. -/
theorem excused_children (hl : t.Linked) {n k : Node} (hr : t.isRelevant n = true)
    (hk : k ∈ t.children n) : (t.markIrrelevant n).Excused k := by
  have hs := settling_markIrrelevant t n
  cases n with
  | goal g =>
    have hg : t.HasGoal g := by
      by_contra hg
      simp [isRelevant, Array.getElem?_eq_none (Nat.le_of_not_lt hg)] at hr
    obtain ⟨r, hr, rfl⟩ := List.mem_map.1 hk
    show (t.markIrrelevant (.goal g)).Over (.goal ((t.markIrrelevant (.goal g)).application r).parent)
    rw [hs.parent_eq, (hl.applicationChild g hg r hr).2]
    refine .inr ?_
    rw [Tree.markIrrelevant, goal_modifyGoal, if_pos ⟨rfl, hg⟩]
  | application r =>
    have hr' : t.HasApplication r := by
      by_contra hr'
      simp [isRelevant, Array.getElem?_eq_none (Nat.le_of_not_lt hr')] at hr
    obtain ⟨c, hc, rfl⟩ := List.mem_map.1 hk
    refine ⟨r, by rw [hs.above_eq, (hl.clusterChild r hr' c hc).2], .inr ?_⟩
    rw [Tree.markIrrelevant, application_modifyApplication, if_pos ⟨rfl, hr'⟩]
  | cluster c =>
    have hc : t.HasCluster c := by
      by_contra hc
      simp [isRelevant, Array.getElem?_eq_none (Nat.le_of_not_lt hc)] at hr
    obtain ⟨g, hg, rfl⟩ := List.mem_map.1 hk
    show (t.markIrrelevant (.cluster c)).Over (.cluster ((t.markIrrelevant (.cluster c)).goal g).cluster)
    rw [hs.home_eq, (hl.member c hc g hg).2]
    refine .inr ?_
    rw [Tree.markIrrelevant, cluster_modifyCluster, if_pos ⟨rfl, hc⟩]

/-- Pruning excused nodes marks excused nodes only. -/
theorem Caused.prune {nodes : List Node} (hc : t.Caused) (hl : t.Linked)
    (hn : ∀ n ∈ nodes, t.Excused n) : (t.prune nodes).Caused := by
  fun_induction Tree.prune t nodes with
  | case1 t => exact hc
  | case2 t n rest hr ih =>
    have hs := settling_markIrrelevant t n
    refine ih (hc.markIrrelevant (hn n List.mem_cons_self)) (hs.linked hl) fun k hk => ?_
    rcases List.mem_append.1 hk with hk | hk
    · exact excused_children hl hr hk
    · exact hs.excused (hn k (List.mem_cons_of_mem _ hk))
  | case3 t n rest hr ih => exact ih hc hl fun k hk => hn k (List.mem_cons_of_mem _ hk)

/-! ## Settling operations -/

/-- A change of a goal that keeps its references, state and mark. -/
theorem Caused.modifyGoal (hc : t.Caused) {g : GoalId} {f : Goal → Goal}
    (hhome : ∀ a, (f a).cluster = a.cluster) (hstate : ∀ a, (f a).state = a.state)
    (hmark : ∀ a, (f a).irrelevant = a.irrelevant) : (t.modifyGoal g f).Caused := by
  have hgoal (k : GoalId) : ((t.modifyGoal g f).goal k).cluster = (t.goal k).cluster ∧
      ((t.modifyGoal g f).goal k).state = (t.goal k).state ∧
      ((t.modifyGoal g f).goal k).irrelevant = (t.goal k).irrelevant := by
    rw [goal_modifyGoal]
    split
    · exact ⟨hhome _, hstate _, hmark _⟩
    · exact ⟨rfl, rfl, rfl⟩
  intro n hn
  cases n with
  | goal k =>
    obtain ⟨hh, -, hm⟩ := hgoal k
    show t.Over (.cluster ((t.modifyGoal g f).goal k).cluster)
    rw [hh]
    exact hc (.goal k) (hm.symm.trans hn)
  | application r =>
    obtain ⟨-, hs, hm⟩ := hgoal (t.application r).parent
    have ho : t.Over (.goal (t.application r).parent) := hc (.application r) hn
    exact ho.imp (fun h => hs ▸ h) fun h => hm ▸ h
  | cluster c => exact hc (.cluster c) hn

theorem Caused.setGoalState (hc : t.Caused) {g : GoalId} {s : GoalState}
    (hu : (t.goal g).state = .unknown) : (t.setGoalState g s).Caused := by
  refine hc.settle (settling_setGoalState s hu) fun n hn => .inl ?_
  cases n with
  | goal k =>
    simp only [Marked, Tree.setGoalState, goal_modifyGoal] at hn
    split at hn <;> exact hn
  | application r => exact hn
  | cluster c => exact hn

theorem Caused.setApplicationState (hc : t.Caused) {r : ApplicationId} {s : NodeState}
    (hu : (t.application r).state = .unknown) : (t.setApplicationState r s).Caused := by
  refine hc.settle (settling_setApplicationState s hu) fun n hn => .inl ?_
  cases n with
  | goal k => exact hn
  | application q =>
    simp only [Marked, Tree.setApplicationState, application_modifyApplication] at hn
    split at hn <;> exact hn
  | cluster c => exact hn

theorem Caused.setClusterState (hc : t.Caused) {c : ClusterId} {s : NodeState}
    (hu : (t.cluster c).state = .unknown) : (t.setClusterState c s).Caused := by
  refine hc.settle (settling_setClusterState s hu) fun n hn => .inl ?_
  cases n with
  | goal k => exact hn
  | application q => exact hn
  | cluster d =>
    simp only [Marked, Tree.setClusterState, cluster_modifyCluster] at hn
    split at hn <;> exact hn

/-- A decided cluster needs none of its goals any more. -/
theorem Caused.pruneOtherGoals (hc : t.Caused) (hl : t.Linked) {c : ClusterId} (hh : t.HasCluster c)
    (hd : (t.cluster c).state ≠ .unknown) (g : GoalId) : (t.pruneOtherGoals c g).Caused := by
  refine hc.prune hl fun n hn => ?_
  obtain ⟨k, hk, rfl⟩ := List.mem_map.1 hn
  show t.Over (.cluster (t.goal k).cluster)
  rw [(hl.member c hh k (List.mem_filter.1 hk).1).2]
  exact .inl hd

/-- A decided goal needs none of its applications any more. -/
theorem Caused.pruneOtherApplications (hc : t.Caused) (hl : t.Linked) {g : GoalId}
    (hh : t.HasGoal g) (hd : (t.goal g).state ≠ .unknown) (r : ApplicationId) :
    (t.pruneOtherApplications g r).Caused := by
  refine hc.prune hl fun n hn => ?_
  obtain ⟨q, hq, rfl⟩ := List.mem_map.1 hn
  show t.Over (.goal (t.application q).parent)
  rw [(hl.applicationChild g hh q (List.mem_filter.1 hq).1).2]
  exact .inl hd

/-- A decided application needs none of its clusters any more. -/
theorem Caused.pruneOtherClusters (hc : t.Caused) (hl : t.Linked) {r : ApplicationId}
    (hh : t.HasApplication r) (hd : (t.application r).state ≠ .unknown) (c : ClusterId) :
    (t.pruneOtherClusters r c).Caused := by
  refine hc.prune hl fun n hn => ?_
  obtain ⟨d, hd', rfl⟩ := List.mem_map.1 hn
  exact ⟨r, (hl.clusterChild r hh d (List.mem_filter.1 hd').1).2, .inl hd⟩

/-- A proven cluster, with its other goals given up. -/
theorem Caused.proveCluster (hc : t.Caused) (hl : t.Linked) {c : ClusterId} (hh : t.HasCluster c)
    (hu : (t.cluster c).state = .unknown) (g : GoalId) :
    ((t.setClusterState c .proven).pruneOtherGoals c g).Caused := by
  have hs := settling_setClusterState .proven hu
  refine (hc.setClusterState hu).pruneOtherGoals (hs.linked hl) (hs.hasCluster.2 hh) ?_ g
  rw [Tree.setClusterState, cluster_modifyCluster, if_pos ⟨rfl, hh⟩]
  rintro ⟨⟩

/-- A goal proven by a rule, with its other applications given up. -/
theorem Caused.proveGoal (hc : t.Caused) (hl : t.Linked) {g : GoalId} (hh : t.HasGoal g)
    (hu : (t.goal g).state = .unknown) (r : ApplicationId) :
    ((t.setGoalState g .provenByRule).pruneOtherApplications g r).Caused := by
  have hs := settling_setGoalState .provenByRule hu
  refine (hc.setGoalState hu).pruneOtherApplications (hs.linked hl) (hs.hasGoal.2 hh) ?_ r
  rw [Tree.setGoalState, goal_modifyGoal, if_pos ⟨rfl, hh⟩]
  rintro ⟨⟩

/-- An unprovable application, with its other clusters given up. -/
theorem Caused.failApplication (hc : t.Caused) (hl : t.Linked) {r : ApplicationId}
    (hh : t.HasApplication r) (hu : (t.application r).state = .unknown) (c : ClusterId) :
    ((t.setApplicationState r .unprovable).pruneOtherClusters r c).Caused := by
  have hs := settling_setApplicationState .unprovable hu
  refine (hc.setApplicationState hu).pruneOtherClusters (hs.linked hl) (hs.hasApplication.2 hh) ?_ c
  rw [Tree.setApplicationState, application_modifyApplication, if_pos ⟨rfl, hh⟩]
  rintro ⟨⟩

theorem Caused.spreadProven {path : List Level} {g : GoalId} (hc : t.Caused) (hl : t.Linked)
    (hg : t.HasGoal g) (hup : t.Upward g path) : (t.spreadProven path).Caused := by
  fun_induction Tree.spreadProven t path generalizing g with
  | case1 | case2 => exact hc
  | case3 t k c path hcu =>
    cases hup with
    | top => exact hc.proveCluster hl (hl.home k hg).1 (by simpa using hcu) k
  | case4 t k c path hcu u r node =>
    cases hup with
    | step => exact hc.proveCluster hl (hl.home k hg).1 (by simpa using hcu) k
  | case5 t k c path hcu u r node hgo v =>
    have hru : (u.application r).state = .unknown := (by simpa using hgo : _ ∧ _).1
    cases hup with
    | step =>
      exact (hc.proveCluster hl (hl.home k hg).1 (by simpa using hcu) k).setApplicationState hru
  | case6 t k c path hcu u r node hgo v hpu =>
    rename_i ih
    have hru : (u.application r).state = .unknown := (by simpa using hgo : _ ∧ _).1
    have hcu : (t.cluster c).state = .unknown := by simpa using hcu
    cases hup with
    | step hr hup =>
      have hs : t.Settling v := ((settling_setClusterState .proven hcu).trans
        (settling_pruneOtherGoals ..)).trans (settling_setApplicationState .proven hru)
      have hv := (hc.proveCluster hl (hl.home k hg).1 hcu k).setApplicationState (s := .proven) hru
      have hhas := hs.hasApplication.2 (hl.clusterParent _ r (hl.home k hg).1 hr).1
      have hnode : (v.application r).parent = node.parent :=
        (settling_setApplicationState .proven hru).parent_eq r
      have hpg := hnode ▸ ((hs.linked hl).applicationParent r hhas).1
      have hpu : (v.goal node.parent).state = .unknown := by simpa using hpu
      have hs' := (settling_setGoalState .provenByRule hpu).trans
        (settling_pruneOtherApplications _ node.parent r)
      refine ih (hv.proveGoal (hs.linked hl) hpg hpu r) (hs'.linked (hs.linked hl))
        (hs'.hasGoal.2 hpg) (hs'.upward ?_)
      rw [← hnode, hs.parent_eq]
      exact hs.upward hup

theorem Caused.spreadUnprovable {path : List Level} {g : GoalId} (hc : t.Caused) (hl : t.Linked)
    (hg : t.HasGoal g) (hup : t.Upward g path) : (t.spreadUnprovable path).Caused := by
  fun_induction Tree.spreadUnprovable t path generalizing g with
  | case1 | case2 => exact hc
  | case3 t k c above path hk => exact hc.setGoalState (by simpa using hk)
  | case4 t k c path hk u hgo | case5 t k c path hk u hgo =>
    have hcu : (u.cluster c).state = .unknown := (by simpa using hgo : _ ∧ _).1
    exact (hc.setGoalState (by simpa using hk)).setClusterState hcu
  | case6 t k c path hk u hgo v r hru =>
    have hcu : (u.cluster c).state = .unknown := (by simpa using hgo : _ ∧ _).1
    have hk : (t.goal k).state = .unknown := by simpa using hk
    cases hup with
    | step hr hup =>
      have hs : t.Settling v := (settling_setGoalState .unprovable hk).trans
        (settling_setClusterState .unprovable hcu)
      have hhas := hs.hasApplication.2 (hl.clusterParent _ r (hl.home k hg).1 hr).1
      exact ((hc.setGoalState hk).setClusterState hcu).failApplication (hs.linked hl) hhas
        (by simpa using hru) _
  | case7 t k c path hk u hgo v r hru w parent =>
    rename_i ih
    have hcu : (u.cluster c).state = .unknown := (by simpa using hgo : _ ∧ _).1
    have hk : (t.goal k).state = .unknown := by simpa using hk
    have hru : (v.application r).state = .unknown := by simpa using hru
    cases hup with
    | step hr hup =>
      have hs : t.Settling v := (settling_setGoalState .unprovable hk).trans
        (settling_setClusterState .unprovable hcu)
      have hhas := hs.hasApplication.2 (hl.clusterParent _ r (hl.home k hg).1 hr).1
      have hw := ((hc.setGoalState hk).setClusterState hcu).failApplication (hs.linked hl) hhas hru
        (t.goal k).cluster
      have hs' : t.Settling w := hs.trans ((settling_setApplicationState .unprovable hru).trans
        (settling_pruneOtherClusters ..))
      have hpg := ((hs'.linked hl).applicationParent r
        (hs'.hasApplication.2 (hl.clusterParent _ r (hl.home k hg).1 hr).1)).1
      refine ih hw (hs'.linked hl) hpg (hs'.upward ?_)
      rw [hs'.parent_eq]
      exact hup

theorem Caused.markProvenByNorm (hc : t.Caused) (hl : t.Linked) {g : GoalId} (hg : t.HasGoal g) :
    (t.markProvenByNorm g).Caused := by
  unfold Tree.markProvenByNorm
  split
  · exact hc
  · next hu =>
    have hu : (t.goal g).state = .unknown := by simpa using hu
    have hs := settling_setGoalState .provenByNorm hu
    exact (hc.setGoalState hu).spreadProven (hs.linked hl) (hs.hasGoal.2 hg)
      ((hs.linked hl).upward_path (hs.hasGoal.2 hg))

theorem Caused.markApplicationProven (hc : t.Caused) (hl : t.Linked) {r : ApplicationId}
    (hr : t.HasApplication r) : (t.markApplicationProven r).Caused := by
  unfold Tree.markApplicationProven
  split
  · exact hc
  · next hu =>
    have hu : (t.application r).state = .unknown := by simpa using hu
    have hs := settling_setApplicationState .proven hu
    have hc' := hc.setApplicationState (s := .proven) hu
    have hl' := hs.linked hl
    have hg := (hl'.applicationParent r (hs.hasApplication.2 hr)).1
    dsimp only
    split
    · exact hc'
    · next hgu =>
      have hgu := GoalState.isUnknown_iff.1 (by simpa using hgu)
      have hs' := (settling_setGoalState .provenByRule hgu).trans (settling_pruneOtherApplications _
        ((t.setApplicationState r .proven).application r).parent r)
      exact (hc'.proveGoal hl' hg hgu r).spreadProven (hs'.linked hl') (hs'.hasGoal.2 hg)
        ((hs'.linked hl').upward_path (hs'.hasGoal.2 hg))

theorem Caused.markUnprovable (hc : t.Caused) (hl : t.Linked) {g : GoalId} (hg : t.HasGoal g) :
    (t.markUnprovable g).Caused :=
  hc.spreadUnprovable hl hg (hl.upward_path hg)

theorem Caused.checkExhausted (hc : t.Caused) (hl : t.Linked) {g : GoalId} (hg : t.HasGoal g) :
    (t.checkExhausted g).2.Caused := by
  unfold Tree.checkExhausted
  dsimp only
  split
  · exact hc
  · split
    · exact hc
    · split
      · exact hc.markUnprovable hl hg
      · exact hc

/-! ## Added applications -/

/-- New nodes are not marked, and nothing else changes its mark. -/
theorem Caused.growth {new : NewApplication} {copies : List GoalCopy}
    {groups : List (List Subgoal)} (hc : t.Caused) (hl : t.Linked)
    (h : Growth new copies groups t t') : t'.Caused := by
  have hmark {g : GoalId} (hg : t.HasGoal g) : (t'.goal g).irrelevant = (t.goal g).irrelevant := by
    obtain ⟨rs, he⟩ := h.exists_goal_eq hg
    rw [he]
  intro n hn
  cases n with
  | goal g =>
    by_cases hg : t.HasGoal g
    · show t'.Over (.cluster (t'.goal g).cluster)
      rw [h.home_old hg]
      have ho := hc (.goal g) ((hmark hg).symm.trans hn)
      simp only [Over, h.cluster_old _ (hl.home g hg).1]
      exact ho
    · have hn : (t'.goal g).irrelevant = true := hn
      by_cases hg' : t'.HasGoal g
      · obtain ⟨c, s, -, -, -, -, he⟩ := h.goal_new g hg hg'
        rw [he] at hn
        cases hn
      · rw [goal_of_not_has hg'] at hn
        cases hn
  | application r =>
    have hn : (t'.application r).irrelevant = true := hn
    by_cases hr : t.HasApplication r
    · rw [h.application_old r hr] at hn
      have hg := (hl.applicationParent r hr).1
      have ho : t.Over (.goal (t.application r).parent) := hc (.application r) hn
      show t'.Over (.goal (t'.application r).parent)
      rw [h.application_old r hr]
      simp only [Over, h.state_old hg, hmark hg]
      exact ho
    · by_cases hr' : t'.HasApplication r
      · rcases h.hasApplication.1 hr' with hr' | rfl
        · exact (hr hr').elim
        · rw [h.application_new] at hn
          cases hn
      · rw [application_of_not_has hr'] at hn
        cases hn
  | cluster c =>
    have hn : (t'.cluster c).irrelevant = true := hn
    by_cases hc' : t.HasCluster c
    · rw [h.cluster_old c hc'] at hn
      obtain ⟨r, hr, ho⟩ := hc (.cluster c) hn
      have hhas := (hl.clusterParent c r hc' hr).1
      refine ⟨r, by rw [h.cluster_old c hc', hr], ?_⟩
      simp only [Over, h.application_old r hhas]
      exact ho
    · by_cases hc'' : t'.HasCluster c
      · rw [(h.cluster_new c hc' hc'').2.2.1] at hn
        cases hn
      · rw [cluster_of_not_has hc''] at hn
        cases hn

theorem Caused.addApplication {new : NewApplication} {added : AddedApplication} {s s' : Solver}
    (hc : t.Caused) (hl : t.Linked) (h : Ends (t.addApplication new) s (added, t') s')
    (hg : t.HasGoal new.parent) : t'.Caused := by
  obtain ⟨new', copies, groups, u, -, -, hparent, hgrow, -, -, ht⟩ := addApplication_growth h hg
  have hcu := hc.growth hl hgrow
  rcases ht with ⟨-, rfl⟩ | ⟨-, rfl⟩
  · exact hcu.markApplicationProven (hgrow.linked hl (hparent ▸ hg))
      (hgrow.hasApplication.2 (.inr rfl))
  · exact hcu

end

theorem caused_ofGoal (goal : Var) (vars : VarSet) (state : Snapshot) :
    (ofGoal goal vars state).Caused := by
  intro n hn
  cases n with
  | goal g =>
    have hn : ((ofGoal goal vars state).goal g).irrelevant = true := hn
    by_cases hg : (ofGoal goal vars state).HasGoal g
    · obtain rfl := hasGoal_ofGoal.1 hg
      cases hn
    · rw [goal_of_not_has hg] at hn
      cases hn
  | application r =>
    have hn : ((ofGoal goal vars state).application r).irrelevant = true := hn
    rw [application_of_not_has not_hasApplication_ofGoal] at hn
    cases hn
  | cluster c =>
    have hn : ((ofGoal goal vars state).cluster c).irrelevant = true := hn
    by_cases hc : (ofGoal goal vars state).HasCluster c
    · obtain rfl := hasCluster_ofGoal.1 hc
      cases hn
    · rw [cluster_of_not_has hc] at hn
      cases hn

/-! ## Active goals -/

section

variable {t : Tree}

/-- An undecided goal that is still needed has rules left or an undecided application that is still
needed. -/
theorem Consistent.live_application (h : t.Consistent) (hc : t.Caused) {g : GoalId}
    (hg : t.HasGoal g) (hu : (t.goal g).state = .unknown) (hm : (t.goal g).irrelevant = false)
    (hex : (t.goal g).isExhausted = true) : ∃ r ∈ (t.goal g).applications,
      (t.application r).state = .unknown ∧ (t.application r).irrelevant = false := by
  have hspent := mt (h.pending.spent g hg) not_false
  obtain ⟨r, hr, hne⟩ : ∃ r ∈ (t.goal g).applications, (t.application r).state ≠ .unprovable := by
    by_contra hall
    exact hspent ⟨hu, hex, fun r hr => by_contra fun hne => hall ⟨r, hr, hne⟩⟩
  refine ⟨r, hr, ?_, ?_⟩
  · cases hst : (t.application r).state with
    | unknown => rfl
    | proven => exact (h.pending.goal g hg ⟨hu, r, hr, hst⟩).elim
    | unprovable => exact (hne hst).elim
  · by_contra hmr
    have ho : t.Over (.goal (t.application r).parent) :=
      hc (.application r) (eq_true_of_ne_false hmr)
    rw [(h.linked.applicationChild g hg r hr).2] at ho
    rcases ho with ho | ho
    · exact ho hu
    · exact nomatch hm.symm.trans ho

/-- An undecided application that is still needed has an undecided cluster that is still needed. -/
theorem Consistent.live_cluster (h : t.Consistent) (hc : t.Caused) {r : ApplicationId}
    (hr : t.HasApplication r) (hu : (t.application r).state = .unknown)
    (hm : (t.application r).irrelevant = false) : ∃ c ∈ (t.application r).clusters,
      (t.cluster c).state = .unknown ∧ (t.cluster c).irrelevant = false := by
  have hdue := mt (h.pending.application r hr) not_false
  obtain ⟨c, hmem, hne⟩ : ∃ c ∈ (t.application r).clusters, (t.cluster c).state ≠ .proven := by
    by_contra hall
    exact hdue ⟨hu, .inl fun c hc' => by_contra fun hne => hall ⟨c, hc', hne⟩⟩
  refine ⟨c, hmem, ?_, ?_⟩
  · cases hst : (t.cluster c).state with
    | unknown => rfl
    | proven => exact (hne hst).elim
    | unprovable => exact (hdue ⟨hu, .inr ⟨c, hmem, hst⟩⟩).elim
  · by_contra hmc
    obtain ⟨q, hq, ho⟩ := hc (.cluster c) (eq_true_of_ne_false hmc)
    cases (h.linked.clusterChild r hr c hmem).2.symm.trans hq
    rcases ho with ho | ho
    · exact ho hu
    · exact nomatch hm.symm.trans ho

/-- An undecided cluster that is still needed has an undecided goal that is still needed. -/
theorem Consistent.live_goal (h : t.Consistent) (hc : t.Caused) {c : ClusterId}
    (hh : t.HasCluster c) (hu : (t.cluster c).state = .unknown)
    (hm : (t.cluster c).irrelevant = false) : ∃ g ∈ (t.cluster c).goals,
      (t.goal g).state = .unknown ∧ (t.goal g).irrelevant = false := by
  have hdue := mt (h.pending.cluster c hh) not_false
  obtain ⟨g, hmem, hne⟩ : ∃ g ∈ (t.cluster c).goals, (t.goal g).state ≠ .unprovable := by
    by_contra hall
    exact hdue ⟨hu, .inr fun g hg => by_contra fun hne => hall ⟨g, hg, hne⟩⟩
  refine ⟨g, hmem, ?_, ?_⟩
  · have hnot : (t.goal g).state.isProven ≠ true := fun hp => hdue ⟨hu, .inl ⟨g, hmem, hp⟩⟩
    cases hst : (t.goal g).state with
    | unknown => rfl
    | provenByRule => exact (hnot (by rw [hst]; rfl)).elim
    | provenByNorm => exact (hnot (by rw [hst]; rfl)).elim
    | unprovable => exact (hne hst).elim
  · by_contra hmg
    have ho : t.Over (.cluster (t.goal g).cluster) :=
      hc (.goal g) (eq_true_of_ne_false hmg)
    rw [(h.linked.member c hh g hmem).2] at ho
    rcases ho with ho | ho
    · exact ho hu
    · exact nomatch hm.symm.trans ho

theorem Consistent.active_below (h : t.Consistent) (hc : t.Caused) (n : Nat) : ∀ g, t.HasGoal g →
    t.goals.size ≤ g.index + n → (t.goal g).state = .unknown → (t.goal g).irrelevant = false →
    ∃ k, t.HasGoal k ∧ t.isActive k = true ∧ (t.goal k).isExhausted = false := by
  -- the goals met on the way down are younger and younger
  induction n with
  | zero =>
    intro g hg hn
    simp only [HasGoal] at hg
    omega
  | succ n ih =>
    intro g hg hn hu hm
    by_cases hex : (t.goal g).isExhausted = true
    · obtain ⟨r, hr, hru, hrm⟩ := h.live_application hc hg hu hm hex
      obtain ⟨hhas, hparent⟩ := h.linked.applicationChild g hg r hr
      obtain ⟨c, hcm, hcu, hcmark⟩ := h.live_cluster hc hhas hru hrm
      obtain ⟨hhasc, habove⟩ := h.linked.clusterChild r hhas c hcm
      obtain ⟨k, hk, hku, hkm⟩ := h.live_goal hc hhasc hcu hcmark
      obtain ⟨hhask, hhome⟩ := h.linked.member c hhasc k hk
      have hlt := h.linked.earlier k r hhask (by rw [parentApplication?, hhome, habove])
      rw [hparent] at hlt
      exact ih k hhask (by omega) hku hkm
    · have hf := h.not_forced hg hu
      exact ⟨g, hg, by simp [isActive, Goal.isActive, hu, hm, hf], by simpa using hex⟩

/-- While the root is undecided there is an active goal for which rules are left. -/
theorem Consistent.exists_active (h : t.Consistent) (hc : t.Caused)
    (hu : (t.goal root).state = .unknown) :
    ∃ k, t.HasGoal k ∧ t.isActive k = true ∧ (t.goal k).isExhausted = false := by
  refine h.active_below hc t.goals.size root h.linked.root (by omega) hu ?_
  by_contra hm
  -- only its cluster could excuse the root, and that is neither marked nor decided
  have ho : t.Over (.cluster (t.goal root).cluster) := hc (.goal root)
    (eq_true_of_ne_false hm)
  obtain ⟨hroot, hparent, hgoals⟩ := h.linked.rootCluster
  have hhome : (t.goal root).cluster = rootCluster :=
    (h.linked.member rootCluster hroot root (by rw [hgoals]; exact List.mem_singleton.2 rfl)).2
  rw [hhome] at ho
  rcases ho with ho | ho
  · have he := h.pending.evaluated
    cases hst : (t.cluster rootCluster).state with
    | unknown => exact ho hst
    | proven =>
      obtain ⟨g, hg, hp⟩ := (he.cluster_proven _ hroot).1 hst
      rw [hgoals, List.mem_singleton] at hg
      rw [hg, hu] at hp
      cases hp
    | unprovable =>
      have hall := (he.cluster_unprovable _ hroot).1 hst
      rw [hgoals] at hall
      exact nomatch hu.symm.trans (hall root (List.mem_singleton.2 rfl))
  · obtain ⟨r, hr, -⟩ := hc (.cluster rootCluster) ho
    exact nomatch hparent.symm.trans hr

end

end Tree

end ProofSearch
