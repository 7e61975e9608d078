import ProofSearch.Proofs.AndOr.Relevance

/-!
# Pruning is complete

Marking stops at nodes that are marked already, so it reaches everything below a node only if
everything below a marked node is marked before.

1. `Closed`: below a marked node everything is marked, and below a node that is over everything is
   over.  Nodes that are still to be marked are exempt.
2. `Closed.prune`: pruning removes the exemptions.
3. `Closed.spreadProven`, `Closed.spreadUnprovable`, `Closed.addApplication` and the operations
   built from them keep a tree closed.
4. `Closed.not_over`: above an active goal nothing is over; `Closed.root_unknown`: with a decided
   root no goal is active.
-/

namespace ProofSearch

namespace Tree

/-! ## Children -/

/-- The node exists. -/
def Has (t : Tree) : Node → Prop
  | .goal g => t.HasGoal g
  | .application r => t.HasApplication r
  | .cluster c => t.HasCluster c

/-- The node directly above a node. -/
def above? (t : Tree) : Node → Option Node
  | .goal g => some (.cluster (t.goal g).cluster)
  | .application r => some (.goal (t.application r).parent)
  | .cluster c => (t.cluster c).parent.map .application

/-- `n` lies above `k`, at any distance. -/
def Above (t : Tree) (n k : Node) : Prop :=
  Relation.TransGen (fun k n => t.above? k = some n) k n

section

variable {t t' : Tree}

theorem SameLinks.children_eq (h : t.SameLinks t') (n : Node) : t'.children n = t.children n := by
  cases n with
  | goal g => simp only [children, h.applications]
  | application r => simp only [children, h.clusters]
  | cluster c => simp only [children, h.members]

/-- Only nodes that exist have children, and these exist as well. -/
theorem Linked.has_child (hl : t.Linked) {n k : Node} (hk : k ∈ t.children n) : t.Has k := by
  cases n with
  | goal g =>
    obtain ⟨r, hr, rfl⟩ := List.mem_map.1 hk
    by_cases hg : t.HasGoal g
    · exact (hl.applicationChild g hg r hr).1
    · rw [goal_of_not_has hg] at hr
      cases hr
  | application r =>
    obtain ⟨c, hc, rfl⟩ := List.mem_map.1 hk
    by_cases hr : t.HasApplication r
    · exact (hl.clusterChild r hr c hc).1
    · rw [application_of_not_has hr] at hc
      cases hc
  | cluster c =>
    obtain ⟨g, hg, rfl⟩ := List.mem_map.1 hk
    by_cases hc : t.HasCluster c
    · exact (hl.member c hc g hg).1
    · rw [cluster_of_not_has hc] at hg
      cases hg

/-- A node is among the children of the node above it. -/
theorem Linked.mem_children (hl : t.Linked) {n k : Node} (hk : t.Has k)
    (ha : t.above? k = some n) : t.Has n ∧ k ∈ t.children n := by
  cases k with
  | goal g =>
    obtain rfl := Option.some.inj ha
    exact ⟨(hl.home g hk).1, List.mem_map_of_mem (hl.home g hk).2⟩
  | application r =>
    obtain rfl := Option.some.inj ha
    exact ⟨(hl.applicationParent r hk).1, List.mem_map_of_mem (hl.applicationParent r hk).2⟩
  | cluster c =>
    obtain ⟨r, hr, rfl⟩ := Option.map_eq_some_iff.1 ha
    exact ⟨(hl.clusterParent c r hk hr).1, List.mem_map_of_mem (hl.clusterParent c r hk hr).2⟩

/-! ## Marks -/

theorem Marked.over {n : Node} (h : t.Marked n) : t.Over n := by
  cases n <;> exact .inr h

theorem Settling.marked (h : t.Settling t') {n : Node} (hm : t.Marked n) : t'.Marked n := by
  cases n with
  | goal g => exact (h.goal g).mark hm
  | application r => exact (h.application r).mark hm
  | cluster c => exact (h.cluster c).mark hm

theorem marked_of_irrelevant {n : Node} (hn : t.Has n) (hr : ¬ t.isRelevant n = true) :
    t.Marked n := by
  cases n with
  | goal g =>
    have hg : g.index < t.goals.size := hn
    simpa [isRelevant, Marked, goal, hg] using hr
  | application r =>
    have hg : r.index < t.applications.size := hn
    simpa [isRelevant, Marked, application, hg] using hr
  | cluster c =>
    have hg : c.index < t.clusters.size := hn
    simpa [isRelevant, Marked, cluster, hg] using hr

theorem marked_markIrrelevant_self {n : Node} (hn : t.Has n) : (t.markIrrelevant n).Marked n := by
  cases n with
  | goal g =>
    show ((t.markIrrelevant (.goal g)).goal g).irrelevant = true
    rw [markIrrelevant, goal_modifyGoal, if_pos ⟨rfl, hn⟩]
  | application r =>
    show ((t.markIrrelevant (.application r)).application r).irrelevant = true
    rw [markIrrelevant, application_modifyApplication, if_pos ⟨rfl, hn⟩]
  | cluster c =>
    show ((t.markIrrelevant (.cluster c)).cluster c).irrelevant = true
    rw [markIrrelevant, cluster_modifyCluster, if_pos ⟨rfl, hn⟩]

theorem over_markIrrelevant {n k : Node} (h : (t.markIrrelevant n).Over k) : t.Over k ∨ k = n := by
  obtain ⟨hg, hr, hc⟩ := states_markIrrelevant t n
  have hmark (hm : (t.markIrrelevant n).Marked k) : t.Over k ∨ k = n :=
    (marked_markIrrelevant hm).imp_left Marked.over
  cases k with
  | goal k => exact h.elim (fun hs => .inl (.inl (hg k ▸ hs))) hmark
  | application k => exact h.elim (fun hs => .inl (.inl (hr k ▸ hs))) hmark
  | cluster k => exact h.elim (fun hs => .inl (.inl (hc k ▸ hs))) hmark

/-! ## Closed trees -/

/-- Below a marked node everything is marked, and below a node that is over everything is over,
except for the nodes in `loose`. -/
structure Closed (t : Tree) (loose : Node → Prop) : Prop where
  marked : ∀ n, ∀ k ∈ t.children n, t.Marked n → t.Marked k ∨ loose k
  finished : ∀ n, ∀ k ∈ t.children n, t.Over n → t.Over k ∨ loose k

variable {loose loose' : Node → Prop}

/-- Nodes may be decided whose children are over or loose. -/
theorem Closed.settle (h : t.Closed loose) (hs : t.Settling t')
    (hmark : ∀ n, t'.Marked n → t.Marked n)
    (hover : ∀ n, t'.Over n → t.Over n ∨ ∀ k ∈ t.children n, t'.Over k ∨ loose' k)
    (hloose : ∀ k, loose k → loose' k) : t'.Closed loose' := by
  refine ⟨fun n k hk hn => ?_, fun n k hk hn => ?_⟩
  · rw [hs.sameLinks.children_eq] at hk
    exact (h.marked n k hk (hmark n hn)).imp hs.marked (hloose k)
  · rw [hs.sameLinks.children_eq] at hk
    rcases hover n hn with ho | hall
    · exact (h.finished n k hk ho).imp hs.over (hloose k)
    · exact hall k hk

/-- Marking a node makes its children loose and the node itself tight. -/
theorem Closed.markIrrelevant {n : Node} {rest : List Node} (h : t.Closed (· ∈ n :: rest))
    (hl : t.Linked) : (t.markIrrelevant n).Closed (· ∈ t.children n ++ rest) := by
  have hs := settling_markIrrelevant t n
  have hself {m k : Node} (hk : k ∈ t.children m) (he : k = n) :
      (t.markIrrelevant n).Marked k := by
    subst he
    exact marked_markIrrelevant_self (hl.has_child hk)
  refine ⟨fun m k hk hm => ?_, fun m k hk hm => ?_⟩ <;> rw [hs.sameLinks.children_eq] at hk
  · rcases marked_markIrrelevant hm with hm | rfl
    · rcases h.marked m k hk hm with hk' | hk'
      · exact .inl (hs.marked hk')
      · rcases List.mem_cons.1 hk' with he | hk'
        · exact .inl (hself hk he)
        · exact .inr (List.mem_append_right _ hk')
    · exact .inr (List.mem_append_left _ hk)
  · rcases over_markIrrelevant hm with hm | rfl
    · rcases h.finished m k hk hm with hk' | hk'
      · exact .inl (hs.over hk')
      · rcases List.mem_cons.1 hk' with he | hk'
        · exact .inl (hself hk he).over
        · exact .inr (List.mem_append_right _ hk')
    · exact .inr (List.mem_append_left _ hk)

theorem Closed.mono (h : t.Closed loose) (hloose : ∀ k, loose k → loose' k) : t.Closed loose' :=
  h.settle (.refl t) (fun _ => id) (fun _ => .inl) hloose

/-- Pruning the loose nodes leaves none. -/
theorem Closed.prune {nodes : List Node} (h : t.Closed (· ∈ nodes)) (hl : t.Linked) :
    (t.prune nodes).Closed nowhere := by
  fun_induction Tree.prune t nodes with
  | case1 t => exact h.mono fun k hk => by cases hk
  | case2 t n rest hr ih =>
    exact ih (h.markIrrelevant hl) ((settling_markIrrelevant t n).linked hl)
  | case3 t n rest hr ih =>
    -- a node that is skipped is marked, unless it does not exist and is nobody's child
    have hmarked {m k : Node} (hk : k ∈ t.children m) (he : k = n) : t.Marked k :=
      marked_of_irrelevant (hl.has_child hk) (he ▸ hr)
    refine ih ⟨fun m k hk hm => ?_, fun m k hk hm => ?_⟩ hl
    · rcases h.marked m k hk hm with hk' | hk'
      · exact .inl hk'
      · exact (List.mem_cons.1 hk').imp_left (hmarked hk)
    · rcases h.finished m k hk hm with hk' | hk'
      · exact .inl hk'
      · exact (List.mem_cons.1 hk').imp_left fun he => (hmarked hk he).over

/-! ## Decided nodes -/

/-- A goal may be decided whose applications are over or loose. -/
theorem Closed.setGoalState (h : t.Closed nowhere) {g : GoalId} {s : GoalState}
    (hu : (t.goal g).state = .unknown)
    (hall : ∀ r ∈ (t.goal g).applications, t.Over (.application r) ∨ loose (.application r)) :
    (t.setGoalState g s).Closed loose := by
  have hs := settling_setGoalState s hu
  have hgoal (k : GoalId) : ((t.setGoalState g s).goal k).irrelevant = (t.goal k).irrelevant ∧
      (k ≠ g → ((t.setGoalState g s).goal k).state = (t.goal k).state) := by
    rw [Tree.setGoalState, goal_modifyGoal]
    split
    · next hk => exact ⟨rfl, fun hne => (hne hk.1).elim⟩
    · exact ⟨rfl, fun _ => rfl⟩
  refine h.settle hs (fun n hn => ?_) (fun n hn => ?_) fun _ => False.elim
  · cases n with
    | goal k => exact (hgoal k).1.symm.trans hn
    | application r => exact hn
    | cluster c => exact hn
  · cases n with
    | goal k =>
      by_cases hk : k = g
      · subst hk
        refine .inr fun n hn => ?_
        obtain ⟨r, hr, rfl⟩ := List.mem_map.1 hn
        exact (hall r hr).imp_left hs.over
      · exact .inl (hn.imp (fun hst => (hgoal k).2 hk ▸ hst) fun hm => (hgoal k).1.symm.trans hm)
    | application r => exact .inl hn
    | cluster c => exact .inl hn

/-- An application may be decided whose clusters are over or loose. -/
theorem Closed.setApplicationState (h : t.Closed nowhere) {r : ApplicationId} {s : NodeState}
    (hu : (t.application r).state = .unknown)
    (hall : ∀ c ∈ (t.application r).clusters, t.Over (.cluster c) ∨ loose (.cluster c)) :
    (t.setApplicationState r s).Closed loose := by
  have hs := settling_setApplicationState s hu
  have hnode (k : ApplicationId) :
      ((t.setApplicationState r s).application k).irrelevant = (t.application k).irrelevant ∧
      (k ≠ r → ((t.setApplicationState r s).application k).state = (t.application k).state) := by
    rw [Tree.setApplicationState, application_modifyApplication]
    split
    · next hk => exact ⟨rfl, fun hne => (hne hk.1).elim⟩
    · exact ⟨rfl, fun _ => rfl⟩
  refine h.settle hs (fun n hn => ?_) (fun n hn => ?_) fun _ => False.elim
  · cases n with
    | goal k => exact hn
    | application k => exact (hnode k).1.symm.trans hn
    | cluster c => exact hn
  · cases n with
    | goal k => exact .inl hn
    | application k =>
      by_cases hk : k = r
      · subst hk
        refine .inr fun n hn => ?_
        obtain ⟨c, hc, rfl⟩ := List.mem_map.1 hn
        exact (hall c hc).imp_left hs.over
      · exact .inl (hn.imp (fun hst => (hnode k).2 hk ▸ hst) fun hm => (hnode k).1.symm.trans hm)
    | cluster c => exact .inl hn

/-- A cluster may be decided whose goals are over or loose. -/
theorem Closed.setClusterState (h : t.Closed nowhere) {c : ClusterId} {s : NodeState}
    (hu : (t.cluster c).state = .unknown)
    (hall : ∀ g ∈ (t.cluster c).goals, t.Over (.goal g) ∨ loose (.goal g)) :
    (t.setClusterState c s).Closed loose := by
  have hs := settling_setClusterState s hu
  have hnode (k : ClusterId) :
      ((t.setClusterState c s).cluster k).irrelevant = (t.cluster k).irrelevant ∧
      (k ≠ c → ((t.setClusterState c s).cluster k).state = (t.cluster k).state) := by
    rw [Tree.setClusterState, cluster_modifyCluster]
    split
    · next hk => exact ⟨rfl, fun hne => (hne hk.1).elim⟩
    · exact ⟨rfl, fun _ => rfl⟩
  refine h.settle hs (fun n hn => ?_) (fun n hn => ?_) fun _ => False.elim
  · cases n with
    | goal k => exact hn
    | application k => exact hn
    | cluster k => exact (hnode k).1.symm.trans hn
  · cases n with
    | goal k => exact .inl hn
    | application k => exact .inl hn
    | cluster k =>
      by_cases hk : k = c
      · subst hk
        refine .inr fun n hn => ?_
        obtain ⟨g, hg, rfl⟩ := List.mem_map.1 hn
        exact (hall g hg).imp_left hs.over
      · exact .inl (hn.imp (fun hst => (hnode k).2 hk ▸ hst) fun hm => (hnode k).1.symm.trans hm)

/-- A cluster proven by a goal, with its other goals given up. -/
theorem Closed.proveCluster (h : t.Closed nowhere) (hl : t.Linked) {c : ClusterId} {g : GoalId}
    (hu : (t.cluster c).state = .unknown) (hg : t.Over (.goal g)) :
    ((t.setClusterState c .proven).pruneOtherGoals c g).Closed nowhere := by
  have hs := settling_setClusterState .proven hu
  refine Closed.prune (h.setClusterState hu fun k hk => ?_) (hs.linked hl)
  by_cases he : k = g
  · exact .inl (he ▸ hg)
  · rw [← hs.members_eq] at hk
    exact .inr (List.mem_map_of_mem (List.mem_filter.2 ⟨hk, by simpa using he⟩))

/-- A goal proven by an application, with its other applications given up. -/
theorem Closed.proveGoal (h : t.Closed nowhere) (hl : t.Linked) {g : GoalId} {r : ApplicationId}
    (hu : (t.goal g).state = .unknown) (hr : t.Over (.application r)) :
    ((t.setGoalState g .provenByRule).pruneOtherApplications g r).Closed nowhere := by
  have hs := settling_setGoalState .provenByRule hu
  refine Closed.prune (h.setGoalState hu fun k hk => ?_) (hs.linked hl)
  by_cases he : k = r
  · exact .inl (he ▸ hr)
  · rw [← hs.applications_eq] at hk
    exact .inr (List.mem_map_of_mem (List.mem_filter.2 ⟨hk, by simpa using he⟩))

/-- An application failed by a cluster, with its other clusters given up. -/
theorem Closed.failApplication (h : t.Closed nowhere) (hl : t.Linked) {r : ApplicationId}
    {c : ClusterId} (hu : (t.application r).state = .unknown) (hc : t.Over (.cluster c)) :
    ((t.setApplicationState r .unprovable).pruneOtherClusters r c).Closed nowhere := by
  have hs := settling_setApplicationState .unprovable hu
  refine Closed.prune (h.setApplicationState hu fun k hk => ?_) (hs.linked hl)
  by_cases he : k = c
  · exact .inl (he ▸ hc)
  · rw [← hs.clusters_eq] at hk
    exact .inr (List.mem_map_of_mem (List.mem_filter.2 ⟨hk, by simpa using he⟩))

/-! ## The walks to the root -/

theorem Closed.spreadProven {path : List Level} {g : GoalId} (h : t.Closed nowhere)
    (hl : t.Linked) (hup : t.Upward g path) (hg : t.HasGoal g) (ho : t.Over (.goal g)) :
    (t.spreadProven path).Closed nowhere := by
  fun_induction Tree.spreadProven t path generalizing g with
  | case1 | case2 => exact h
  | case3 t k c path hcu =>
    cases hup with
    | top => exact h.proveCluster hl (by simpa using hcu) ho
  | case4 t k c path hcu u r node =>
    cases hup with
    | step => exact h.proveCluster hl (by simpa using hcu) ho
  | case5 t k c path hcu u r node hgo v =>
    obtain ⟨hru, hproven⟩ : (u.application r).state = .unknown ∧
        ∀ c ∈ (u.application r).clusters, (u.cluster c).state = .proven := by simpa using hgo
    cases hup with
    | step =>
      refine (h.proveCluster hl (by simpa using hcu) ho).setApplicationState hru fun d hd => ?_
      exact .inl (.inl (by rw [hproven d hd]; rintro ⟨⟩))
  | case6 t k c path hcu u r node hgo v hpu =>
    rename_i ih
    obtain ⟨hru, hproven⟩ : (u.application r).state = .unknown ∧
        ∀ c ∈ (u.application r).clusters, (u.cluster c).state = .proven := by simpa using hgo
    have hcu : (t.cluster c).state = .unknown := by simpa using hcu
    have hpu : (v.goal node.parent).state = .unknown := by simpa using hpu
    cases hup with
    | step hr hup =>
      have hu := settling_setApplicationState .proven hru
      have hs : t.Settling v := ((settling_setClusterState .proven hcu).trans
        (settling_pruneOtherGoals ..)).trans hu
      have hv : v.Closed nowhere := by
        refine (h.proveCluster hl hcu ho).setApplicationState hru fun d hd => ?_
        exact .inl (.inl (by rw [hproven d hd]; rintro ⟨⟩))
      have hhas := hs.hasApplication.2 (hl.clusterParent _ r (hl.home k hg).1 hr).1
      have hnode : (v.application r).parent = node.parent := hu.parent_eq r
      have hpg := hnode ▸ ((hs.linked hl).applicationParent r hhas).1
      have hro : v.Over (.application r) := by
        refine .inl ?_
        show ((u.setApplicationState r .proven).application r).state ≠ .unknown
        rw [Tree.setApplicationState, application_modifyApplication,
          if_pos ⟨rfl, hu.hasApplication.1 hhas⟩]
        rintro ⟨⟩
      have hset := settling_setGoalState .provenByRule hpu
      have hprune := settling_pruneOtherApplications (v.setGoalState node.parent .provenByRule)
        node.parent r
      have hs' := hset.trans hprune
      refine ih (hv.proveGoal (hs.linked hl) hpu hro) (hs'.linked (hs.linked hl))
        (hs'.upward ?_) (hs'.hasGoal.2 hpg) (hprune.over (.inl ?_))
      · rw [← hnode, hs.parent_eq]
        exact hs.upward hup
      · rw [Tree.setGoalState, goal_modifyGoal, if_pos ⟨rfl, hpg⟩]
        rintro ⟨⟩

/-- A goal given up whose applications are over, in a cluster that has no other goals left. -/
theorem Closed.failHome {g : GoalId} {c : ClusterId} (h : t.Closed nowhere)
    (hg : (t.goal g).state = .unknown)
    (happs : ∀ r ∈ (t.goal g).applications, t.Over (.application r))
    (hc : ((t.setGoalState g .unprovable).cluster c).state = .unknown)
    (hall : ∀ k ∈ ((t.setGoalState g .unprovable).cluster c).goals,
      ((t.setGoalState g .unprovable).goal k).state = .unprovable) :
    ((t.setGoalState g .unprovable).setClusterState c .unprovable).Closed nowhere := by
  have hu : (t.setGoalState g .unprovable).Closed nowhere :=
    h.setGoalState hg fun r hr => .inl (happs r hr)
  refine hu.setClusterState hc fun k hk => .inl (.inl ?_)
  rw [hall k hk]
  exact nofun

/-- A goal may be given up whose applications are over. -/
theorem Closed.spreadUnprovable {path : List Level} {g : GoalId} (h : t.Closed nowhere)
    (hl : t.Linked) (hup : t.Upward g path) (hg : t.HasGoal g)
    (happs : ∀ r ∈ (t.goal g).applications, t.Over (.application r)) :
    (t.spreadUnprovable path).Closed nowhere := by
  have hover {t : Tree} {c : ClusterId} (hc : t.HasCluster c) :
      (t.setClusterState c .unprovable).Over (.cluster c) := by
    refine .inl ?_
    rw [Tree.setClusterState, cluster_modifyCluster, if_pos ⟨rfl, hc⟩]
    rintro ⟨⟩
  fun_induction Tree.spreadUnprovable t path generalizing g with
  | case1 | case2 => exact h
  | case3 t k c above path hk =>
    cases hup <;> exact h.setGoalState (by simpa using hk) fun r hr => .inl (happs r hr)
  | case4 t k c path hk u hgo | case5 t k c path hk u hgo =>
    have hgo : (u.cluster c).state = .unknown ∧
        ∀ g ∈ (u.cluster c).goals, (u.goal g).state = .unprovable := by simpa using hgo
    cases hup
    exact h.failHome (by simpa using hk) happs hgo.1 hgo.2
  | case6 t k c path hk u hgo v r hru =>
    have hgo : (u.cluster c).state = .unknown ∧
        ∀ g ∈ (u.cluster c).goals, (u.goal g).state = .unprovable := by simpa using hgo
    have hk : (t.goal k).state = .unknown := by simpa using hk
    cases hup with
    | step hr hup =>
      have hs := settling_setGoalState .unprovable hk
      have hs' := hs.trans (settling_setClusterState .unprovable hgo.1)
      exact (h.failHome hk happs hgo.1 hgo.2).failApplication (hs'.linked hl) (by simpa using hru)
        (hover (hs.hasCluster.2 (hl.home k hg).1))
  | case7 t k c path hk u hgo v r hru w parent =>
    rename_i hnext ih
    have hgo : (u.cluster c).state = .unknown ∧
        ∀ g ∈ (u.cluster c).goals, (u.goal g).state = .unprovable := by simpa using hgo
    have hk : (t.goal k).state = .unknown := by simpa using hk
    have hru : (v.application r).state = .unknown := by simpa using hru
    cases hup with
    | step hr hup =>
      have hs := settling_setGoalState .unprovable hk
      have hv : t.Settling v := hs.trans (settling_setClusterState .unprovable hgo.1)
      have hw : t.Settling w := hv.trans ((settling_setApplicationState .unprovable hru).trans
        (settling_pruneOtherClusters ..))
      have hhas := (hl.clusterParent _ r (hl.home k hg).1 hr).1
      have hclosed : w.Closed nowhere :=
        (h.failHome hk happs hgo.1 hgo.2).failApplication (hv.linked hl) hru
          (hover (hs.hasCluster.2 (hl.home k hg).1))
      refine ih hclosed (hw.linked hl) (hw.upward ?_)
        ((hw.linked hl).applicationParent r (hw.hasApplication.2 hhas)).1 fun q hq => .inl ?_
      · rw [hw.parent_eq]
        exact hup
      · have hfailed : w.allApplicationsFailed parent = true := (by simpa using hnext : _ ∧ _).2
        simp only [allApplicationsFailed, List.all_eq_true, NodeState.isUnprovable_iff] at hfailed
        rw [hfailed q hq]
        rintro ⟨⟩

/-! ## The marking operations -/

/-- A goal may be closed whose applications are over. -/
theorem Closed.markProvenByNorm (h : t.Closed nowhere) (hl : t.Linked) {g : GoalId}
    (hg : t.HasGoal g) (happs : ∀ r ∈ (t.goal g).applications, t.Over (.application r)) :
    (t.markProvenByNorm g).Closed nowhere := by
  unfold Tree.markProvenByNorm
  split
  · exact h
  · next hu =>
    have hu : (t.goal g).state = .unknown := by simpa using hu
    have hs := settling_setGoalState .provenByNorm hu
    refine (h.setGoalState hu fun r hr => .inl (happs r hr)).spreadProven (hs.linked hl)
      ((hs.linked hl).upward_path (hs.hasGoal.2 hg)) (hs.hasGoal.2 hg) (.inl ?_)
    rw [Tree.setGoalState, goal_modifyGoal, if_pos ⟨rfl, hg⟩]
    rintro ⟨⟩

theorem Closed.markApplicationProven (h : t.Closed nowhere) (hl : t.Linked) {r : ApplicationId}
    (hr : t.HasApplication r) (hclusters : (t.application r).clusters = []) :
    (t.markApplicationProven r).Closed nowhere := by
  unfold Tree.markApplicationProven
  split
  · exact h
  · next hu =>
    have hu : (t.application r).state = .unknown := by simpa using hu
    have hs := settling_setApplicationState .proven hu
    have h' : (t.setApplicationState r .proven).Closed nowhere :=
      h.setApplicationState hu fun c hc => by rw [hclusters] at hc; cases hc
    have hl' := hs.linked hl
    have hg := (hl'.applicationParent r (hs.hasApplication.2 hr)).1
    dsimp only
    split
    · exact h'
    · next hgu =>
      have hgu := GoalState.isUnknown_iff.1 (by simpa using hgu)
      have hset := settling_setGoalState .provenByRule hgu
      have hprune := settling_pruneOtherApplications ((t.setApplicationState r .proven).setGoalState
        ((t.setApplicationState r .proven).application r).parent .provenByRule)
        ((t.setApplicationState r .proven).application r).parent r
      have hs' := hset.trans hprune
      refine (h'.proveGoal hl' hgu (.inl ?_)).spreadProven (hs'.linked hl')
        ((hs'.linked hl').upward_path (hs'.hasGoal.2 hg)) (hs'.hasGoal.2 hg) (hprune.over (.inl ?_))
      · rw [Tree.setApplicationState, application_modifyApplication, if_pos ⟨rfl, hr⟩]
        rintro ⟨⟩
      · rw [Tree.setGoalState, goal_modifyGoal, if_pos ⟨rfl, hg⟩]
        rintro ⟨⟩

theorem Closed.markUnprovable (h : t.Closed nowhere) (hl : t.Linked) {g : GoalId}
    (hg : t.HasGoal g) (happs : ∀ r ∈ (t.goal g).applications, t.Over (.application r)) :
    (t.markUnprovable g).Closed nowhere :=
  h.spreadUnprovable hl (hl.upward_path hg) hg happs

/-- A change of a goal that keeps its applications, state and mark. -/
theorem Closed.modifyGoal (h : t.Closed nowhere) {g : GoalId} {f : Goal → Goal}
    (hhome : ∀ a, (f a).cluster = a.cluster) (happs : ∀ a, (f a).applications = a.applications)
    (hstate : ∀ a, (f a).state = a.state) (hmark : ∀ a, (f a).irrelevant = a.irrelevant) :
    (t.modifyGoal g f).Closed nowhere := by
  have hgoal (k : GoalId) : ((t.modifyGoal g f).goal k).state = (t.goal k).state ∧
      ((t.modifyGoal g f).goal k).irrelevant = (t.goal k).irrelevant := by
    rw [goal_modifyGoal]
    split
    · exact ⟨hstate _, hmark _⟩
    · exact ⟨rfl, rfl⟩
  have hmarked (n : Node) : (t.modifyGoal g f).Marked n ↔ t.Marked n := by
    cases n with
    | goal k => exact iff_of_eq (congrArg (· = true) (hgoal k).2)
    | application r => exact .rfl
    | cluster c => exact .rfl
  have hover (n : Node) : (t.modifyGoal g f).Over n ↔ t.Over n := by
    cases n with
    | goal k => simp only [Over, (hgoal k).1, (hgoal k).2]
    | application r => exact .rfl
    | cluster c => exact .rfl
  have hlinks := sameLinks_modifyGoal t g hhome happs
  refine ⟨fun n k hk hn => ?_, fun n k hk hn => ?_⟩ <;> rw [hlinks.children_eq] at hk
  · exact .inl ((hmarked k).2 ((h.marked n k hk ((hmarked n).1 hn)).resolve_right id))
  · exact .inl ((hover k).2 ((h.finished n k hk ((hover n).1 hn)).resolve_right id))

theorem Closed.markForcedUnprovable (h : t.Closed nowhere) (hl : t.Linked) {g : GoalId}
    (hg : t.HasGoal g) (happs : (t.goal g).applications = []) :
    (t.markForcedUnprovable g).Closed nowhere := by
  unfold Tree.markForcedUnprovable
  split
  · exact h
  · have hlinks := sameLinks_modifyGoal t g (f := ({ · with forced := true })) (fun _ => rfl)
      fun _ => rfl
    have h' : (t.modifyGoal g ({ · with forced := true })).Closed nowhere :=
      h.modifyGoal (fun _ => rfl) (fun _ => rfl) (fun _ => rfl) fun _ => rfl
    refine h'.markUnprovable (hlinks.linked hl) (hlinks.hasGoal.2 hg) fun r hr => ?_
    rw [hlinks.applications, happs] at hr
    cases hr

theorem Closed.checkExhausted (h : t.Closed nowhere) (hl : t.Linked) {g : GoalId}
    (hg : t.HasGoal g) : (t.checkExhausted g).2.Closed nowhere := by
  unfold Tree.checkExhausted
  dsimp only
  split
  · exact h
  · split
    · exact h
    · split
      · next hfailed =>
        simp only [allApplicationsFailed, List.all_eq_true, NodeState.isUnprovable_iff] at hfailed
        refine h.markUnprovable hl hg fun r hr => .inl ?_
        rw [hfailed r hr]
        exact nofun
      · exact h

/-! ## Added applications -/

/-- New nodes are neither marked nor decided. -/
theorem Growth.not_over_new {new : NewApplication} {copies : List GoalCopy}
    {groups : List (List Subgoal)} (h : Growth new copies groups t t') {n : Node}
    (hn : ¬ t.Has n) : ¬ t'.Over n := by
  cases n with
  | goal g =>
    have hblank : (t'.goal g).state = .unknown ∧ (t'.goal g).irrelevant = false := by
      by_cases hg : t'.HasGoal g
      · obtain ⟨c, s, -, -, -, -, he⟩ := h.goal_new g hn hg
        rw [he]
        exact ⟨rfl, rfl⟩
      · rw [goal_of_not_has hg]
        exact ⟨rfl, rfl⟩
    simp [Over, hblank]
  | application r =>
    have hblank : (t'.application r).state = .unknown ∧ (t'.application r).irrelevant = false := by
      by_cases hr : t'.HasApplication r
      · rcases h.hasApplication.1 hr with hr | rfl
        · exact (hn hr).elim
        · rw [h.application_new]
          exact ⟨rfl, rfl⟩
      · rw [application_of_not_has hr]
        exact ⟨rfl, rfl⟩
    simp [Over, hblank]
  | cluster c =>
    have hblank : (t'.cluster c).state = .unknown ∧ (t'.cluster c).irrelevant = false := by
      by_cases hc : t'.HasCluster c
      · exact ⟨(h.cluster_new c hn hc).2.1, (h.cluster_new c hn hc).2.2.1⟩
      · rw [cluster_of_not_has hc]
        exact ⟨rfl, rfl⟩
    simp [Over, hblank]

/-- Old nodes keep state and mark, and all but the parent keep their children. -/
theorem Growth.old {new : NewApplication} {copies : List GoalCopy} {groups : List (List Subgoal)}
    (h : Growth new copies groups t t') {n : Node} (hn : t.Has n) :
    (t'.Marked n ↔ t.Marked n) ∧ (t'.Over n ↔ t.Over n) ∧
      (n ≠ .goal new.parent → t'.children n = t.children n) := by
  cases n with
  | goal g =>
    by_cases hg : g = new.parent
    · subst hg
      simp [Marked, Over, h.goal_parent]
    · simp [Marked, Over, children, h.goal_old g hn hg]
  | application r => simp [Marked, Over, children, h.application_old r hn]
  | cluster c => simp [Marked, Over, children, h.cluster_old c hn]

/-- A goal that is not over may get new nodes. -/
theorem Closed.growth {new : NewApplication} {copies : List GoalCopy}
    {groups : List (List Subgoal)} (h : t.Closed nowhere) (hl : t.Linked)
    (hgrow : Growth new copies groups t t') (hp : ¬ t.Over (.goal new.parent)) :
    t'.Closed nowhere := by
  have hold {n k : Node} (hk : k ∈ t'.children n) (ho : t'.Over n) :
      t.Has n ∧ t.Has k ∧ k ∈ t.children n := by
    have hn : t.Has n := by_contra fun hn => hgrow.not_over_new hn ho
    obtain ⟨-, hover, hchildren⟩ := hgrow.old hn
    have hne : n ≠ .goal new.parent := fun he => hp (he ▸ hover.1 ho)
    rw [hchildren hne] at hk
    exact ⟨hn, hl.has_child hk, hk⟩
  refine ⟨fun n k hk hn => ?_, fun n k hk hn => ?_⟩
  · obtain ⟨hn', hk', hk⟩ := hold hk hn.over
    exact (h.marked n k hk ((hgrow.old hn').1.1 hn)).imp_left (hgrow.old hk').1.2
  · obtain ⟨hn', hk', hk⟩ := hold hk hn
    exact (h.finished n k hk ((hgrow.old hn').2.1.1 hn)).imp_left (hgrow.old hk').2.1.2

/-- The proof of an application decides its goal. -/
theorem markApplicationProven_decides {r : ApplicationId}
    (hu : (t.application r).state = .unknown) (hg : t.HasGoal (t.application r).parent) :
    ((t.markApplicationProven r).goal (t.application r).parent).state ≠ .unknown := by
  have hparent := (settling_setApplicationState .proven hu).parent_eq r
  unfold Tree.markApplicationProven
  rw [if_neg (by simpa using hu)]
  dsimp only
  rw [hparent]
  split
  · next hd => simpa using hd
  · rw [(settling_spreadProven _ _).goal_state (s := .provenByRule) nofun]
    · exact nofun
    · rw [pruneOtherApplications, goal_state_prune, setGoalState, goal_modifyGoal, if_pos ⟨rfl, hg⟩]

/-- A goal that is not over gets an application.  Unless the goal is decided by it, it is not marked
afterwards. -/
theorem Closed.addApplication {new : NewApplication} {added : AddedApplication} {s s' : Solver}
    (h : t.Closed nowhere) (hl : t.Linked) (hadd : Ends (t.addApplication new) s (added, t') s')
    (hg : t.HasGoal new.parent) (hp : ¬ t.Over (.goal new.parent)) : t'.Closed nowhere ∧
      ((t'.goal new.parent).state = .unknown → (t'.goal new.parent).irrelevant = false) := by
  obtain ⟨new', copies, groups, u, -, -, hparent, hgrow, -, -, ht⟩ := addApplication_growth hadd hg
  rw [← hparent] at hg hp ⊢
  have hu := h.growth hl hgrow hp
  have hnot : ¬ u.Over (.goal new'.parent) := fun ho =>
    hp ((hgrow.old (n := .goal new'.parent) hg).2.1.1 ho)
  obtain ⟨hunknown, hmark⟩ : (u.goal new'.parent).state = .unknown ∧
      (u.goal new'.parent).irrelevant = false := by simpa [Over] using hnot
  rcases ht with ⟨rfl, rfl⟩ | ⟨-, rfl⟩
  · have hr : u.HasApplication ⟨t.applications.size⟩ := hgrow.hasApplication.2 (.inr rfl)
    have hnode := hgrow.application_new
    refine ⟨hu.markApplicationProven (hgrow.linked hl hg) hr (by rw [hnode]; rfl), fun hs => ?_⟩
    have hpar : (u.application ⟨t.applications.size⟩).parent = new'.parent := by
      rw [hnode]
      rfl
    have hgu : u.HasGoal new'.parent := hgrow.hasGoal hg
    -- the proof of the application decides the goal at once
    exact (markApplicationProven_decides hgrow.application_fresh (hpar ▸ hgu) (hpar ▸ hs)).elim
  · exact ⟨hu, fun _ => hmark⟩

end

theorem closed_ofGoal (goal : Var) (vars : VarSet) (state : Snapshot) :
    (ofGoal goal vars state).Closed nowhere := by
  have hover (n : Node) : ¬ (ofGoal goal vars state).Over n := by
    cases n with
    | goal g =>
      by_cases hg : (ofGoal goal vars state).HasGoal g
      · obtain rfl := hasGoal_ofGoal.1 hg
        exact fun ho => ho.elim (fun hs => hs rfl) (by rintro ⟨⟩)
      · rw [Over, goal_of_not_has hg]
        exact fun ho => ho.elim (fun hs => hs rfl) (by rintro ⟨⟩)
    | application r =>
      rw [Over, application_of_not_has not_hasApplication_ofGoal]
      exact fun ho => ho.elim (fun hs => hs rfl) (by rintro ⟨⟩)
    | cluster c =>
      by_cases hc : (ofGoal goal vars state).HasCluster c
      · obtain rfl := hasCluster_ofGoal.1 hc
        exact fun ho => ho.elim (fun hs => hs rfl) (by rintro ⟨⟩)
      · rw [Over, cluster_of_not_has hc]
        exact fun ho => ho.elim (fun hs => hs rfl) (by rintro ⟨⟩)
  exact ⟨fun n _ _ hn => (hover n hn.over).elim, fun n _ _ hn => (hover n hn).elim⟩

/-! ## Active goals -/

section

variable {t : Tree}

/-- Above a node that is not over nothing is over. -/
theorem Closed.not_over (h : t.Closed nowhere) (hl : t.Linked) {n k : Node} (hk : t.Has k)
    (ha : t.Above n k) (ho : ¬ t.Over k) : ¬ t.Over n := by
  have hstep {m k : Node} (hk : t.Has k) (hm : t.above? k = some m) (ho : ¬ t.Over k) :
      t.Has m ∧ ¬ t.Over m := by
    obtain ⟨hm', hmem⟩ := hl.mem_children hk hm
    exact ⟨hm', fun hom => ho ((h.finished m k hmem hom).resolve_right id)⟩
  have hall : t.Has n ∧ ¬ t.Over n := by
    induction ha with
    | single hm => exact hstep hk hm ho
    | tail _ hm ih => exact hstep ih.1 hm ih.2
  exact hall.2

theorem above_root_of_lt (hl : t.Linked) (n : Nat) : ∀ g, t.HasGoal g → g.index < n → g ≠ root →
    t.Above (.goal root) (.goal g) := by
  induction n with
  | zero =>
    intro g _ hn
    omega
  | succ n ih =>
    intro g hg hn hne
    cases hp : (t.cluster (t.goal g).cluster).parent with
    | none =>
      -- only the root's cluster has no application above it
      have hhome := hl.home g hg
      rw [hl.parentless _ hhome.1 hp, hl.rootCluster.2.2] at hhome
      exact (hne (List.mem_singleton.1 hhome.2)).elim
    | some r =>
      have hr := (hl.clusterParent _ r (hl.home g hg).1 hp).1
      have hlt := hl.earlier g r hg hp
      have habove : t.above? (.cluster (t.goal g).cluster) = some (.application r) := by
        rw [above?, hp]
        rfl
      have hpath : t.Above (.goal (t.application r).parent) (.goal g) :=
        .tail (.tail (.single rfl) habove) rfl
      by_cases hroot : (t.application r).parent = root
      · rwa [hroot] at hpath
      · exact hpath.trans (ih _ (hl.applicationParent r hr).1 (by omega) hroot)

/-- The root lies above every other goal. -/
theorem Linked.above_root (hl : t.Linked) {g : GoalId} (hg : t.HasGoal g) (hne : g ≠ Tree.root) :
    t.Above (.goal Tree.root) (.goal g) :=
  above_root_of_lt hl _ g hg (Nat.lt_succ_self _) hne

theorem not_over_of_isActive {g : GoalId} (h : t.isActive g = true) : ¬ t.Over (.goal g) := by
  simp only [isActive, Goal.isActive, Bool.and_eq_true, Bool.not_eq_true',
    GoalState.isUnknown_iff] at h
  simp [Over, h]

/-- Only below an undecided root there are active goals. -/
theorem Closed.root_unknown (h : t.Closed nowhere) (hl : t.Linked) {g : GoalId} (hg : t.HasGoal g)
    (ha : t.isActive g = true) : (t.goal root).state = .unknown := by
  by_contra hd
  by_cases hroot : g = root
  · exact not_over_of_isActive ha (hroot ▸ .inl hd)
  · exact h.not_over hl (k := .goal g) hg (hl.above_root hg hroot) (not_over_of_isActive ha)
      (.inl hd)

end

end Tree

end ProofSearch
