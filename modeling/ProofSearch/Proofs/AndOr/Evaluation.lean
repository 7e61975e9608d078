import Mathlib.Logic.Relation
import Mathlib.Tactic.ByContra
import ProofSearch.Proofs.AndOr.Links

/-!
# Stored states and evaluated states

States are stored in the nodes and brought up to date by walks towards the root.

1. `Sound`: every decided state is borne out by the states below it.
2. `Pending`: a sound tree in which only the listed nodes are due, that is, undecided although the
   states below decide them.
3. `Pending.settle`: after a change of states only nodes above changed nodes become due.
4. `pending_spreadProven`, `pending_spreadUnprovable`: each walk leaves nothing due.
5. `Evaluated`: the stored states are the ones that a bottom-up evaluation gives.
   `Pending.evaluated` says that a tree with nothing due is evaluated, and `Pending.agree` that its
   states are determined by those of its childless goals.
-/

namespace ProofSearch

theorem NodeState.eq_of_iff {s s' : NodeState} (hp : s = .proven ↔ s' = .proven)
    (hu : s = .unprovable ↔ s' = .unprovable) : s = s' := by
  cases s <;> cases s' <;> simp_all

namespace Tree

/-! ## Sound states -/

/-- The state of a goal is borne out by its applications. -/
structure GoalSound (t : Tree) (a : Goal) : Prop where
  byRule : a.state = .provenByRule → ∃ r ∈ a.applications, (t.application r).state = .proven
  byNorm : a.state = .provenByNorm → a.applications = [] ∧ a.isExhausted = false
  unprovable : a.state = .unprovable →
    a.isExhausted = true ∧ ∀ r ∈ a.applications, (t.application r).state = .unprovable
  forced : a.forced = true → a.applications = []

theorem GoalSound.of_unknown {t : Tree} {a : Goal} (hu : a.state = .unknown)
    (hf : a.forced = true → a.applications = []) : t.GoalSound a := by
  refine ⟨fun hs => ?_, fun hs => ?_, fun hs => ?_, hf⟩ <;> exact nomatch hu.symm.trans hs

/-- The state of an application is borne out by its clusters. -/
structure ApplicationSound (t : Tree) (a : Application) : Prop where
  proven : a.state = .proven → ∀ c ∈ a.clusters, (t.cluster c).state = .proven
  unprovable : a.state = .unprovable → ∃ c ∈ a.clusters, (t.cluster c).state = .unprovable

/-- The state of a cluster is borne out by its goals. -/
structure ClusterSound (t : Tree) (a : Cluster) : Prop where
  proven : a.state = .proven → ∃ g ∈ a.goals, (t.goal g).state.isProven = true
  unprovable : a.state = .unprovable → ∀ g ∈ a.goals, (t.goal g).state = .unprovable

/-- Every decided state is borne out by the states below it. -/
structure Sound (t : Tree) : Prop where
  goal : ∀ g, t.HasGoal g → t.GoalSound (t.goal g)
  application : ∀ r, t.HasApplication r → t.ApplicationSound (t.application r)
  cluster : ∀ c, t.HasCluster c → t.ClusterSound (t.cluster c)

section

variable {t t' : Tree}

theorem Settling.goal_state (h : t.Settling t') {g : GoalId} {s : GoalState} (hs : s ≠ .unknown)
    (hg : (t.goal g).state = s) : (t'.goal g).state = s := by
  rw [(h.goal g).state (hg ▸ hs), hg]

theorem Settling.goal_isProven (h : t.Settling t') {g : GoalId}
    (hg : (t.goal g).state.isProven = true) : (t'.goal g).state.isProven = true := by
  have hne : (t.goal g).state ≠ .unknown := by
    intro hu
    rw [hu] at hg
    cases hg
  rw [(h.goal g).state hne, hg]

theorem Settling.application_state (h : t.Settling t') {r : ApplicationId} {s : NodeState}
    (hs : s ≠ .unknown) (hr : (t.application r).state = s) : (t'.application r).state = s := by
  rw [(h.application r).state (hr ▸ hs), hr]

theorem Settling.cluster_state (h : t.Settling t') {c : ClusterId} {s : NodeState}
    (hs : s ≠ .unknown) (hc : (t.cluster c).state = s) : (t'.cluster c).state = s := by
  rw [(h.cluster c).state (hc ▸ hs), hc]

theorem GoalSound.settle {a b : Goal} (h : t.GoalSound a) (ht : t.Settling t') (hab : a.Settles b)
    (hs : b.state = a.state) : t'.GoalSound b := by
  have happs : b.applications = a.applications := by rw [hab.eq]
  have hforced : b.forced = a.forced := by rw [hab.eq]
  have hex : b.isExhausted = a.isExhausted := by rw [hab.eq]; rfl
  constructor
  · rw [hs, happs]
    intro hb
    obtain ⟨r, hr, hp⟩ := h.byRule hb
    exact ⟨r, hr, ht.application_state nofun hp⟩
  · rw [hs, happs, hex]
    exact h.byNorm
  · rw [hs, happs, hex]
    intro hb
    obtain ⟨he, hall⟩ := h.unprovable hb
    exact ⟨he, fun r hr => ht.application_state nofun (hall r hr)⟩
  · rw [happs, hforced]
    exact h.forced

theorem ApplicationSound.settle {a b : Application} (h : t.ApplicationSound a)
    (ht : t.Settling t') (hab : a.Settles b) (hs : b.state = a.state) : t'.ApplicationSound b := by
  have hcl : b.clusters = a.clusters := by rw [hab.eq]
  constructor
  · rw [hs, hcl]
    exact fun hb c hc => ht.cluster_state nofun (h.proven hb c hc)
  · rw [hs, hcl]
    intro hb
    obtain ⟨c, hc, hu⟩ := h.unprovable hb
    exact ⟨c, hc, ht.cluster_state nofun hu⟩

theorem ClusterSound.settle {a b : Cluster} (h : t.ClusterSound a) (ht : t.Settling t')
    (hab : a.Settles b) (hs : b.state = a.state) : t'.ClusterSound b := by
  have hgs : b.goals = a.goals := by rw [hab.eq]
  constructor
  · rw [hs, hgs]
    intro hb
    obtain ⟨g, hg, hp⟩ := h.proven hb
    exact ⟨g, hg, ht.goal_isProven hp⟩
  · rw [hs, hgs]
    exact fun hb g hg => ht.goal_state nofun (h.unprovable hb g hg)

/-- States stay sound if every new state is borne out. -/
theorem Sound.settle (h : t.Sound) (ht : t.Settling t')
    (hg : ∀ g, t.HasGoal g → (t'.goal g).state ≠ (t.goal g).state → t'.GoalSound (t'.goal g))
    (hr : ∀ r, t.HasApplication r → (t'.application r).state ≠ (t.application r).state →
      t'.ApplicationSound (t'.application r))
    (hc : ∀ c, t.HasCluster c → (t'.cluster c).state ≠ (t.cluster c).state →
      t'.ClusterSound (t'.cluster c)) : t'.Sound := by
  refine ⟨fun g hg' => ?_, fun r hr' => ?_, fun c hc' => ?_⟩
  · rw [ht.hasGoal] at hg'
    by_cases hs : (t'.goal g).state = (t.goal g).state
    · exact (h.goal g hg').settle ht (ht.goal g) hs
    · exact hg g hg' hs
  · rw [ht.hasApplication] at hr'
    by_cases hs : (t'.application r).state = (t.application r).state
    · exact (h.application r hr').settle ht (ht.application r) hs
    · exact hr r hr' hs
  · rw [ht.hasCluster] at hc'
    by_cases hs : (t'.cluster c).state = (t.cluster c).state
    · exact (h.cluster c hc').settle ht (ht.cluster c) hs
    · exact hc c hc' hs

end

/-! ## Nodes that are due -/

/-- A goal is undecided although one of its applications is proven. -/
def GoalDue (t : Tree) (a : Goal) : Prop :=
  a.state = .unknown ∧ ∃ r ∈ a.applications, (t.application r).state = .proven

/-- A goal is undecided although no rule is left to try and all its applications failed. -/
def GoalSpent (t : Tree) (a : Goal) : Prop :=
  a.state = .unknown ∧ a.isExhausted = true ∧
    ∀ r ∈ a.applications, (t.application r).state = .unprovable

/-- An application is undecided although its clusters decide it. -/
def ApplicationDue (t : Tree) (a : Application) : Prop :=
  a.state = .unknown ∧ ((∀ c ∈ a.clusters, (t.cluster c).state = .proven) ∨
    ∃ c ∈ a.clusters, (t.cluster c).state = .unprovable)

/-- A cluster is undecided although its goals decide it. -/
def ClusterDue (t : Tree) (a : Cluster) : Prop :=
  a.state = .unknown ∧ ((∃ g ∈ a.goals, (t.goal g).state.isProven = true) ∨
    ∀ g ∈ a.goals, (t.goal g).state = .unprovable)

/-- A sound tree in which only the given nodes are due. -/
structure Pending (t : Tree) (spent goals : GoalId → Prop) (applications : ApplicationId → Prop)
    (clusters : ClusterId → Prop) : Prop where
  sound : t.Sound
  spent : ∀ g, t.HasGoal g → t.GoalSpent (t.goal g) → spent g
  goal : ∀ g, t.HasGoal g → t.GoalDue (t.goal g) → goals g
  application : ∀ r, t.HasApplication r → t.ApplicationDue (t.application r) → applications r
  cluster : ∀ c, t.HasCluster c → t.ClusterDue (t.cluster c) → clusters c

/-- No node of a kind. -/
abbrev nowhere {α : Type} : α → Prop := fun _ => False

section

variable {t t' : Tree}

/-- A settled goal can be due only if it was, or if one of its applications has a new state. -/
theorem Settling.goalDue (h : t.Settling t') {g : GoalId} (hd : t'.GoalDue (t'.goal g)) :
    t.GoalDue (t.goal g) ∨
      ∃ r ∈ (t.goal g).applications, (t'.application r).state ≠ (t.application r).state := by
  obtain ⟨hu, r, hr, hp⟩ := hd
  rw [h.applications_eq] at hr
  by_cases hs : (t'.application r).state = (t.application r).state
  · refine .inl ⟨?_, r, hr, hs ▸ hp⟩
    by_contra hne
    exact hne (hu ▸ (h.goal g).state hne).symm
  · exact .inr ⟨r, hr, hs⟩

theorem Settling.goalSpent (h : t.Settling t') {g : GoalId} (hd : t'.GoalSpent (t'.goal g)) :
    t.GoalSpent (t.goal g) ∨
      ∃ r ∈ (t.goal g).applications, (t'.application r).state ≠ (t.application r).state := by
  obtain ⟨hu, he, hall⟩ := hd
  rw [h.applications_eq] at hall
  rw [h.isExhausted_eq] at he
  by_cases hs : ∃ r ∈ (t.goal g).applications, (t'.application r).state ≠ (t.application r).state
  · exact .inr hs
  · refine .inl ⟨?_, he, fun r hr => ?_⟩
    · by_contra hne
      exact hne (hu ▸ (h.goal g).state hne).symm
    · by_contra hne
      exact hs ⟨r, hr, fun heq => hne (heq ▸ hall r hr)⟩

theorem Settling.applicationDue (h : t.Settling t') {r : ApplicationId}
    (hd : t'.ApplicationDue (t'.application r)) : t.ApplicationDue (t.application r) ∨
      ∃ c ∈ (t.application r).clusters, (t'.cluster c).state ≠ (t.cluster c).state := by
  obtain ⟨hu, hcl⟩ := hd
  rw [h.clusters_eq] at hcl
  by_cases hs : ∃ c ∈ (t.application r).clusters, (t'.cluster c).state ≠ (t.cluster c).state
  · exact .inr hs
  · have hsame (c : ClusterId) (hc : c ∈ (t.application r).clusters) :
        (t'.cluster c).state = (t.cluster c).state := by
      by_contra hne
      exact hs ⟨c, hc, hne⟩
    refine .inl ⟨?_, ?_⟩
    · by_contra hne
      exact hne (hu ▸ (h.application r).state hne).symm
    · rcases hcl with hall | ⟨c, hc, hcu⟩
      · exact .inl fun c hc => hsame c hc ▸ hall c hc
      · exact .inr ⟨c, hc, hsame c hc ▸ hcu⟩

theorem Settling.clusterDue (h : t.Settling t') {c : ClusterId}
    (hd : t'.ClusterDue (t'.cluster c)) : t.ClusterDue (t.cluster c) ∨
      ∃ g ∈ (t.cluster c).goals, (t'.goal g).state ≠ (t.goal g).state := by
  obtain ⟨hu, hgs⟩ := hd
  rw [h.members_eq] at hgs
  by_cases hs : ∃ g ∈ (t.cluster c).goals, (t'.goal g).state ≠ (t.goal g).state
  · exact .inr hs
  · have hsame (g : GoalId) (hg : g ∈ (t.cluster c).goals) :
        (t'.goal g).state = (t.goal g).state := by
      by_contra hne
      exact hs ⟨g, hg, hne⟩
    refine .inl ⟨?_, ?_⟩
    · by_contra hne
      exact hne (hu ▸ (h.cluster c).state hne).symm
    · rcases hgs with ⟨g, hg, hp⟩ | hall
      · exact .inl ⟨g, hg, hsame g hg ▸ hp⟩
      · exact .inr fun g hg => hsame g hg ▸ hall g hg

end

namespace Pending

variable {t t' : Tree} {spent goals : GoalId → Prop} {applications : ApplicationId → Prop}
  {clusters : ClusterId → Prop}

/-- After a change of states only nodes above changed nodes become due, and no decided node is. -/
theorem settle (h : t.Pending spent goals applications clusters) (ht : t.Settling t')
    (hs : t'.Sound) : t'.Pending
      (fun g => (t'.goal g).state = .unknown ∧ (spent g ∨
        ∃ r ∈ (t.goal g).applications, (t'.application r).state ≠ (t.application r).state))
      (fun g => (t'.goal g).state = .unknown ∧ (goals g ∨
        ∃ r ∈ (t.goal g).applications, (t'.application r).state ≠ (t.application r).state))
      (fun r => (t'.application r).state = .unknown ∧ (applications r ∨
        ∃ c ∈ (t.application r).clusters, (t'.cluster c).state ≠ (t.cluster c).state))
      (fun c => (t'.cluster c).state = .unknown ∧ (clusters c ∨
        ∃ g ∈ (t.cluster c).goals, (t'.goal g).state ≠ (t.goal g).state)) where
  sound := hs
  spent := fun g hg hd => ⟨hd.1, (ht.goalSpent hd).imp_left (h.spent g (ht.hasGoal.1 hg))⟩
  goal := fun g hg hd => ⟨hd.1, (ht.goalDue hd).imp_left (h.goal g (ht.hasGoal.1 hg))⟩
  application := fun r hr hd =>
    ⟨hd.1, (ht.applicationDue hd).imp_left (h.application r (ht.hasApplication.1 hr))⟩
  cluster := fun c hc hd => ⟨hd.1, (ht.clusterDue hd).imp_left (h.cluster c (ht.hasCluster.1 hc))⟩

theorem mono {spent' goals' : GoalId → Prop} {applications' : ApplicationId → Prop}
    {clusters' : ClusterId → Prop} (h : t.Pending spent goals applications clusters)
    (hs : ∀ g, t.HasGoal g → t.GoalSpent (t.goal g) → spent g → spent' g)
    (hg : ∀ g, t.HasGoal g → t.GoalDue (t.goal g) → goals g → goals' g)
    (hr : ∀ r, t.HasApplication r → t.ApplicationDue (t.application r) → applications r →
      applications' r)
    (hc : ∀ c, t.HasCluster c → t.ClusterDue (t.cluster c) → clusters c → clusters' c) :
    t.Pending spent' goals' applications' clusters' where
  sound := h.sound
  spent := fun g hg hd => hs g hg hd (h.spent g hg hd)
  goal := fun g hg' hd => hg g hg' hd (h.goal g hg' hd)
  application := fun r hr' hd => hr r hr' hd (h.application r hr' hd)
  cluster := fun c hc' hd => hc c hc' hd (h.cluster c hc' hd)

/-- Pruning makes nothing due. -/
theorem prune (h : t.Pending spent goals applications clusters) (nodes : List Node) :
    (t.prune nodes).Pending spent goals applications clusters := by
  have ht := settling_prune t nodes
  have hs : (t.prune nodes).Sound := by
    refine h.sound.settle ht ?_ ?_ ?_ <;> simp
  exact (h.settle ht hs).mono (by simp) (by simp) (by simp) (by simp)

/-- Deciding a cluster may make the application above it due; a proven cluster does so if all the
others are proven. -/
theorem setClusterState (h : t.Pending spent goals applications clusters) (hl : t.Linked)
    {c : ClusterId} {s : NodeState} (hc : t.HasCluster c) (hu : (t.cluster c).state = .unknown)
    (hs : s ≠ .unknown) (hb : t.ClusterSound { t.cluster c with state := s }) :
    (t.setClusterState c s).Pending spent goals
      (fun r => applications r ∨ (t.cluster c).parent = some r ∧ (s = .proven →
        ∀ d ∈ (t.application r).clusters, ((t.setClusterState c s).cluster d).state = .proven))
      (fun d => clusters d ∧ d ≠ c) := by
  have ht := settling_setClusterState s hu
  have hself : (t.setClusterState c s).cluster c = { t.cluster c with state := s } := by
    rw [Tree.setClusterState, cluster_modifyCluster, if_pos ⟨rfl, hc⟩]
  have hother {d : ClusterId} (hd : d ≠ c) : (t.setClusterState c s).cluster d = t.cluster d := by
    rw [Tree.setClusterState, cluster_modifyCluster, if_neg fun h => hd h.1]
  have hsound : (t.setClusterState c s).Sound := by
    refine h.sound.settle ht (fun g _ hne => (hne rfl).elim) (fun r _ hne => (hne rfl).elim) ?_
    intro d _ hne
    by_cases hd : d = c
    · rw [hd, hself]
      exact hb.settle ht (.refl _) rfl
    · exact (hne (by rw [hother hd])).elim
  refine (h.settle ht hsound).mono ?_ ?_ ?_ ?_
  · rintro g - - ⟨-, hg | ⟨r, -, hne⟩⟩
    · exact hg
    · exact (hne rfl).elim
  · rintro g - - ⟨-, hg | ⟨r, -, hne⟩⟩
    · exact hg
    · exact (hne rfl).elim
  · rintro r hr ⟨-, hdue⟩ ⟨hru, hr' | ⟨d, hd, hne⟩⟩
    · exact .inl hr'
    · have hdc : d = c := by
        by_contra hdc
        exact hne (by rw [hother hdc])
      have hparent := hdc ▸ (hl.clusterChild r hr d hd).2
      rcases hdue with hall | ⟨e, he, hfail⟩
      · exact .inr ⟨hparent, fun _ => hall⟩
      · by_cases hec : e = c
        · rw [hec, hself] at hfail
          exact .inr ⟨hparent, fun hsp => nomatch hfail.symm.trans hsp⟩
        · rw [hother hec] at hfail
          exact .inl (h.application r hr ⟨hru, .inr ⟨e, he, hfail⟩⟩)
  · rintro d - hdue ⟨hd, hd' | ⟨g, -, hne⟩⟩
    · refine ⟨hd', fun he => hs ?_⟩
      rw [he, hself] at hd
      exact hd
    · exact (hne rfl).elim

/-- Deciding an application may make the goal above it due. -/
theorem setApplicationState (h : t.Pending spent goals applications clusters) (hl : t.Linked)
    {r : ApplicationId} {s : NodeState} (hr : t.HasApplication r)
    (hu : (t.application r).state = .unknown) (hs : s ≠ .unknown)
    (hb : t.ApplicationSound { t.application r with state := s }) :
    (t.setApplicationState r s).Pending
      (fun g => spent g ∨ g = (t.application r).parent ∧ s = .unprovable)
      (fun g => goals g ∨ g = (t.application r).parent ∧ s = .proven)
      (fun q => applications q ∧ q ≠ r) clusters := by
  have ht := settling_setApplicationState s hu
  have hself : (t.setApplicationState r s).application r = { t.application r with state := s } := by
    rw [Tree.setApplicationState, application_modifyApplication, if_pos ⟨rfl, hr⟩]
  have hother {q : ApplicationId} (hq : q ≠ r) :
      (t.setApplicationState r s).application q = t.application q := by
    rw [Tree.setApplicationState, application_modifyApplication, if_neg fun h => hq h.1]
  have hsound : (t.setApplicationState r s).Sound := by
    refine h.sound.settle ht (fun g _ hne => (hne rfl).elim) ?_ (fun c _ hne => (hne rfl).elim)
    intro q _ hne
    by_cases hq : q = r
    · rw [hq, hself]
      exact hb.settle ht (.refl _) rfl
    · exact (hne (by rw [hother hq])).elim
  -- a goal that becomes due or spent has `r` among its applications
  have habove {g : GoalId} (hg : t.HasGoal g) (hx : ∃ q ∈ (t.goal g).applications,
      ((t.setApplicationState r s).application q).state ≠ (t.application q).state) :
      r ∈ (t.goal g).applications ∧ g = (t.application r).parent := by
    obtain ⟨q, hq, hne⟩ := hx
    have hqr : q = r := by
      by_contra hqr
      exact hne (by rw [hother hqr])
    subst hqr
    exact ⟨hq, (hl.applicationChild g hg q hq).2.symm⟩
  refine (h.settle ht hsound).mono ?_ ?_ ?_ ?_
  · rintro g hg hd ⟨-, hg' | hx⟩
    · exact .inl hg'
    · obtain ⟨hm, hp⟩ := habove hg hx
      have := hd.2.2 r hm
      rw [hself] at this
      exact .inr ⟨hp, this⟩
  · rintro g hg hd ⟨hug, hg' | hx⟩
    · exact .inl hg'
    · obtain ⟨hm, hp⟩ := habove hg hx
      obtain ⟨-, q, hq, hqp⟩ := hd
      by_cases hqr : q = r
      · rw [hqr, hself] at hqp
        exact .inr ⟨hp, hqp⟩
      · rw [hother hqr] at hqp
        exact .inl (h.goal g hg ⟨hug, q, hq, hqp⟩)
  · rintro q - - ⟨hq, hq' | ⟨c, -, hne⟩⟩
    · refine ⟨hq', fun he => hs ?_⟩
      rw [he, hself] at hq
      exact hq
    · exact (hne rfl).elim
  · rintro c - - ⟨-, hc | ⟨g, -, hne⟩⟩
    · exact hc
    · exact (hne rfl).elim

/-- Deciding a goal may make its cluster due; an unprovable goal does so if all the others are
unprovable. -/
theorem setGoalState (h : t.Pending spent goals applications clusters) (hl : t.Linked)
    {g : GoalId} {s : GoalState} (hg : t.HasGoal g) (hu : (t.goal g).state = .unknown)
    (hs : s ≠ .unknown) (hb : t.GoalSound { t.goal g with state := s }) :
    (t.setGoalState g s).Pending (fun k => spent k ∧ k ≠ g) (fun k => goals k ∧ k ≠ g) applications
      (fun c => clusters c ∨ c = (t.goal g).cluster ∧ (s = .unprovable →
        ∀ k ∈ (t.cluster c).goals, ((t.setGoalState g s).goal k).state = .unprovable)) := by
  have ht := settling_setGoalState s hu
  have hself : (t.setGoalState g s).goal g = { t.goal g with state := s } := by
    rw [Tree.setGoalState, goal_modifyGoal, if_pos ⟨rfl, hg⟩]
  have hother {k : GoalId} (hk : k ≠ g) : (t.setGoalState g s).goal k = t.goal k := by
    rw [Tree.setGoalState, goal_modifyGoal, if_neg fun h => hk h.1]
  have hsound : (t.setGoalState g s).Sound := by
    refine h.sound.settle ht ?_ (fun r _ hne => (hne rfl).elim) (fun c _ hne => (hne rfl).elim)
    intro k _ hne
    by_cases hk : k = g
    · rw [hk, hself]
      exact hb.settle ht (.refl _) rfl
    · exact (hne (by rw [hother hk])).elim
  have hdec {k : GoalId} (hk : ((t.setGoalState g s).goal k).state = .unknown) : k ≠ g := by
    intro he
    rw [he, hself] at hk
    exact hs hk
  refine (h.settle ht hsound).mono ?_ ?_ ?_ ?_
  · rintro k - - ⟨hk, hk' | ⟨r, -, hne⟩⟩
    · exact ⟨hk', hdec hk⟩
    · exact (hne rfl).elim
  · rintro k - - ⟨hk, hk' | ⟨r, -, hne⟩⟩
    · exact ⟨hk', hdec hk⟩
    · exact (hne rfl).elim
  · rintro r - - ⟨-, hr | ⟨c, -, hne⟩⟩
    · exact hr
    · exact (hne rfl).elim
  · rintro c hc ⟨-, hdue⟩ ⟨hcu, hc' | ⟨k, hk, hne⟩⟩
    · exact .inl hc'
    · have hkg : k = g := by
        by_contra hkg
        exact hne (by rw [hother hkg])
      have hhome := hkg ▸ (hl.member c hc k hk).2.symm
      rcases hdue with ⟨e, he, hproof⟩ | hall
      · by_cases heg : e = g
        · rw [heg, hself] at hproof
          exact .inr ⟨hhome, fun hsu => by rw [hsu] at hproof; cases hproof⟩
        · rw [hother heg] at hproof
          exact .inl (h.cluster c hc ⟨hcu, .inl ⟨e, he, hproof⟩⟩)
      · exact .inr ⟨hhome, fun _ => hall⟩

end Pending

/-! ## Walks to the root -/

section

variable {spent : GoalId → Prop}

/-- A proven goal proves its cluster.  The application above becomes due if all its clusters are
proven. -/
theorem Pending.proveCluster {t : Tree} {g : GoalId}
    (h : t.Pending spent nowhere nowhere (· = (t.goal g).cluster)) (hl : t.Linked)
    (hg : t.HasGoal g) (hp : (t.goal g).state.isProven = true)
    (hu : (t.cluster (t.goal g).cluster).state = .unknown) {u : Tree} {nodes : List Node}
    (he : u = (t.setClusterState (t.goal g).cluster .proven).prune nodes) :
    t.Settling u ∧ u.Pending spent nowhere
      (fun r => (t.cluster (t.goal g).cluster).parent = some r ∧
        ∀ d ∈ (u.application r).clusters, (u.cluster d).state = .proven) nowhere := by
  subst he
  obtain ⟨hc, hm⟩ := hl.home g hg
  have hb : t.ClusterSound { t.cluster (t.goal g).cluster with state := .proven } :=
    ⟨fun _ => ⟨g, hm, hp⟩, nofun⟩
  have hset := settling_setClusterState .proven hu
  have hprune := settling_prune (t.setClusterState (t.goal g).cluster .proven) nodes
  refine ⟨hset.trans hprune, ((h.setClusterState (s := .proven) hl hc hu nofun hb).prune nodes).mono
    (fun _ _ _ => id) (fun _ _ _ => id) ?_ ?_⟩
  · rintro r - - (hr | ⟨hr, hall⟩)
    · exact hr.elim
    · refine ⟨hr, fun d hd => ?_⟩
      rw [cluster_state_prune]
      rw [hprune.clusters_eq, hset.clusters_eq] at hd
      exact hall rfl d hd
  · rintro d - - ⟨hd, hne⟩
    exact hne hd

/-- An application all of whose clusters are proven is proven, and the goal above becomes due. -/
theorem Pending.proveApplication {t : Tree} {r : ApplicationId}
    (h : t.Pending spent nowhere (· = r) nowhere) (hl : t.Linked) (hr : t.HasApplication r)
    (hu : (t.application r).state = .unknown)
    (hall : ∀ c ∈ (t.application r).clusters, (t.cluster c).state = .proven) :
    (t.setApplicationState r .proven).Pending spent (· = (t.application r).parent) nowhere
      nowhere := by
  have hb : t.ApplicationSound { t.application r with state := .proven } := ⟨fun _ => hall, nofun⟩
  refine (h.setApplicationState (s := .proven) hl hr hu nofun hb).mono ?_ ?_ ?_ (fun _ _ _ => id)
  · rintro g - - (hg | ⟨-, hg⟩)
    · exact hg
    · cases hg
  · rintro g - - (hg | ⟨hg, -⟩)
    · exact hg.elim
    · exact hg
  · rintro q - - ⟨hq, hne⟩
    exact hne hq

/-- A proven application proves its goal, whose cluster becomes due. -/
theorem Pending.proveGoal {t : Tree} {g : GoalId} (h : t.Pending spent (· = g) nowhere nowhere)
    (hl : t.Linked) (hg : t.HasGoal g) (hu : (t.goal g).state = .unknown) {r : ApplicationId}
    (hr : r ∈ (t.goal g).applications) (hp : (t.application r).state = .proven)
    {u : Tree} {nodes : List Node} (he : u = (t.setGoalState g .provenByRule).prune nodes) :
    t.Settling u ∧ (u.goal g).state.isProven = true ∧
      u.Pending spent nowhere nowhere (· = (u.goal g).cluster) := by
  subst he
  have hb : t.GoalSound { t.goal g with state := .provenByRule } :=
    ⟨fun _ => ⟨r, hr, hp⟩, nofun, nofun, (h.sound.goal g hg).forced⟩
  have hset := settling_setGoalState .provenByRule hu
  have hprune := settling_prune (t.setGoalState g .provenByRule) nodes
  refine ⟨hset.trans hprune, ?_, ?_⟩
  · rw [goal_state_prune, Tree.setGoalState, goal_modifyGoal, if_pos ⟨rfl, hg⟩]
    rfl
  rw [hprune.home_eq, hset.home_eq]
  refine Pending.prune ((h.setGoalState (s := .provenByRule) hl hg hu nofun hb).mono ?_ ?_
    (fun _ _ _ => id) ?_) nodes
  · rintro k - - ⟨hk, -⟩
    exact hk
  · rintro k - - ⟨hk, hne⟩
    exact hne hk
  · rintro c - - (hc | ⟨hc, -⟩)
    · exact hc.elim
    · exact hc

/-- A proven goal whose cluster completes the application above: the application is proven. -/
theorem Pending.proveAbove {t : Tree} {g : GoalId} {r : ApplicationId}
    (h : t.Pending spent nowhere nowhere (· = (t.goal g).cluster)) (hl : t.Linked)
    (hg : t.HasGoal g) (hp : (t.goal g).state.isProven = true)
    (hu : (t.cluster (t.goal g).cluster).state = .unknown)
    (hr : (t.cluster (t.goal g).cluster).parent = some r) {u : Tree} {nodes : List Node}
    (he : u = (t.setClusterState (t.goal g).cluster .proven).prune nodes)
    (hru : (u.application r).state = .unknown)
    (hall : ∀ c ∈ (u.application r).clusters, (u.cluster c).state = .proven) :
    t.Settling (u.setApplicationState r .proven) ∧
      (u.setApplicationState r .proven).HasApplication r ∧
      ((u.setApplicationState r .proven).application r).state = .proven ∧
      (u.setApplicationState r .proven).Pending spent (· = (u.application r).parent) nowhere
        nowhere := by
  obtain ⟨hs, hpend⟩ := h.proveCluster hl hg hp hu he
  have hhas : u.HasApplication r :=
    hs.hasApplication.2 (hl.clusterParent _ r (hl.home g hg).1 hr).1
  have hset := settling_setApplicationState .proven hru
  refine ⟨hs.trans hset, hset.hasApplication.2 hhas, ?_, ?_⟩
  · rw [Tree.setApplicationState, application_modifyApplication, if_pos ⟨rfl, hhas⟩]
  refine Pending.proveApplication (hpend.mono (fun _ _ _ => id) (fun _ _ _ => id) ?_
    (fun _ _ _ => id)) (hs.linked hl) hhas hru hall
  rintro q - - ⟨hq, -⟩
  exact Option.some.inj (hq.symm.trans hr)

/-- The proof of a goal, spread to the root, leaves nothing due. -/
theorem pending_spreadProven {t : Tree} {path : List Level} {g : GoalId} (hl : t.Linked)
    (hg : t.HasGoal g) (hu : t.Upward g path) (hp : (t.goal g).state.isProven = true)
    (h : t.Pending spent nowhere nowhere (· = (t.goal g).cluster)) :
    (t.spreadProven path).Pending spent nowhere nowhere nowhere := by
  fun_induction spreadProven t path generalizing g with
  | case1 t => cases hu
  | case2 t k c above path hc =>
    refine h.mono (fun _ _ _ => id) (fun _ _ _ => id) (fun _ _ _ => id) ?_
    rintro d - ⟨hdu, -⟩ rfl
    cases hu <;> simp_all
  | case3 t k c path hc =>
    cases hu with
    | top htop =>
      refine (h.proveCluster hl hg hp (by simpa using hc) rfl).2.mono (fun _ _ _ => id)
        (fun _ _ _ => id) ?_ (fun _ _ _ => id)
      rintro r - - ⟨hr, -⟩
      cases htop.symm.trans hr
  | case4 t k c path hc u r node =>
    rename_i hstop
    cases hu with
    | step hr hup =>
      refine (h.proveCluster hl hg hp (by simpa using hc) rfl).2.mono (fun _ _ _ => id)
        (fun _ _ _ => id) ?_ (fun _ _ _ => id)
      rintro q - ⟨hqu, -⟩ ⟨hq, hall⟩
      cases hr.symm.trans hq
      simp only [Bool.or_eq_true, Bool.not_eq_true', NodeState.isUnknown_eq_false,
        List.all_eq_false, NodeState.isProven_iff] at hstop
      rcases hstop with hstop | ⟨d, hd, hstop⟩
      · exact hstop hqu
      · exact hstop (hall d hd)
  | case5 t k c path hc u r node hgo v =>
    rename_i hstop
    have hgo : node.state = .unknown ∧ ∀ c ∈ node.clusters, (u.cluster c).state = .proven := by
      simpa using hgo
    cases hu with
    | step hr hup =>
      obtain ⟨-, -, -, hpend⟩ :=
        h.proveAbove hl hg hp (by simpa using hc) hr rfl hgo.1 hgo.2
      refine hpend.mono (fun _ _ _ => id) ?_ (fun _ _ _ => id) (fun _ _ _ => id)
      rintro p - ⟨hpu, -⟩ rfl
      simp only [Bool.not_eq_true', GoalState.isUnknown_eq_false] at hstop
      exact hstop hpu
  | case6 t k c path hc u r node hgo v hpu =>
    rename_i ih
    have hgo : node.state = .unknown ∧ ∀ c ∈ node.clusters, (u.cluster c).state = .proven := by
      simpa using hgo
    cases hu with
    | step hr hup =>
      obtain ⟨hs, hhas, hproof, hpend⟩ : t.Settling v ∧ v.HasApplication r ∧
          (v.application r).state = .proven ∧ v.Pending spent (· = node.parent) nowhere nowhere :=
        h.proveAbove hl hg hp (by simpa using hc) hr rfl hgo.1 hgo.2
      have hlv := hs.linked hl
      have hnode : (v.application r).parent = node.parent :=
        (settling_setApplicationState .proven hgo.1).parent_eq r
      obtain ⟨hpg, hmem⟩ := hlv.applicationParent r hhas
      rw [hnode] at hpg hmem
      obtain ⟨hs', hproven, hpend'⟩ := hpend.proveGoal hlv hpg (by simpa using hpu) hmem hproof rfl
      refine ih (hs'.linked hlv) (hs'.hasGoal.2 hpg) (hs'.upward ?_) hproven hpend'
      rw [← hnode, hs.parent_eq]
      exact hs.upward hup

/-- A cluster without provable goals is unprovable, and the application above becomes due. -/
theorem Pending.failCluster {t : Tree} {c : ClusterId}
    (h : t.Pending spent nowhere nowhere (· = c)) (hl : t.Linked) (hc : t.HasCluster c)
    (hu : (t.cluster c).state = .unknown)
    (hall : ∀ g ∈ (t.cluster c).goals, (t.goal g).state = .unprovable) :
    (t.setClusterState c .unprovable).Pending spent nowhere
      (fun r => (t.cluster c).parent = some r) nowhere := by
  have hb : t.ClusterSound { t.cluster c with state := .unprovable } := ⟨nofun, fun _ => hall⟩
  refine (h.setClusterState (s := .unprovable) hl hc hu nofun hb).mono (fun _ _ _ => id)
    (fun _ _ _ => id) ?_ ?_
  · rintro r - - (hr | ⟨hr, -⟩)
    · exact hr.elim
    · exact hr
  · rintro d - - ⟨hd, hne⟩
    exact hne hd

/-- An application with an unprovable cluster is unprovable, which may leave its goal spent. -/
theorem Pending.failApplication {t : Tree} {r : ApplicationId} {c : ClusterId}
    (h : t.Pending spent nowhere (· = r) nowhere) (hl : t.Linked) (hr : t.HasApplication r)
    (hu : (t.application r).state = .unknown) (hc : c ∈ (t.application r).clusters)
    (hfail : (t.cluster c).state = .unprovable) {w : Tree} {nodes : List Node}
    (he : w = (t.setApplicationState r .unprovable).prune nodes) :
    t.Settling w ∧ w.Pending (fun g => spent g ∨ g = (w.application r).parent) nowhere nowhere
      nowhere := by
  subst he
  have hb : t.ApplicationSound { t.application r with state := .unprovable } :=
    ⟨nofun, fun _ => ⟨c, hc, hfail⟩⟩
  have hset := settling_setApplicationState .unprovable hu
  have hprune := settling_prune (t.setApplicationState r .unprovable) nodes
  refine ⟨hset.trans hprune, ?_⟩
  rw [hprune.parent_eq, hset.parent_eq]
  refine Pending.prune ((h.setApplicationState (s := .unprovable) hl hr hu nofun hb).mono ?_ ?_ ?_
    (fun _ _ _ => id)) nodes
  · rintro g - - (hg | ⟨hg, -⟩)
    · exact .inl hg
    · exact .inr hg
  · rintro g - - (hg | ⟨-, hg⟩)
    · exact hg
    · cases hg
  · rintro q - - ⟨hq, hne⟩
    exact hne hq

/-- A spent goal is unprovable, and its cluster becomes due if it has no provable goal left. -/
theorem Pending.failGoal {t : Tree} {g : GoalId}
    (h : t.Pending (fun k => spent k ∨ k = g) nowhere nowhere nowhere) (hl : t.Linked)
    (hg : t.HasGoal g) (hs : t.GoalSpent (t.goal g)) :
    (t.setGoalState g .unprovable).Pending spent nowhere nowhere
      (fun c => c = (t.goal g).cluster ∧ ∀ k ∈ (t.cluster c).goals,
        ((t.setGoalState g .unprovable).goal k).state = .unprovable) := by
  obtain ⟨hu, hex, hall⟩ := hs
  have hb : t.GoalSound { t.goal g with state := .unprovable } :=
    ⟨nofun, nofun, fun _ => ⟨hex, hall⟩, (h.sound.goal g hg).forced⟩
  refine (h.setGoalState (s := .unprovable) hl hg hu nofun hb).mono ?_ ?_ (fun _ _ _ => id) ?_
  · rintro k - - ⟨hk | hk, hne⟩
    · exact hk
    · exact (hne hk).elim
  · rintro k - - ⟨hk, -⟩
    exact hk
  · rintro c - - (hc | ⟨hc, hall⟩)
    · exact hc.elim
    · exact ⟨hc, hall rfl⟩

/-- An unprovable goal that leaves no provable goal in its cluster: the cluster is unprovable. -/
theorem Pending.failHome {t u v : Tree} {g : GoalId} (hl : t.Linked) (hg : t.HasGoal g)
    (hu : (t.goal g).state = .unknown) (he : u = t.setGoalState g .unprovable)
    (h : u.Pending spent nowhere nowhere (fun c => c = (t.goal g).cluster ∧
      ∀ k ∈ (t.cluster c).goals, (u.goal k).state = .unprovable))
    (hcu : (u.cluster (t.goal g).cluster).state = .unknown)
    (hall : ∀ k ∈ (u.cluster (t.goal g).cluster).goals, (u.goal k).state = .unprovable)
    (he' : v = u.setClusterState (t.goal g).cluster .unprovable) :
    t.Settling v ∧ (v.cluster (t.goal g).cluster).state = .unprovable ∧
      v.Pending spent nowhere (fun r => (t.cluster (t.goal g).cluster).parent = some r) nowhere := by
  have hs : t.Settling u := he ▸ settling_setGoalState .unprovable hu
  have hc : u.HasCluster (t.goal g).cluster := hs.hasCluster.2 (hl.home g hg).1
  subst he'
  refine ⟨hs.trans (settling_setClusterState .unprovable hcu), ?_, ?_⟩
  · rw [Tree.setClusterState, cluster_modifyCluster, if_pos ⟨rfl, hc⟩]
  rw [← hs.above_eq]
  refine Pending.failCluster (h.mono (fun _ _ _ => id) (fun _ _ _ => id) (fun _ _ _ => id) ?_)
    (hs.linked hl) hc hcu hall
  rintro d - - ⟨hd, -⟩
  exact hd

/-- An unprovable goal that leaves no provable goal in its cluster: the application above is
unprovable, which may leave its goal spent. -/
theorem Pending.failAbove {t u v w : Tree} {g : GoalId} {r : ApplicationId} {nodes : List Node}
    (hl : t.Linked) (hg : t.HasGoal g)
    (hu : (t.goal g).state = .unknown) (he : u = t.setGoalState g .unprovable)
    (h : u.Pending spent nowhere nowhere (fun c => c = (t.goal g).cluster ∧
      ∀ k ∈ (t.cluster c).goals, (u.goal k).state = .unprovable))
    (hcu : (u.cluster (t.goal g).cluster).state = .unknown)
    (hall : ∀ k ∈ (u.cluster (t.goal g).cluster).goals, (u.goal k).state = .unprovable)
    (he' : v = u.setClusterState (t.goal g).cluster .unprovable)
    (hr : (t.cluster (t.goal g).cluster).parent = some r)
    (hru : (v.application r).state = .unknown)
    (he'' : w = (v.setApplicationState r .unprovable).prune nodes) :
    t.Settling w ∧ w.HasApplication r ∧
      w.Pending (fun k => spent k ∨ k = (w.application r).parent) nowhere nowhere nowhere := by
  obtain ⟨hs, hfail, hpend⟩ := h.failHome hl hg hu he hcu hall he'
  obtain ⟨hhas, hmem⟩ := hl.clusterParent _ r (hl.home g hg).1 hr
  have hpend : v.Pending spent nowhere (· = r) nowhere := by
    refine hpend.mono (fun _ _ _ => id) (fun _ _ _ => id) ?_ (fun _ _ _ => id)
    rintro q - - hq
    exact Option.some.inj (hq.symm.trans hr)
  obtain ⟨hs', hpend'⟩ := hpend.failApplication (hs.linked hl) (hs.hasApplication.2 hhas) hru
    (hs.clusters_eq r ▸ hmem) hfail he''
  exact ⟨hs.trans hs', hs'.hasApplication.2 (hs.hasApplication.2 hhas), hpend'⟩

/-- The failure of a goal, spread to the root, leaves nothing due. -/
theorem pending_spreadUnprovable {t : Tree} {path : List Level} {g : GoalId} (hl : t.Linked)
    (hg : t.HasGoal g) (hup : t.Upward g path) (hu : (t.goal g).state = .unknown)
    (h : (t.setGoalState g .unprovable).Pending spent nowhere nowhere
      (fun c => c = (t.goal g).cluster ∧ ∀ k ∈ (t.cluster c).goals,
        ((t.setGoalState g .unprovable).goal k).state = .unprovable)) :
    (t.spreadUnprovable path).Pending spent nowhere nowhere nowhere := by
  have hall {u : Tree} {c : ClusterId}
      (h : ¬(!(u.cluster c).state.isUnknown ||
        !(u.cluster c).goals.all fun g => (u.goal g).state.isUnprovable) = true) :
      (u.cluster c).state = .unknown ∧
        ∀ g ∈ (u.cluster c).goals, (u.goal g).state = .unprovable := by
    simpa using h
  fun_induction spreadUnprovable t path generalizing g with
  | case1 t => cases hup
  | case2 t k c above path hk =>
    have hk : (t.goal k).state ≠ .unknown := by simpa using hk
    cases hup with
    | top => exact (hk hu).elim
    | step => exact (hk hu).elim
  | case3 t k c above path hk u =>
    rename_i hstop
    have hstop : (u.cluster c).state ≠ .unknown ∨
        ∃ g ∈ (u.cluster c).goals, (u.goal g).state ≠ .unprovable := by
      simpa using hstop
    obtain ⟨rfl, rfl⟩ : (t.goal g).cluster = c ∧ g = k := by cases hup <;> exact ⟨rfl, rfl⟩
    refine h.mono (fun _ _ _ => id) (fun _ _ _ => id) (fun _ _ _ => id) ?_
    rintro d - ⟨hdu, -⟩ ⟨rfl, hfail⟩
    rcases hstop with hstop | ⟨k, hk, hstop⟩
    · exact hstop hdu
    · exact hstop (hfail k hk)
  | case4 t k c path hk u hgo =>
    cases hup with
    | top htop =>
      refine (h.failHome hl hg hu rfl (hall hgo).1 (hall hgo).2 rfl).2.2.mono (fun _ _ _ => id)
        (fun _ _ _ => id) ?_ (fun _ _ _ => id)
      rintro r - - hr
      cases htop.symm.trans hr
  | case5 t k c path hk u hgo v r =>
    rename_i hstop
    have hstop : (v.application r).state ≠ .unknown := by simpa using hstop
    cases hup with
    | step hr hup =>
      refine (h.failHome hl hg hu rfl (hall hgo).1 (hall hgo).2 rfl).2.2.mono (fun _ _ _ => id)
        (fun _ _ _ => id) ?_ (fun _ _ _ => id)
      rintro q - ⟨hqu, -⟩ hq
      cases hr.symm.trans hq
      exact hstop hqu
  | case6 t k c path hk u hgo v r hrun w parent =>
    rename_i hstop
    cases hup with
    | step hr hup =>
      obtain ⟨hs, hhas, hpend⟩ : t.Settling w ∧ w.HasApplication r ∧
          w.Pending (fun k => spent k ∨ k = parent) nowhere nowhere nowhere :=
        h.failAbove hl hg hu rfl (hall hgo).1 (hall hgo).2 rfl hr (by simpa using hrun) rfl
      refine hpend.mono ?_ (fun _ _ _ => id) (fun _ _ _ => id) (fun _ _ _ => id)
      rintro p - ⟨hpu, hex, hfailed⟩ (hp | rfl)
      · exact hp
      · have hfailed : w.allApplicationsFailed parent = true := by
          simpa [allApplicationsFailed] using hfailed
        have hpu : (w.goal parent).state.isUnknown = true := GoalState.isUnknown_iff.2 hpu
        rw [hpu, hex, hfailed] at hstop
        cases hstop
  | case7 t k c path hk u hgo v r hrun w parent hgoal =>
    rename_i ih
    cases hup with
    | step hr hup =>
      obtain ⟨hs, hhas, hpend⟩ : t.Settling w ∧ w.HasApplication r ∧
          w.Pending (fun k => spent k ∨ k = parent) nowhere nowhere nowhere :=
        h.failAbove hl hg hu rfl (hall hgo).1 (hall hgo).2 rfl hr (by simpa using hrun) rfl
      have hlw := hs.linked hl
      have hspent : w.GoalSpent (w.goal parent) := by
        simpa [GoalSpent, allApplicationsFailed, and_assoc] using hgoal
      have hpg := (hlw.applicationParent r hhas).1
      refine ih hlw hpg (hs.upward ?_) hspent.1 (hpend.failGoal hlw hpg hspent)
      rw [hs.parent_eq]
      exact hup

/-! ## Marking operations -/

/-- A change of a goal that keeps its references and its state can only leave this goal spent. -/
theorem Pending.modifyGoal {t : Tree} {goals : GoalId → Prop} {applications : ApplicationId → Prop}
    {clusters : ClusterId → Prop} (h : t.Pending spent goals applications clusters) {g : GoalId}
    {f : Goal → Goal} (hhome : ∀ a, (f a).cluster = a.cluster)
    (happs : ∀ a, (f a).applications = a.applications) (hstate : ∀ a, (f a).state = a.state)
    (hb : t.GoalSound (f (t.goal g))) :
    (t.modifyGoal g f).Pending (fun k => spent k ∨ k = g ∧ t.GoalSpent (f (t.goal g))) goals
      applications clusters := by
  have hlinks := sameLinks_modifyGoal t g hhome happs
  have hstates (k : GoalId) : ((t.modifyGoal g f).goal k).state = (t.goal k).state := by
    rw [goal_modifyGoal]
    split
    · exact hstate _
    · rfl
  have hcases (k : GoalId) : (t.modifyGoal g f).goal k = t.goal k ∨
      k = g ∧ (t.modifyGoal g f).goal k = f (t.goal g) := by
    rw [goal_modifyGoal]
    split
    · next hk => exact .inr ⟨hk.1, by rw [hk.1]⟩
    · exact .inl rfl
  refine ⟨⟨fun k hk => ?_, fun r hr => ?_, fun c hc => ?_⟩, fun k hk hd => ?_, fun k hk hd => ?_,
    fun r hr hd => ?_, fun c hc hd => ?_⟩
  · rcases hcases k with he | ⟨rfl, he⟩
    · rw [he]
      have hk' := h.sound.goal k (hlinks.hasGoal.1 hk)
      exact ⟨hk'.byRule, hk'.byNorm, hk'.unprovable, hk'.forced⟩
    · rw [he]
      exact ⟨hb.byRule, hb.byNorm, hb.unprovable, hb.forced⟩
  · have hr' := h.sound.application r hr
    exact ⟨hr'.proven, hr'.unprovable⟩
  · have hc' := h.sound.cluster c hc
    refine ⟨fun hp => ?_, fun hu k hk => ?_⟩
    · obtain ⟨k, hk, hkp⟩ := hc'.proven hp
      exact ⟨k, hk, by rw [hstates, hkp]⟩
    · rw [hstates]
      exact hc'.unprovable hu k hk
  · rcases hcases k with he | ⟨rfl, he⟩
    · rw [he] at hd
      exact .inl (h.spent k (hlinks.hasGoal.1 hk) hd)
    · rw [he] at hd
      exact .inr ⟨rfl, hd⟩
  · refine h.goal k (hlinks.hasGoal.1 hk) ?_
    rw [GoalDue, hstates, hlinks.applications] at hd
    exact hd
  · exact h.application r hr hd
  · refine h.cluster c hc ?_
    simp only [ClusterDue, hstates] at hd
    exact hd

variable {t : Tree} {g : GoalId}

/-- A goal that normalization closes is decided. -/
theorem markProvenByNorm_state (t : Tree) {g : GoalId} (hg : t.HasGoal g)
    (hu : (t.goal g).state = .unknown) : ((t.markProvenByNorm g).goal g).state = .provenByNorm := by
  rw [markProvenByNorm, if_neg (by simpa using hu)]
  refine (settling_spreadProven _ _).goal_state nofun ?_
  rw [setGoalState, goal_modifyGoal, if_pos ⟨rfl, hg⟩]

theorem pending_markProvenByNorm (h : t.Pending spent nowhere nowhere nowhere) (hl : t.Linked)
    (hg : t.HasGoal g) (happs : (t.goal g).applications = [])
    (hex : (t.goal g).isExhausted = false) :
    (t.markProvenByNorm g).Pending spent nowhere nowhere nowhere := by
  unfold markProvenByNorm
  split
  · exact h
  · next hu =>
    have hu : (t.goal g).state = .unknown := by simpa using hu
    have hs := settling_setGoalState .provenByNorm hu
    have hb : t.GoalSound { t.goal g with state := .provenByNorm } :=
      ⟨nofun, fun _ => ⟨happs, hex⟩, nofun, (h.sound.goal g hg).forced⟩
    have hl' := hs.linked hl
    refine pending_spreadProven hl' (hs.hasGoal.2 hg) (hl'.upward_path (hs.hasGoal.2 hg)) ?_ ?_
    · rw [Tree.setGoalState, goal_modifyGoal, if_pos ⟨rfl, hg⟩]
      rfl
    · rw [hs.home_eq]
      refine (h.setGoalState (s := .provenByNorm) hl hg hu nofun hb).mono ?_ ?_
        (fun _ _ _ => id) ?_
      · exact fun k _ _ hk => hk.1
      · exact fun k _ _ hk => hk.1
      · rintro c - - (hc | ⟨hc, -⟩)
        · exact hc.elim
        · exact hc

/-- An application without clusters is proven, and so is its goal. -/
theorem pending_markApplicationProven {r : ApplicationId}
    (h : t.Pending spent nowhere (· = r) nowhere) (hl : t.Linked) (hr : t.HasApplication r)
    (hu : (t.application r).state = .unknown) (hall : (t.application r).clusters = [])
    (hgu : (t.goal (t.application r).parent).state = .unknown) :
    (t.markApplicationProven r).Pending spent nowhere nowhere nowhere := by
  have hs := settling_setApplicationState .proven hu
  have hpend := h.proveApplication hl hr hu (by simp [hall])
  have hself : ((t.setApplicationState r .proven).application r).state = .proven := by
    rw [Tree.setApplicationState, application_modifyApplication, if_pos ⟨rfl, hr⟩]
  have hl' := hs.linked hl
  obtain ⟨hg, hm⟩ := hl'.applicationParent r (hs.hasApplication.2 hr)
  rw [← hs.parent_eq r] at hpend hgu
  have hgu' : ((t.setApplicationState r .proven).goal
      ((t.setApplicationState r .proven).application r).parent).state = .unknown := hgu
  obtain ⟨hs', hp, hpend'⟩ := hpend.proveGoal hl' hg hgu' hm hself rfl
  have hl'' := hs'.linked hl'
  unfold markApplicationProven
  rw [if_neg (by simpa using hu)]
  simp only [hgu', Bool.not_eq_true']
  exact pending_spreadProven hl'' (hs'.hasGoal.2 hg) (hl''.upward_path (hs'.hasGoal.2 hg)) hp hpend'

theorem Pending.unspent (h : t.Pending (fun k => spent k ∨ k = g) nowhere nowhere nowhere)
    (hg : ¬ t.GoalSpent (t.goal g)) : t.Pending spent nowhere nowhere nowhere := by
  refine h.mono ?_ (fun _ _ _ => id) (fun _ _ _ => id) (fun _ _ _ => id)
  rintro k - hk (hk' | rfl)
  · exact hk'
  · exact (hg hk).elim

/-- A spent goal is marked unprovable. -/
theorem pending_markUnprovable (h : t.Pending (fun k => spent k ∨ k = g) nowhere nowhere nowhere)
    (hl : t.Linked) (hg : t.HasGoal g) (hs : t.GoalSpent (t.goal g)) :
    (t.markUnprovable g).Pending spent nowhere nowhere nowhere :=
  pending_spreadUnprovable hl hg (hl.upward_path hg) hs.1 (h.failGoal hl hg hs)

/-- A goal that is given up is marked as such. -/
theorem markForcedUnprovable_forced (t : Tree) {g : GoalId} (hg : t.HasGoal g)
    (hu : (t.goal g).state = .unknown) : ((t.markForcedUnprovable g).goal g).forced = true := by
  rw [markForcedUnprovable, if_neg (by simpa using hu), (settling_markUnprovable _ g).forced_eq,
    goal_modifyGoal, if_pos ⟨rfl, hg⟩]

/-- A goal that is given up is unprovable. -/
theorem pending_markForcedUnprovable
    (h : t.Pending (fun k => spent k ∨ k = g) nowhere nowhere nowhere) (hl : t.Linked)
    (hg : t.HasGoal g) (happs : (t.goal g).applications = []) :
    (t.markForcedUnprovable g).Pending spent nowhere nowhere nowhere := by
  unfold markForcedUnprovable
  split
  · next hu =>
    refine h.unspent fun hs => ?_
    rw [hs.1] at hu
    cases hu
  · next hu =>
    have hu : (t.goal g).state = .unknown := by simpa using hu
    have hlinks := sameLinks_modifyGoal t g (f := ({ · with forced := true })) (fun _ => rfl)
      (fun _ => rfl)
    have hself : (t.modifyGoal g ({ · with forced := true })).goal g =
        { t.goal g with forced := true } := by
      rw [goal_modifyGoal, if_pos ⟨rfl, hg⟩]
    have hb : t.GoalSound { t.goal g with forced := true } := .of_unknown hu fun _ => happs
    have hpend := h.modifyGoal (f := ({ · with forced := true })) (fun _ => rfl) (fun _ => rfl)
      (fun _ => rfl) hb
    refine pending_markUnprovable (hpend.mono ?_ (fun _ _ _ => id) (fun _ _ _ => id)
      (fun _ _ _ => id)) (hlinks.linked hl) (hlinks.hasGoal.2 hg) ?_
    · exact fun k _ _ hk => hk.elim id fun hk => .inr hk.1
    · rw [hself]
      exact ⟨hu, rfl, by simp [happs]⟩

/-- Checking a goal whose rules may have run out settles it. -/
theorem pending_checkExhausted (h : t.Pending (fun k => spent k ∨ k = g) nowhere nowhere nowhere)
    (hl : t.Linked) (hg : t.HasGoal g) :
    (t.checkExhausted g).2.Pending spent nowhere nowhere nowhere := by
  unfold checkExhausted
  dsimp only
  split
  · next hu =>
    refine h.unspent fun hs => ?_
    rw [hs.1] at hu
    cases hu
  · split
    · next hno =>
      refine h.unspent fun hs => ?_
      rw [hs.1, hs.2.1] at hno
      cases hno
    · next hgo =>
      have hgo : (t.goal g).state = .unknown ∧ (t.goal g).isExhausted = true := by simpa using hgo
      split
      · next hall =>
        exact pending_markUnprovable h hl hg
          ⟨hgo.1, hgo.2, by simpa [allApplicationsFailed] using hall⟩
      · next hsome =>
        exact h.unspent fun hs => hsome (by simpa [allApplicationsFailed] using hs.2.2)

end

/-! ## Evaluated trees -/

/-- The stored states are those of a bottom-up evaluation. -/
structure Evaluated (t : Tree) : Prop where
  cluster_proven : ∀ c, t.HasCluster c → ((t.cluster c).state = .proven ↔
    ∃ g ∈ (t.cluster c).goals, (t.goal g).state.isProven = true)
  cluster_unprovable : ∀ c, t.HasCluster c → ((t.cluster c).state = .unprovable ↔
    ∀ g ∈ (t.cluster c).goals, (t.goal g).state = .unprovable)
  application_proven : ∀ r, t.HasApplication r → ((t.application r).state = .proven ↔
    ∀ c ∈ (t.application r).clusters, (t.cluster c).state = .proven)
  application_unprovable : ∀ r, t.HasApplication r → ((t.application r).state = .unprovable ↔
    ∃ c ∈ (t.application r).clusters, (t.cluster c).state = .unprovable)
  goal_proven : ∀ g, t.HasGoal g → (t.goal g).applications ≠ [] →
    ((t.goal g).state.isProven = true ↔
      ∃ r ∈ (t.goal g).applications, (t.application r).state = .proven)
  goal_unprovable : ∀ g, t.HasGoal g → ((t.goal g).state = .unprovable ↔
    (t.goal g).forced = true ∨ (t.goal g).isExhausted = true ∧
      ∀ r ∈ (t.goal g).applications, (t.application r).state = .unprovable)

/-- A sound tree in which nothing is due is evaluated. -/
theorem Pending.evaluated {t : Tree} (h : t.Pending nowhere nowhere nowhere nowhere) :
    t.Evaluated := by
  refine ⟨fun c hc => ?_, fun c hc => ?_, fun r hr => ?_, fun r hr => ?_, fun g hg hne => ?_,
    fun g hg => ?_⟩
  · have hs := h.sound.cluster c hc
    refine ⟨hs.proven, fun hp => ?_⟩
    obtain ⟨g, hg, hgp⟩ := hp
    cases hst : (t.cluster c).state with
    | unknown => exact (h.cluster c hc ⟨hst, .inl ⟨g, hg, hgp⟩⟩).elim
    | proven => rfl
    | unprovable =>
      rw [hs.unprovable hst g hg] at hgp
      cases hgp
  · have hs := h.sound.cluster c hc
    refine ⟨hs.unprovable, fun hall => ?_⟩
    cases hst : (t.cluster c).state with
    | unknown => exact (h.cluster c hc ⟨hst, .inr hall⟩).elim
    | proven =>
      obtain ⟨g, hg, hgp⟩ := hs.proven hst
      rw [hall g hg] at hgp
      cases hgp
    | unprovable => rfl
  · have hs := h.sound.application r hr
    refine ⟨hs.proven, fun hall => ?_⟩
    cases hst : (t.application r).state with
    | unknown => exact (h.application r hr ⟨hst, .inl hall⟩).elim
    | proven => rfl
    | unprovable =>
      obtain ⟨c, hc, hcu⟩ := hs.unprovable hst
      exact nomatch (hall c hc).symm.trans hcu
  · have hs := h.sound.application r hr
    refine ⟨hs.unprovable, fun hex => ?_⟩
    cases hst : (t.application r).state with
    | unknown => exact (h.application r hr ⟨hst, .inr hex⟩).elim
    | proven =>
      obtain ⟨c, hc, hcu⟩ := hex
      exact nomatch (hs.proven hst c hc).symm.trans hcu
    | unprovable => rfl
  · have hs := h.sound.goal g hg
    constructor
    · intro hp
      rcases GoalState.isProven_iff.1 hp with hst | hst
      · exact hs.byRule hst
      · exact (hne (hs.byNorm hst).1).elim
    · rintro ⟨r, hr, hp⟩
      cases hst : (t.goal g).state with
      | unknown => exact (h.goal g hg ⟨hst, r, hr, hp⟩).elim
      | provenByRule => rfl
      | provenByNorm => rfl
      | unprovable => exact nomatch hp.symm.trans ((hs.unprovable hst).2 r hr)
  · have hs := h.sound.goal g hg
    refine ⟨fun hst => .inr (hs.unprovable hst), fun hex => ?_⟩
    have hex : (t.goal g).isExhausted = true ∧
        ∀ r ∈ (t.goal g).applications, (t.application r).state = .unprovable := by
      rcases hex with hf | hex
      · exact ⟨by simp [Goal.isExhausted, hf], by simp [hs.forced hf]⟩
      · exact hex
    cases hst : (t.goal g).state with
    | unknown => exact (h.spent g hg ⟨hst, hex⟩).elim
    | provenByRule =>
      obtain ⟨r, hr, hp⟩ := hs.byRule hst
      exact nomatch hp.symm.trans (hex.2 r hr)
    | provenByNorm => exact nomatch hex.1.symm.trans (hs.byNorm hst).2
    | unprovable => rfl

section

variable {t t' : Tree}

/-- Goals with equal states have clusters with equal states. -/
theorem Evaluated.cluster_agree (h : t.Evaluated) (h' : t'.Evaluated) (hl : t.SameLinks t')
    {c : ClusterId} (hc : t.HasCluster c)
    (hg : ∀ g ∈ (t.cluster c).goals, (t'.goal g).state = (t.goal g).state) :
    (t'.cluster c).state = (t.cluster c).state := by
  refine NodeState.eq_of_iff ?_ ?_
  · rw [h.cluster_proven c hc, h'.cluster_proven c (hl.hasCluster.2 hc), hl.members]
    exact ⟨fun ⟨g, hm, hp⟩ => ⟨g, hm, hg g hm ▸ hp⟩, fun ⟨g, hm, hp⟩ => ⟨g, hm, hg g hm ▸ hp⟩⟩
  · rw [h.cluster_unprovable c hc, h'.cluster_unprovable c (hl.hasCluster.2 hc), hl.members]
    exact ⟨fun hall g hm => hg g hm ▸ hall g hm, fun hall g hm => hg g hm ▸ hall g hm⟩

/-- Clusters with equal states have applications with equal states. -/
theorem Evaluated.application_agree (h : t.Evaluated) (h' : t'.Evaluated) (hl : t.SameLinks t')
    {r : ApplicationId} (hr : t.HasApplication r)
    (hc : ∀ c ∈ (t.application r).clusters, (t'.cluster c).state = (t.cluster c).state) :
    (t'.application r).state = (t.application r).state := by
  refine NodeState.eq_of_iff ?_ ?_
  · rw [h.application_proven r hr, h'.application_proven r (hl.hasApplication.2 hr), hl.clusters]
    exact ⟨fun hall c hm => hc c hm ▸ hall c hm, fun hall c hm => hc c hm ▸ hall c hm⟩
  · rw [h.application_unprovable r hr, h'.application_unprovable r (hl.hasApplication.2 hr),
      hl.clusters]
    exact ⟨fun ⟨c, hm, hu⟩ => ⟨c, hm, hc c hm ▸ hu⟩, fun ⟨c, hm, hu⟩ => ⟨c, hm, hc c hm ▸ hu⟩⟩

/-- Applications with equal states have goals with equal states. -/
theorem Pending.goal_agree (h : t.Pending nowhere nowhere nowhere nowhere)
    (h' : t'.Pending nowhere nowhere nowhere nowhere) (hs : t.SameLinks t') {g : GoalId}
    (hg : t.HasGoal g) (hne : (t.goal g).applications ≠ [])
    (hex : (t'.goal g).isExhausted = (t.goal g).isExhausted)
    (hr : ∀ r ∈ (t.goal g).applications, (t'.application r).state = (t.application r).state) :
    (t'.goal g).state = (t.goal g).state := by
  have hg' := hs.hasGoal.2 hg
  have hne' : (t'.goal g).applications ≠ [] := by rwa [hs.applications]
  have hf : (t.goal g).forced ≠ true := fun hf => hne ((h.sound.goal g hg).forced hf)
  have hf' : (t'.goal g).forced ≠ true := fun hf => hne' ((h'.sound.goal g hg').forced hf)
  have hn := fun hst => hne ((h.sound.goal g hg).byNorm hst).1
  have hn' := fun hst => hne' ((h'.sound.goal g hg').byNorm hst).1
  have hp : (t'.goal g).state.isProven = true ↔ (t.goal g).state.isProven = true := by
    rw [h.evaluated.goal_proven g hg hne, h'.evaluated.goal_proven g hg' hne', hs.applications]
    exact ⟨fun ⟨r, hm, hst⟩ => ⟨r, hm, hr r hm ▸ hst⟩, fun ⟨r, hm, hst⟩ => ⟨r, hm, hr r hm ▸ hst⟩⟩
  have hu : (t'.goal g).state = .unprovable ↔ (t.goal g).state = .unprovable := by
    rw [h.evaluated.goal_unprovable g hg, h'.evaluated.goal_unprovable g hg', hs.applications, hex]
    simp only [hf, hf', Bool.false_eq_true, false_or]
    exact ⟨fun ⟨hx, hall⟩ => ⟨hx, fun r hm => hr r hm ▸ hall r hm⟩,
      fun ⟨hx, hall⟩ => ⟨hx, fun r hm => hr r hm ▸ hall r hm⟩⟩
  cases hst : (t.goal g).state <;> cases hst' : (t'.goal g).state <;>
    simp_all [GoalState.isProven]

/-- States are determined by the states of childless goals. -/
theorem Pending.agree (h : t.Pending nowhere nowhere nowhere nowhere)
    (h' : t'.Pending nowhere nowhere nowhere nowhere) (hl : t.Linked) (hs : t.SameLinks t')
    (hex : ∀ g, t.HasGoal g → (t.goal g).applications ≠ [] →
      (t'.goal g).isExhausted = (t.goal g).isExhausted)
    (hleaf : ∀ g, t.HasGoal g → (t.goal g).applications = [] →
      (t'.goal g).state = (t.goal g).state) :
    (∀ g, t.HasGoal g → (t'.goal g).state = (t.goal g).state) ∧
    (∀ r, t.HasApplication r → (t'.application r).state = (t.application r).state) ∧
    ∀ c, t.HasCluster c → (t'.cluster c).state = (t.cluster c).state := by
  have he := h.evaluated
  have he' := h'.evaluated
  -- goals below a goal are younger, so the induction is on the number of goals made later
  have hgoals (n : Nat) : ∀ g, t.HasGoal g → t.goals.size ≤ g.index + n →
      (t'.goal g).state = (t.goal g).state := by
    induction n with
    | zero =>
      intro g hg hn
      simp only [HasGoal] at hg
      omega
    | succ n ih =>
      intro g hg hn
      by_cases hne : (t.goal g).applications = []
      · exact hleaf g hg hne
      refine h.goal_agree h' hs hg hne (hex g hg hne) fun r hr => ?_
      obtain ⟨hhas, hparent⟩ := hl.applicationChild g hg r hr
      refine he.application_agree he' hs hhas fun c hc => ?_
      obtain ⟨hhasc, habove⟩ := hl.clusterChild r hhas c hc
      refine he.cluster_agree he' hs hhasc fun k hk => ?_
      obtain ⟨hhask, hhome⟩ := hl.member c hhasc k hk
      have hlt := hl.earlier k r hhask (by rw [parentApplication?, hhome, habove])
      rw [hparent] at hlt
      exact ih k hhask (by omega)
  have hgoal (g : GoalId) (hg : t.HasGoal g) := hgoals t.goals.size g hg (by omega)
  have hcluster (c : ClusterId) (hc : t.HasCluster c) :
      (t'.cluster c).state = (t.cluster c).state :=
    he.cluster_agree he' hs hc fun g hg => hgoal g (hl.member c hc g hg).1
  exact ⟨hgoal, fun r hr => he.application_agree he' hs hr fun c hc =>
    hcluster c (hl.clusterChild r hr c hc).1, hcluster⟩

end

end Tree

end ProofSearch
