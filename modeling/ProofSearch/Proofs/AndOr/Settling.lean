import ProofSearch.AndOr.Settle

/-!
# What settling a tree changes

The walks that settle goals write states and marks and nothing else.

1. Look-up laws: what an updated tree answers for each node.
2. `Settling t t'`: the trees differ in states and marks only, no decided state is changed and no
   mark is taken back.
3. `settling_prune`, `settling_spreadProven`, `settling_spreadUnprovable` and the operations built
   from them: every marking operation is such a change.
4. `state_prune`: pruning leaves every state as it is.
-/

namespace ProofSearch

namespace Tree

/-! ## Look-ups -/

def HasGoal (t : Tree) (g : GoalId) : Prop := g.index < t.goals.size

def HasApplication (t : Tree) (r : ApplicationId) : Prop := r.index < t.applications.size

def HasCluster (t : Tree) (c : ClusterId) : Prop := c.index < t.clusters.size

instance (t : Tree) (g : GoalId) : Decidable (t.HasGoal g) :=
  inferInstanceAs (Decidable (g.index < t.goals.size))

instance (t : Tree) (r : ApplicationId) : Decidable (t.HasApplication r) :=
  inferInstanceAs (Decidable (r.index < t.applications.size))

instance (t : Tree) (c : ClusterId) : Decidable (t.HasCluster c) :=
  inferInstanceAs (Decidable (c.index < t.clusters.size))

theorem goal_of_not_has {t : Tree} {g : GoalId} (h : ¬ t.HasGoal g) : t.goal g = default := by
  rw [goal, Array.getD_eq_getD_getElem?, Array.getElem?_eq_none (Nat.le_of_not_lt h)]
  rfl

theorem application_of_not_has {t : Tree} {r : ApplicationId} (h : ¬ t.HasApplication r) :
    t.application r = default := by
  rw [application, Array.getD_eq_getD_getElem?, Array.getElem?_eq_none (Nat.le_of_not_lt h)]
  rfl

theorem cluster_of_not_has {t : Tree} {c : ClusterId} (h : ¬ t.HasCluster c) :
    t.cluster c = default := by
  rw [cluster, Array.getD_eq_getD_getElem?, Array.getElem?_eq_none (Nat.le_of_not_lt h)]
  rfl

/-- Reading an array that was changed at one place. -/
theorem getD_modify {α : Type} (xs : Array α) (i j : Nat) (f : α → α) (d : α) :
    (xs.modify i f).getD j d = if j = i ∧ i < xs.size then f (xs.getD j d) else xs.getD j d := by
  simp only [Array.getD_eq_getD_getElem?, Array.getElem?_modify]
  by_cases hij : i = j
  · subst hij
    by_cases hi : i < xs.size
    · simp [hi]
    · simp [hi]
  · simp [hij, Ne.symm hij]

theorem goal_modifyGoal (t : Tree) (g h : GoalId) (f : Goal → Goal) :
    (t.modifyGoal g f).goal h = if h = g ∧ t.HasGoal g then f (t.goal h) else t.goal h := by
  obtain ⟨i⟩ := g
  obtain ⟨j⟩ := h
  simpa [goal, modifyGoal, HasGoal] using getD_modify t.goals i j f default

theorem goal_modifyGoal_self {t : Tree} {g : GoalId} (h : t.HasGoal g) (f : Goal → Goal) :
    (t.modifyGoal g f).goal g = f (t.goal g) := by
  rw [goal_modifyGoal, if_pos ⟨rfl, h⟩]

theorem hasGoal_modifyGoal {t : Tree} {g k : GoalId} (f : Goal → Goal) (h : t.HasGoal k) :
    (t.modifyGoal g f).HasGoal k := by
  rw [HasGoal, modifyGoal, Array.size_modify]
  exact h

theorem application_modifyApplication (t : Tree) (r q : ApplicationId)
    (f : Application → Application) : (t.modifyApplication r f).application q =
      if q = r ∧ t.HasApplication r then f (t.application q) else t.application q := by
  obtain ⟨i⟩ := r
  obtain ⟨j⟩ := q
  simpa [application, modifyApplication, HasApplication] using
    getD_modify t.applications i j f default

theorem cluster_modifyCluster (t : Tree) (c d : ClusterId) (f : Cluster → Cluster) :
    (t.modifyCluster c f).cluster d =
      if d = c ∧ t.HasCluster c then f (t.cluster d) else t.cluster d := by
  obtain ⟨i⟩ := c
  obtain ⟨j⟩ := d
  simpa [cluster, modifyCluster, HasCluster] using getD_modify t.clusters i j f default

end Tree

/-! ## Changes of states and marks -/

/-- A decided state stays, and so does a mark. -/
structure KeepsVerdict {σ : Type} (unknown : σ) (s s' : σ) (mark mark' : Bool) : Prop where
  state : s ≠ unknown → s' = s
  mark : mark = true → mark' = true

namespace KeepsVerdict

variable {σ : Type} {unknown s₁ s₂ s₃ : σ} {i j k : Bool}

theorem refl : KeepsVerdict unknown s₁ s₁ i i := ⟨fun _ => rfl, id⟩

theorem trans (h : KeepsVerdict unknown s₁ s₂ i j) (h' : KeepsVerdict unknown s₂ s₃ j k) :
    KeepsVerdict unknown s₁ s₃ i k where
  state hs := by
    have hs₂ := h.state hs
    rw [h'.state (hs₂ ▸ hs), hs₂]
  mark hi := h'.mark (h.mark hi)

end KeepsVerdict

/-- `b` is the goal `a` with a state and a mark that may be new. -/
structure Goal.Settles (a b : Goal) : Prop extends
    KeepsVerdict .unknown a.state b.state a.irrelevant b.irrelevant where
  eq : b = { a with state := b.state, irrelevant := b.irrelevant }

structure Application.Settles (a b : Application) : Prop extends
    KeepsVerdict .unknown a.state b.state a.irrelevant b.irrelevant where
  eq : b = { a with state := b.state, irrelevant := b.irrelevant }

structure Cluster.Settles (a b : Cluster) : Prop extends
    KeepsVerdict .unknown a.state b.state a.irrelevant b.irrelevant where
  eq : b = { a with state := b.state, irrelevant := b.irrelevant }

theorem Goal.Settles.refl (a : Goal) : a.Settles a := ⟨.refl, rfl⟩

theorem Application.Settles.refl (a : Application) : a.Settles a := ⟨.refl, rfl⟩

theorem Cluster.Settles.refl (a : Cluster) : a.Settles a := ⟨.refl, rfl⟩

theorem Goal.Settles.trans {a b c : Goal} (h : a.Settles b) (h' : b.Settles c) : a.Settles c :=
  ⟨h.toKeepsVerdict.trans h'.toKeepsVerdict, by rw [h'.eq, h.eq]⟩

theorem Application.Settles.trans {a b c : Application} (h : a.Settles b) (h' : b.Settles c) :
    a.Settles c := ⟨h.toKeepsVerdict.trans h'.toKeepsVerdict, by rw [h'.eq, h.eq]⟩

theorem Cluster.Settles.trans {a b c : Cluster} (h : a.Settles b) (h' : b.Settles c) :
    a.Settles c := ⟨h.toKeepsVerdict.trans h'.toKeepsVerdict, by rw [h'.eq, h.eq]⟩

namespace Tree

/-- `t'` is `t` with more nodes decided and more nodes marked. -/
structure Settling (t t' : Tree) : Prop where
  goals_size : t'.goals.size = t.goals.size
  applications_size : t'.applications.size = t.applications.size
  clusters_size : t'.clusters.size = t.clusters.size
  rootState : t'.rootState = t.rootState
  goal : ∀ g, (t.goal g).Settles (t'.goal g)
  application : ∀ r, (t.application r).Settles (t'.application r)
  cluster : ∀ c, (t.cluster c).Settles (t'.cluster c)

theorem Settling.refl (t : Tree) : t.Settling t :=
  ⟨rfl, rfl, rfl, rfl, fun _ => .refl _, fun _ => .refl _, fun _ => .refl _⟩

theorem Settling.trans {t u v : Tree} (h : t.Settling u) (h' : u.Settling v) : t.Settling v where
  goals_size := h'.goals_size.trans h.goals_size
  applications_size := h'.applications_size.trans h.applications_size
  clusters_size := h'.clusters_size.trans h.clusters_size
  rootState := h'.rootState.trans h.rootState
  goal := fun g => (h.goal g).trans (h'.goal g)
  application := fun r => (h.application r).trans (h'.application r)
  cluster := fun c => (h.cluster c).trans (h'.cluster c)

theorem settling_modifyGoal {t : Tree} {g : GoalId} {f : Goal → Goal}
    (h : (t.goal g).Settles (f (t.goal g))) : t.Settling (t.modifyGoal g f) where
  goals_size := by simp [modifyGoal]
  applications_size := rfl
  clusters_size := rfl
  rootState := rfl
  goal := fun k => by
    rw [goal_modifyGoal]
    split
    · next hk => rw [hk.1]; exact h
    · exact .refl _
  application := fun r => .refl _
  cluster := fun c => .refl _

theorem settling_modifyApplication {t : Tree} {r : ApplicationId} {f : Application → Application}
    (h : (t.application r).Settles (f (t.application r))) :
    t.Settling (t.modifyApplication r f) where
  goals_size := rfl
  applications_size := by simp [modifyApplication]
  clusters_size := rfl
  rootState := rfl
  goal := fun g => .refl _
  application := fun q => by
    rw [application_modifyApplication]
    split
    · next hq => rw [hq.1]; exact h
    · exact .refl _
  cluster := fun c => .refl _

theorem settling_modifyCluster {t : Tree} {c : ClusterId} {f : Cluster → Cluster}
    (h : (t.cluster c).Settles (f (t.cluster c))) : t.Settling (t.modifyCluster c f) where
  goals_size := rfl
  applications_size := rfl
  clusters_size := by simp [modifyCluster]
  rootState := rfl
  goal := fun g => .refl _
  application := fun r => .refl _
  cluster := fun d => by
    rw [cluster_modifyCluster]
    split
    · next hd => rw [hd.1]; exact h
    · exact .refl _

theorem settling_setGoalState {t : Tree} {g : GoalId} (s : GoalState)
    (h : (t.goal g).state = .unknown) : t.Settling (t.setGoalState g s) :=
  settling_modifyGoal ⟨⟨fun hs => absurd h hs, id⟩, rfl⟩

theorem settling_setApplicationState {t : Tree} {r : ApplicationId} (s : NodeState)
    (h : (t.application r).state = .unknown) : t.Settling (t.setApplicationState r s) :=
  settling_modifyApplication ⟨⟨fun hs => absurd h hs, id⟩, rfl⟩

theorem settling_setClusterState {t : Tree} {c : ClusterId} (s : NodeState)
    (h : (t.cluster c).state = .unknown) : t.Settling (t.setClusterState c s) :=
  settling_modifyCluster ⟨⟨fun hs => absurd h hs, id⟩, rfl⟩

theorem settling_markIrrelevant (t : Tree) (n : Node) : t.Settling (t.markIrrelevant n) := by
  cases n with
  | goal g => exact settling_modifyGoal ⟨⟨fun _ => rfl, fun _ => rfl⟩, rfl⟩
  | application r => exact settling_modifyApplication ⟨⟨fun _ => rfl, fun _ => rfl⟩, rfl⟩
  | cluster c => exact settling_modifyCluster ⟨⟨fun _ => rfl, fun _ => rfl⟩, rfl⟩

theorem settling_prune (t : Tree) (nodes : List Node) : t.Settling (t.prune nodes) := by
  fun_induction prune t nodes with
  | case1 t => exact .refl t
  | case2 t n rest h ih => exact (settling_markIrrelevant t n).trans ih
  | case3 t n rest h ih => exact ih

theorem states_markIrrelevant (t : Tree) (n : Node) :
    (∀ g, ((t.markIrrelevant n).goal g).state = (t.goal g).state) ∧
    (∀ r, ((t.markIrrelevant n).application r).state = (t.application r).state) ∧
    ∀ c, ((t.markIrrelevant n).cluster c).state = (t.cluster c).state := by
  cases n with
  | goal h =>
    refine ⟨fun g => ?_, fun _ => rfl, fun _ => rfl⟩
    simp only [markIrrelevant, goal_modifyGoal]
    split <;> rfl
  | application q =>
    refine ⟨fun _ => rfl, fun r => ?_, fun _ => rfl⟩
    simp only [markIrrelevant, application_modifyApplication]
    split <;> rfl
  | cluster d =>
    refine ⟨fun _ => rfl, fun _ => rfl, fun c => ?_⟩
    simp only [markIrrelevant, cluster_modifyCluster]
    split <;> rfl

/-- Pruning decides nothing. -/
theorem states_prune (t : Tree) (nodes : List Node) :
    (∀ g, ((t.prune nodes).goal g).state = (t.goal g).state) ∧
    (∀ r, ((t.prune nodes).application r).state = (t.application r).state) ∧
    ∀ c, ((t.prune nodes).cluster c).state = (t.cluster c).state := by
  fun_induction prune t nodes with
  | case1 t => exact ⟨fun _ => rfl, fun _ => rfl, fun _ => rfl⟩
  | case2 t n rest h ih =>
    obtain ⟨hg, hr, hc⟩ := states_markIrrelevant t n
    exact ⟨fun g => (ih.1 g).trans (hg g), fun r => (ih.2.1 r).trans (hr r),
      fun c => (ih.2.2 c).trans (hc c)⟩
  | case3 t n rest h ih => exact ih

@[simp] theorem goal_state_prune (t : Tree) (nodes : List Node) (g : GoalId) :
    ((t.prune nodes).goal g).state = (t.goal g).state := (states_prune t nodes).1 g

@[simp] theorem application_state_prune (t : Tree) (nodes : List Node) (r : ApplicationId) :
    ((t.prune nodes).application r).state = (t.application r).state := (states_prune t nodes).2.1 r

@[simp] theorem cluster_state_prune (t : Tree) (nodes : List Node) (c : ClusterId) :
    ((t.prune nodes).cluster c).state = (t.cluster c).state := (states_prune t nodes).2.2 c

/-! ## The marking operations -/

theorem settling_pruneOtherGoals (t : Tree) (c : ClusterId) (g : GoalId) :
    t.Settling (t.pruneOtherGoals c g) := settling_prune t _

theorem settling_pruneOtherApplications (t : Tree) (g : GoalId) (r : ApplicationId) :
    t.Settling (t.pruneOtherApplications g r) := settling_prune t _

theorem settling_pruneOtherClusters (t : Tree) (r : ApplicationId) (c : ClusterId) :
    t.Settling (t.pruneOtherClusters r c) := settling_prune t _

theorem settling_spreadProven (t : Tree) (path : List Level) :
    t.Settling (t.spreadProven path) := by
  have first {t : Tree} {g : GoalId} {c : ClusterId} (h : ¬(!(t.cluster c).state.isUnknown) = true) :
      t.Settling ((t.setClusterState c .proven).pruneOtherGoals c g) :=
    (settling_setClusterState _ (by simpa using h)).trans (settling_pruneOtherGoals ..)
  have second {t : Tree} {r : ApplicationId} {b : Bool}
      (h : ¬(!(t.application r).state.isUnknown || b) = true) :
      t.Settling (t.setApplicationState r .proven) :=
    settling_setApplicationState _ (by simp_all)
  fun_induction spreadProven t path with
  | case1 t => exact .refl t
  | case2 t g c above path h => exact .refl t
  | case3 t g c path h u => exact first h
  | case4 t g c path h u r node h' => exact first h
  | case5 t g c path h u r node h' v hv => exact (first h).trans (second h')
  | case6 t g c path h u r node h' v hv ih =>
    have third : v.Settling ((v.setGoalState node.parent .provenByRule).pruneOtherApplications
        node.parent r) :=
      (settling_setGoalState _ (by simpa using hv)).trans (settling_pruneOtherApplications ..)
    exact (((first h).trans (second h')).trans third).trans ih

theorem settling_spreadUnprovable (t : Tree) (path : List Level) :
    t.Settling (t.spreadUnprovable path) := by
  have first {t : Tree} {g : GoalId} (h : ¬(!(t.goal g).state.isUnknown) = true) :
      t.Settling (t.setGoalState g .unprovable) :=
    settling_setGoalState _ (by simpa using h)
  have second {t : Tree} {c : ClusterId} {b : Bool}
      (h : ¬(!(t.cluster c).state.isUnknown || b) = true) :
      t.Settling (t.setClusterState c .unprovable) :=
    settling_setClusterState _ (by simp_all)
  have third {t : Tree} {r : ApplicationId} {c : ClusterId}
      (h : ¬(!(t.application r).state.isUnknown) = true) :
      t.Settling ((t.setApplicationState r .unprovable).pruneOtherClusters r c) :=
    (settling_setApplicationState _ (by simpa using h)).trans (settling_pruneOtherClusters ..)
  fun_induction spreadUnprovable t path with
  | case1 t => exact .refl t
  | case2 t g c above path h => exact .refl t
  | case3 t g c above path h u h' => exact first h
  | case4 t g c path h u h' v => exact (first h).trans (second h')
  | case5 t g c path h u h' v r hr => exact (first h).trans (second h')
  | case6 t g c path h u h' v r hr w parent hw =>
    exact ((first h).trans (second h')).trans (third hr)
  | case7 t g c path h u h' v r hr w parent hw ih =>
    exact (((first h).trans (second h')).trans (third hr)).trans ih

theorem settling_markProvenByNorm (t : Tree) (g : GoalId) : t.Settling (t.markProvenByNorm g) := by
  unfold markProvenByNorm
  split
  · exact .refl t
  · next h =>
    exact (settling_setGoalState _ (by simpa using h)).trans (settling_spreadProven ..)

theorem settling_markApplicationProven (t : Tree) (r : ApplicationId) :
    t.Settling (t.markApplicationProven r) := by
  unfold markApplicationProven
  split
  · exact .refl t
  · next h =>
    have hr := settling_setApplicationState .proven (show (t.application r).state = .unknown by
      simpa using h)
    dsimp only
    split
    · exact hr
    · next hg =>
      have hg := settling_setGoalState .provenByRule (by simpa using hg)
      exact ((hr.trans hg).trans (settling_pruneOtherApplications ..)).trans
        (settling_spreadProven ..)

theorem settling_markUnprovable (t : Tree) (g : GoalId) : t.Settling (t.markUnprovable g) :=
  settling_spreadUnprovable t _

theorem settling_checkExhausted (t : Tree) (g : GoalId) : t.Settling (t.checkExhausted g).2 := by
  unfold checkExhausted
  dsimp only
  split
  · exact .refl t
  · split
    · exact .refl t
    · split
      · exact settling_markUnprovable t g
      · exact .refl t

end Tree

end ProofSearch
