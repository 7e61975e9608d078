import ProofSearch.Proofs.AndOr.Adding

/-!
# Consistency of trees

A tree grows and is decided step by step.  However the steps are mixed, the stored states are those
of a bottom-up evaluation.

1. `Step`: an application is added to a goal, or a goal is decided.
2. `Consistent`: links are mutual, states are sound and nothing is due; `Consistent.step` says that
   every step keeps this.
3. `Keeps`: decided nodes keep their states.
4. `settleGoals_outcome`: what a list of decisions on childless goals does to each goal.
5. `states_evaluated`: the stored states of every tree that steps can reach are evaluated and final,
   and decisions on childless goals can be made in any order.
-/

namespace ProofSearch

/-- How a goal is decided from outside. -/
inductive Decision where
  /-- Normalization closed the goal. -/
  | closed
  /-- The goal is given up. -/
  | givenUp
  /-- No rule is left to try. -/
  | exhausted
deriving DecidableEq, Repr

/-- The state of a childless goal after a decision. -/
def Decision.outcome : Decision → GoalState
  | .closed => .provenByNorm
  | .givenUp | .exhausted => .unprovable

/-- The goal with no rule left to try. -/
def Goal.withoutRules (goal : Goal) : Goal := { goal with selected := true, queue := [] }

namespace Tree

/-! ## Steps -/

def settleGoal (t : Tree) (g : GoalId) : Decision → Tree
  | .closed => t.markProvenByNorm g
  | .givenUp => t.markForcedUnprovable g
  | .exhausted => ((t.modifyGoal g Goal.withoutRules).checkExhausted g).2

/-- One step in the life of a tree, on an undecided goal.  Only a goal for which rules are left gets
a new application, and only a childless goal is closed by normalization or given up. -/
inductive Step : Tree → Tree → Prop
  | add {t t' : Tree} {new : NewApplication} {added : AddedApplication} {s s' : Solver} :
      t.HasGoal new.parent → (t.goal new.parent).state = .unknown →
      (t.goal new.parent).isExhausted = false → Ends (t.addApplication new) s (added, t') s' →
      Step t t'
  | settle {t : Tree} {g : GoalId} {d : Decision} :
      t.HasGoal g → (t.goal g).state = .unknown →
      (d ≠ .exhausted → (t.goal g).applications = []) → Step t (t.settleGoal g d)

/-- Links are mutual, states are sound and no node is due. -/
structure Consistent (t : Tree) : Prop where
  linked : t.Linked
  pending : t.Pending nowhere nowhere nowhere nowhere

theorem consistent_ofGoal (goal : Var) (vars : VarSet) (state : Snapshot) :
    (ofGoal goal vars state).Consistent := by
  refine ⟨linked_ofGoal goal vars state, ⟨⟨fun g h => ?_,
    fun r h => (not_hasApplication_ofGoal h).elim, fun c h => ?_⟩, fun g h hd => ?_,
    fun g h hd => ?_, fun r h => (not_hasApplication_ofGoal h).elim, fun c h hd => ?_⟩⟩
  · rw [hasGoal_ofGoal.1 h]
    exact .of_unknown rfl nofun
  · rw [hasCluster_ofGoal.1 h]
    exact ⟨nofun, nofun⟩
  · rw [hasGoal_ofGoal.1 h] at hd
    exact nomatch hd.2.1
  · rw [hasGoal_ofGoal.1 h] at hd
    obtain ⟨-, r, hr, -⟩ := hd
    cases hr
  · rw [hasCluster_ofGoal.1 h] at hd
    rcases hd.2 with ⟨g, hg, hp⟩ | hall
    · cases List.mem_singleton.1 hg
      cases hp
    · exact nomatch hall Tree.root (List.mem_singleton.2 rfl)

/-- An undecided goal that is not due has rules left or applications that may succeed. -/
theorem Consistent.not_exhausted {t : Tree} (h : t.Consistent) {g : GoalId} (hg : t.HasGoal g)
    (hu : (t.goal g).state = .unknown) (happs : (t.goal g).applications = []) :
    (t.goal g).isExhausted = false := by
  by_contra hex
  exact h.pending.spent g hg ⟨hu, by simpa using hex, by simp [happs]⟩

theorem Consistent.not_forced {t : Tree} (h : t.Consistent) {g : GoalId} (hg : t.HasGoal g)
    (hu : (t.goal g).state = .unknown) : (t.goal g).forced = false := by
  by_contra hf
  have hf : (t.goal g).forced = true := by simpa using hf
  have := h.not_exhausted hg hu ((h.pending.sound.goal g hg).forced hf)
  simp [Goal.isExhausted, hf] at this

theorem sameLinks_withoutRules (t : Tree) (g : GoalId) :
    t.SameLinks (t.modifyGoal g Goal.withoutRules) :=
  sameLinks_modifyGoal t g (fun _ => rfl) fun _ => rfl

theorem sameLinks_settleGoal (t : Tree) (g : GoalId) (d : Decision) :
    t.SameLinks (t.settleGoal g d) := by
  cases d with
  | closed => exact (settling_markProvenByNorm t g).sameLinks
  | givenUp =>
    show t.SameLinks (t.markForcedUnprovable g)
    unfold markForcedUnprovable
    split
    · exact (Settling.refl t).sameLinks
    · exact (sameLinks_modifyGoal t g (f := ({ · with forced := true })) (fun _ => rfl)
        fun _ => rfl).trans (settling_markUnprovable _ g).sameLinks
  | exhausted =>
    exact (sameLinks_withoutRules t g).trans (settling_checkExhausted _ g).sameLinks

/-- Deciding a goal makes nothing due. -/
theorem Consistent.settleGoal {t : Tree} (h : t.Consistent) {g : GoalId} {d : Decision}
    (hg : t.HasGoal g) (hu : (t.goal g).state = .unknown)
    (happs : d ≠ .exhausted → (t.goal g).applications = []) : (t.settleGoal g d).Consistent := by
  refine ⟨(sameLinks_settleGoal t g d).linked h.linked, ?_⟩
  cases d with
  | closed =>
    have happs := happs nofun
    exact pending_markProvenByNorm h.pending h.linked hg happs (h.not_exhausted hg hu happs)
  | givenUp =>
    exact pending_markForcedUnprovable (h.pending.mono (fun _ _ _ => .inl) (fun _ _ _ => id)
      (fun _ _ _ => id) fun _ _ _ => id) h.linked hg (happs nofun)
  | exhausted =>
    have hlinks := sameLinks_withoutRules t g
    have hb : t.GoalSound (t.goal g).withoutRules :=
      .of_unknown hu (h.pending.sound.goal g hg).forced
    refine pending_checkExhausted ?_ (hlinks.linked h.linked) (hlinks.hasGoal.2 hg)
    refine (h.pending.modifyGoal (f := Goal.withoutRules) (fun _ => rfl) (fun _ => rfl)
      (fun _ => rfl) hb).mono ?_ (fun _ _ _ => id) (fun _ _ _ => id) (fun _ _ _ => id)
    exact fun k _ _ hk => hk.imp_right And.left

theorem Consistent.step {t t' : Tree} (h : t.Consistent) (hs : t.Step t') : t'.Consistent := by
  cases hs with
  | add hg hu hex hadd =>
    refine ⟨h.linked.addApplication hadd hg, (h.pending.addApplication h.linked hadd hg hu
      (h.not_forced hg hu)).mono ?_ (fun _ _ _ => id) (fun _ _ _ => id) (fun _ _ _ => id)⟩
    exact fun k _ _ hk => hk.1
  | settle hg hu happs => exact h.settleGoal hg hu happs

/-- What steps can make of a consistent tree is consistent. -/
theorem Consistent.steps {t t' : Tree} (h : t.Consistent)
    (hs : Relation.ReflTransGen Step t t') : t'.Consistent := by
  induction hs with
  | refl => exact h
  | tail _ hstep ih => exact ih.step hstep

/-! ## Decided states are final -/

/-- The nodes of `t` are nodes of `t'`, and those that are decided have the same state there. -/
structure Keeps (t t' : Tree) : Prop where
  goal : ∀ g, t.HasGoal g → t'.HasGoal g ∧
    ((t.goal g).state ≠ .unknown → (t'.goal g).state = (t.goal g).state)
  application : ∀ r, t.HasApplication r → t'.HasApplication r ∧
    ((t.application r).state ≠ .unknown → (t'.application r).state = (t.application r).state)
  cluster : ∀ c, t.HasCluster c → t'.HasCluster c ∧
    ((t.cluster c).state ≠ .unknown → (t'.cluster c).state = (t.cluster c).state)

theorem Keeps.refl (t : Tree) : t.Keeps t :=
  ⟨fun _ h => ⟨h, fun _ => rfl⟩, fun _ h => ⟨h, fun _ => rfl⟩, fun _ h => ⟨h, fun _ => rfl⟩⟩

theorem Keeps.trans {t u v : Tree} (h : t.Keeps u) (h' : u.Keeps v) : t.Keeps v := by
  refine ⟨fun g hg => ?_, fun r hr => ?_, fun c hc => ?_⟩
  · obtain ⟨hg', hs⟩ := h.goal g hg
    obtain ⟨hg'', hs'⟩ := h'.goal g hg'
    exact ⟨hg'', fun hne => by rw [hs' (hs hne ▸ hne), hs hne]⟩
  · obtain ⟨hr', hs⟩ := h.application r hr
    obtain ⟨hr'', hs'⟩ := h'.application r hr'
    exact ⟨hr'', fun hne => by rw [hs' (hs hne ▸ hne), hs hne]⟩
  · obtain ⟨hc', hs⟩ := h.cluster c hc
    obtain ⟨hc'', hs'⟩ := h'.cluster c hc'
    exact ⟨hc'', fun hne => by rw [hs' (hs hne ▸ hne), hs hne]⟩

theorem Settling.keeps {t t' : Tree} (h : t.Settling t') : t.Keeps t' :=
  ⟨fun g hg => ⟨h.hasGoal.2 hg, (h.goal g).state⟩,
    fun r hr => ⟨h.hasApplication.2 hr, (h.application r).state⟩,
    fun c hc => ⟨h.hasCluster.2 hc, (h.cluster c).state⟩⟩

theorem keeps_modifyGoal (t : Tree) (g : GoalId) {f : Goal → Goal}
    (hstate : ∀ a, (f a).state = a.state) : t.Keeps (t.modifyGoal g f) := by
  refine ⟨fun k hk => ⟨by simpa [HasGoal, Tree.modifyGoal] using hk, fun _ => ?_⟩,
    fun _ h => ⟨h, fun _ => rfl⟩, fun _ h => ⟨h, fun _ => rfl⟩⟩
  rw [goal_modifyGoal]
  split
  · exact hstate _
  · rfl

theorem Growth.keeps {new : NewApplication} {copies : List GoalCopy}
    {groups : List (List Subgoal)} {t t' : Tree} (h : Growth new copies groups t t') :
    t.Keeps t' :=
  ⟨fun _ hg => ⟨h.hasGoal hg, fun _ => h.state_old hg⟩,
    fun r hr => ⟨h.hasApplication.2 (.inl hr), fun _ => by rw [h.application_old r hr]⟩,
    fun c hc => ⟨h.hasCluster hc, fun _ => by rw [h.cluster_old c hc]⟩⟩

theorem keeps_settleGoal (t : Tree) (g : GoalId) (d : Decision) : t.Keeps (t.settleGoal g d) := by
  cases d with
  | closed => exact (settling_markProvenByNorm t g).keeps
  | givenUp =>
    show t.Keeps (t.markForcedUnprovable g)
    unfold markForcedUnprovable
    split
    · exact .refl t
    · exact (keeps_modifyGoal t g (f := ({ · with forced := true })) fun _ => rfl).trans
        (settling_markUnprovable _ g).keeps
  | exhausted =>
    exact (keeps_modifyGoal t g (f := Goal.withoutRules) fun _ => rfl).trans
      (settling_checkExhausted _ g).keeps

theorem Step.keeps {t t' : Tree} (h : t.Step t') : t.Keeps t' := by
  cases h with
  | add hg hu hex hadd =>
    obtain ⟨new', copies, groups, u, -, -, -, hgrow, -, -, ht⟩ := addApplication_growth hadd hg
    rcases ht with ⟨-, rfl⟩ | ⟨-, rfl⟩
    · exact hgrow.keeps.trans (settling_markApplicationProven u _).keeps
    · exact hgrow.keeps
  | settle => exact keeps_settleGoal ..

/-- Decided states stay as they are whatever steps follow. -/
theorem keeps_steps {t t' : Tree} (h : Relation.ReflTransGen Step t t') : t.Keeps t' := by
  induction h with
  | refl => exact .refl t
  | tail _ hstep ih => exact ih.trans hstep.keeps

/-! ## Decisions in any order -/

theorem goal_state_setGoalState (t : Tree) (g k : GoalId) (s : GoalState) :
    ((t.setGoalState g s).goal k).state = (t.goal k).state ∨
      ((t.setGoalState g s).goal k).state = s := by
  rw [setGoalState, goal_modifyGoal]
  split
  · exact .inr rfl
  · exact .inl rfl

/-- A spreading proof proves goals by rules only. -/
theorem goal_state_spreadProven (t : Tree) (path : List Level) (k : GoalId) :
    ((t.spreadProven path).goal k).state = (t.goal k).state ∨
      ((t.spreadProven path).goal k).state = .provenByRule := by
  have hfirst (t : Tree) (c : ClusterId) (g k : GoalId) :
      (((t.setClusterState c .proven).pruneOtherGoals c g).goal k).state = (t.goal k).state :=
    goal_state_prune ..
  fun_induction spreadProven t path with
  | case1 | case2 => exact .inl rfl
  | case3 | case4 | case5 => exact .inl (hfirst ..)
  | case6 t g c path h u r node h' v hv =>
    rename_i ih
    rcases ih with ih | ih
    · rw [ih, pruneOtherApplications, goal_state_prune]
      rcases goal_state_setGoalState v node.parent k .provenByRule with hs | hs
      · exact .inl (hs.trans (hfirst ..))
      · exact .inr hs
    · exact .inr ih

theorem goal_state_spreadUnprovable (t : Tree) (path : List Level) (k : GoalId) :
    ((t.spreadUnprovable path).goal k).state = (t.goal k).state ∨
      ((t.spreadUnprovable path).goal k).state = .unprovable := by
  have hlast (t : Tree) (r : ApplicationId) (c : ClusterId) (k : GoalId) :
      (((t.setApplicationState r .unprovable).pruneOtherClusters r c).goal k).state =
        (t.goal k).state := goal_state_prune ..
  fun_induction spreadUnprovable t path with
  | case1 | case2 => exact .inl rfl
  | case3 | case4 | case5 => exact goal_state_setGoalState ..
  | case6 t g c path h u h' v r hr w parent =>
    rw [show (w.goal k).state = (u.goal k).state from hlast v r c k]
    exact goal_state_setGoalState ..
  | case7 t g c path h u h' v r hr w parent hw =>
    rename_i ih
    rcases ih with ih | ih
    · rw [ih, show (w.goal k).state = (u.goal k).state from hlast v r c k]
      exact goal_state_setGoalState ..
    · exact .inr ih

theorem goal_state_checkExhausted (t : Tree) (g k : GoalId) :
    ((t.checkExhausted g).2.goal k).state = (t.goal k).state ∨
      ((t.checkExhausted g).2.goal k).state = .unprovable := by
  unfold checkExhausted
  dsimp only
  split
  · exact .inl rfl
  · split
    · exact .inl rfl
    · split
      · exact goal_state_spreadUnprovable ..
      · exact .inl rfl

/-- What a decision on `g` can do to another goal. -/
theorem settleGoal_other (t : Tree) {g k : GoalId} (hk : k ≠ g) (d : Decision) :
    ((t.settleGoal g d).goal k).isExhausted = (t.goal k).isExhausted ∧
      (((t.settleGoal g d).goal k).state = (t.goal k).state ∨
        ((t.settleGoal g d).goal k).state = .provenByRule ∨
        ((t.settleGoal g d).goal k).state = .unprovable) := by
  have hself (f : Goal → Goal) : (t.modifyGoal g f).goal k = t.goal k := by
    rw [goal_modifyGoal, if_neg fun h => hk h.1]
  cases d with
  | closed =>
    rw [show t.settleGoal g .closed = t.markProvenByNorm g from rfl]
    refine ⟨(settling_markProvenByNorm t g).isExhausted_eq k, ?_⟩
    unfold markProvenByNorm
    split
    · exact .inl rfl
    · rcases goal_state_spreadProven (t.setGoalState g .provenByNorm)
        ((t.setGoalState g .provenByNorm).path g) k with hs | hs
      · exact .inl (hs.trans (by rw [setGoalState, hself]))
      · exact .inr (.inl hs)
  | givenUp =>
    rw [show t.settleGoal g .givenUp = t.markForcedUnprovable g from rfl]
    unfold markForcedUnprovable
    split
    · exact ⟨rfl, .inl rfl⟩
    · refine ⟨by rw [(settling_markUnprovable _ g).isExhausted_eq k, hself], ?_⟩
      rcases goal_state_spreadUnprovable (t.modifyGoal g ({ · with forced := true }))
        ((t.modifyGoal g ({ · with forced := true })).path g) k with hs | hs
      · exact .inl (hs.trans (by rw [hself]))
      · exact .inr (.inr hs)
  | exhausted =>
    rw [show t.settleGoal g .exhausted =
      ((t.modifyGoal g Goal.withoutRules).checkExhausted g).2 from rfl]
    refine ⟨by rw [(settling_checkExhausted _ g).isExhausted_eq k, hself], ?_⟩
    rcases goal_state_checkExhausted (t.modifyGoal g Goal.withoutRules) g k with hs | hs
    · exact .inl (hs.trans (by rw [hself]))
    · exact .inr (.inr hs)

/-- A childless goal is decided by its own decision only. -/
theorem Consistent.leaf_settleGoal {t : Tree} (h : t.Consistent) {g k : GoalId} {d : Decision}
    (hg : t.HasGoal g) (hu : (t.goal g).state = .unknown) (happs : (t.goal g).applications = [])
    (hk : t.HasGoal k) (hne : k ≠ g) (hleaf : (t.goal k).applications = []) :
    ((t.settleGoal g d).goal k).state = (t.goal k).state := by
  have hlinks := sameLinks_settleGoal t g d
  have hs := (h.settleGoal (d := d) hg hu fun _ => happs).pending.sound.goal k
    (hlinks.hasGoal.2 hk)
  obtain ⟨hex, hst | hst | hst⟩ := settleGoal_other t hne d
  · exact hst
  · obtain ⟨r, hr, -⟩ := hs.byRule hst
    rw [hlinks.applications, hleaf] at hr
    cases hr
  · by_cases hku : (t.goal k).state = .unknown
    · have := (hs.unprovable hst).1
      rw [hex, h.not_exhausted hk hku hleaf] at this
      cases this
    · exact ((keeps_settleGoal t g d).goal k hk).2 hku

/-- The decision on a childless goal gives its outcome. -/
theorem Consistent.settleGoal_outcome {t : Tree} (h : t.Consistent) {g : GoalId} {d : Decision}
    (hg : t.HasGoal g) (hu : (t.goal g).state = .unknown)
    (happs : (t.goal g).applications = []) :
    ((t.settleGoal g d).goal g).state = d.outcome := by
  have hlinks := sameLinks_settleGoal t g d
  have he := (h.settleGoal (d := d) hg hu fun _ => happs).pending.evaluated.goal_unprovable g
    (hlinks.hasGoal.2 hg)
  cases d with
  | closed => exact t.markProvenByNorm_state hg hu
  | givenUp => exact he.2 (.inl (t.markForcedUnprovable_forced hg hu))
  | exhausted =>
    refine he.2 (.inr ⟨?_, ?_⟩)
    · refine ((settling_checkExhausted _ g).isExhausted_eq g).trans ?_
      rw [goal_modifyGoal, if_pos ⟨rfl, hg⟩]
      simp [Goal.isExhausted, Goal.withoutRules]
    · rw [hlinks.applications, happs]
      exact List.forall_mem_nil _

/-- Decisions made one after the other. -/
def settleGoals (t : Tree) (ds : List (GoalId × Decision)) : Tree :=
  ds.foldl (fun t d => t.settleGoal d.1 d.2) t

/-- A goal about which nothing is known and to which no rule was applied. -/
def IsLeaf (t : Tree) (g : GoalId) : Prop :=
  t.HasGoal g ∧ (t.goal g).state = .unknown ∧ (t.goal g).applications = []

instance (t : Tree) (g : GoalId) : Decidable (t.IsLeaf g) :=
  inferInstanceAs (Decidable (_ ∧ _ ∧ _))

/-- The states of all nodes. -/
def states (t : Tree) : List GoalState × List NodeState × List NodeState :=
  (t.goals.toList.map (·.state), t.applications.toList.map (·.state),
    t.clusters.toList.map (·.state))

/-- Decisions on different leaves give these leaves their outcomes and leave other leaves alone. -/
theorem Consistent.settleGoals {ds : List (GoalId × Decision)} : ∀ {t : Tree}, t.Consistent →
    (ds.map (·.1)).Nodup → (∀ d ∈ ds, t.IsLeaf d.1) →
    (t.settleGoals ds).Consistent ∧ t.SameLinks (t.settleGoals ds) ∧
      Relation.ReflTransGen Step t (t.settleGoals ds) ∧
      (∀ d ∈ ds, ((t.settleGoals ds).goal d.1).state = d.2.outcome) ∧
      ∀ g, t.HasGoal g → g ∉ ds.map (·.1) →
        ((t.settleGoals ds).goal g).isExhausted = (t.goal g).isExhausted ∧
        ((t.goal g).applications = [] → ((t.settleGoals ds).goal g).state = (t.goal g).state) := by
  induction ds with
  | nil =>
    intro t h _ _
    exact ⟨h, (Settling.refl t).sameLinks, .refl, nofun, fun _ _ _ => ⟨rfl, fun _ => rfl⟩⟩
  | cons d ds ih =>
    intro t h hn hd
    obtain ⟨g, d⟩ := d
    rw [List.map_cons, List.nodup_cons] at hn
    obtain ⟨hg, hu, happs⟩ := hd (g, d) List.mem_cons_self
    have hlinks := sameLinks_settleGoal t g d
    have hother {k : GoalId} (hk : k ∈ ds.map (·.1)) : k ≠ g := fun he => hn.1 (he ▸ hk)
    have hleaves : ∀ e ∈ ds, (t.settleGoal g d).IsLeaf e.1 := by
      intro e he
      obtain ⟨hk, hku, hka⟩ := hd e (List.mem_cons_of_mem _ he)
      refine ⟨hlinks.hasGoal.2 hk, ?_, by rw [hlinks.applications, hka]⟩
      rw [h.leaf_settleGoal hg hu happs hk (hother (List.mem_map_of_mem he)) hka, hku]
    obtain ⟨hc, hl, hsteps, hin, hout⟩ := ih (h.settleGoal (d := d) hg hu fun _ => happs) hn.2
      hleaves
    refine ⟨hc, hlinks.trans hl, .head (.settle hg hu fun _ => happs) hsteps, ?_, ?_⟩
    · intro e he
      rcases List.mem_cons.1 he with rfl | he
      · obtain ⟨-, hst⟩ := hout g (hlinks.hasGoal.2 hg) hn.1
        exact (hst (by rw [hlinks.applications, happs])).trans (h.settleGoal_outcome hg hu happs)
      · exact hin e he
    · intro k hk hnot
      rw [List.map_cons, List.mem_cons, not_or] at hnot
      obtain ⟨hex, hst⟩ := hout k (hlinks.hasGoal.2 hk) hnot.2
      refine ⟨hex.trans (settleGoal_other t hnot.1 d).1, fun hka => ?_⟩
      exact (hst (by rw [hlinks.applications, hka])).trans
        (h.leaf_settleGoal hg hu happs hk hnot.1 hka)

/-- Trees of the same size whose nodes agree have the same states. -/
theorem SameLinks.states_eq {t t' : Tree} (hl : t.SameLinks t')
    (hg : ∀ g, t.HasGoal g → (t'.goal g).state = (t.goal g).state)
    (hr : ∀ r, t.HasApplication r → (t'.application r).state = (t.application r).state)
    (hc : ∀ c, t.HasCluster c → (t'.cluster c).state = (t.cluster c).state) :
    t'.states = t.states := by
  have hlist {α β : Type} {f : α → β} {as bs : Array α} {d : α} (hsize : bs.size = as.size)
      (h : ∀ i, i < as.size → f (bs.getD i d) = f (as.getD i d)) :
      bs.toList.map f = as.toList.map f := by
    refine List.ext_getElem (by simpa using hsize) fun i hi hi' => ?_
    simp only [List.length_map, Array.length_toList] at hi hi'
    have := h i hi'
    simp only [Array.getD_eq_getD_getElem?, hi, hi', Array.getElem?_eq_getElem,
      Option.getD_some] at this
    simpa using this
  simp only [states, Prod.mk.injEq]
  exact ⟨hlist hl.goals_size fun i hi => hg ⟨i⟩ hi,
    hlist hl.applications_size fun i hi => hr ⟨i⟩ hi, hlist hl.clusters_size fun i hi => hc ⟨i⟩ hi⟩

/-- The order of decisions on different leaves does not matter. -/
theorem Consistent.settleGoals_perm {t : Tree} (h : t.Consistent)
    {ds ds' : List (GoalId × Decision)} (hp : ds.Perm ds') (hn : (ds.map (·.1)).Nodup)
    (hd : ∀ d ∈ ds, t.IsLeaf d.1) : (t.settleGoals ds).states = (t.settleGoals ds').states := by
  have hmem (g : GoalId) : g ∈ ds.map (·.1) ↔ g ∈ ds'.map (·.1) := (hp.map _).mem_iff
  obtain ⟨hc, hl, -, hin, hout⟩ := h.settleGoals hn hd
  obtain ⟨hc', hl', -, hin', hout'⟩ := h.settleGoals ((hp.map _).nodup_iff.1 hn)
    fun d hd' => hd d (hp.mem_iff.2 hd')
  have hlinks := hl'.symm.trans hl
  have hagree := hc'.pending.agree hc.pending hc'.linked hlinks (fun g hg hne => ?_)
    fun g hg hleaf => ?_
  · exact hlinks.states_eq hagree.1 hagree.2.1 hagree.2.2
  · have hnot : g ∉ ds.map (·.1) := by
      intro hm
      obtain ⟨d, hd', rfl⟩ := List.mem_map.1 hm
      exact hne (by rw [hl'.applications, (hd d hd').2.2])
    have hg := hl'.hasGoal.1 hg
    rw [(hout g hg hnot).1, (hout' g hg (mt (hmem g).2 hnot)).1]
  · by_cases hm : g ∈ ds.map (·.1)
    · obtain ⟨d, hd', rfl⟩ := List.mem_map.1 hm
      rw [hin d hd', hin' d (hp.mem_iff.1 hd')]
    · have hg := hl'.hasGoal.1 hg
      rw [hl'.applications] at hleaf
      rw [(hout g hg hm).2 hleaf, (hout' g hg (mt (hmem g).2 hm)).2 hleaf]

/-- In every tree that steps can reach the stored states are evaluated.  Decided states never change
again, and decisions on different leaves are possible in any order and give the same states. -/
theorem states_evaluated {goal : Var} {vars : VarSet} {state : Snapshot} {t : Tree}
    (h : Relation.ReflTransGen Step (ofGoal goal vars state) t) :
    t.Evaluated ∧ (∀ t', Relation.ReflTransGen Step t t' → t.Keeps t') ∧
      ∀ ds ds' : List (GoalId × Decision), ds.Perm ds' → (ds.map (·.1)).Nodup →
        (∀ d ∈ ds, t.IsLeaf d.1) → Relation.ReflTransGen Step t (t.settleGoals ds) ∧
          (t.settleGoals ds).states = (t.settleGoals ds').states := by
  have hc := (consistent_ofGoal goal vars state).steps h
  exact ⟨hc.pending.evaluated, fun t' => keeps_steps, fun ds ds' hp hn hd =>
    ⟨(hc.settleGoals hn hd).2.2.1, hc.settleGoals_perm hp hn hd⟩⟩

/-- A root with one application and two subgoals, one of them closed and the other given up. -/
theorem states_evaluated_two_subgoals : ∃ t,
    Relation.ReflTransGen Step (ofGoal ⟨1⟩ ∅ .empty) t ∧ t.goals.size = 3 ∧ t.Evaluated ∧
      (t.settleGoals [(⟨1⟩, .closed), (⟨2⟩, .givenUp)]).states =
        (t.settleGoals [(⟨2⟩, .givenUp), (⟨1⟩, .closed)]).states := by
  have hadd := exists_ends (x := (ofGoal ⟨1⟩ ∅ .empty).addApplication {
      parent := root
      rule := ⟨"split", .tentative⟩
      post := ⟨(Context.empty.declareFresh ⟨2⟩ ⟨.const "A", [], none⟩).declareFresh ⟨3⟩
        ⟨.const "B", [], none⟩, .empty⟩
      goals := [⟨2⟩, ⟨3⟩]
      introduced := .ofList [⟨2⟩, ⟨3⟩]
      assigned := ∅
      probability := .hundred
      branch := .empty
      iteration := 1 }) (s := .empty)
    (fun a _ => decide (a.2.goals.size = 3 ∧ a.2.IsLeaf ⟨1⟩ ∧ a.2.IsLeaf ⟨2⟩)) (by decide +kernel)
  obtain ⟨⟨added, t⟩, s, hends, hp⟩ := hadd
  obtain ⟨hsize, hleaf, hleaf'⟩ := of_decide_eq_true hp
  have hreach := Relation.ReflTransGen.single
    (Step.add (linked_ofGoal ⟨1⟩ ∅ .empty).root rfl rfl hends)
  obtain ⟨heval, -, hperm⟩ := states_evaluated hreach
  refine ⟨t, hreach, hsize, heval, (hperm [(⟨1⟩, .closed), (⟨2⟩, .givenUp)]
    [(⟨2⟩, .givenUp), (⟨1⟩, .closed)] (.swap ..) (by decide) ?_).2⟩
  simp [hleaf, hleaf']

end Tree

end ProofSearch
