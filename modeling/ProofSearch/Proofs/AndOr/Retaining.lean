import ProofSearch.Proofs.AndOr.Links

/-!
# Changes that keep all nodes

A search settles nodes, changes what a goal records about its own rules and adds applications.  None
of this takes a node away or moves one.

1. `Tree.Retains`: all nodes are still there, with the same variables, states and references.
2. `Settling.retains`, `retains_modifyGoal`, `Growth.retains`: the changes that a search makes.
3. `Retains.preState_eq`: a goal keeps the state in which it was made.
4. `Tree.Noted`: trees that differ in marks, counters and queues only.
-/

namespace ProofSearch

namespace Tree

/-- All nodes of `t` are in `t'`, with the same variables, states and references; goals may have
more applications. -/
structure Retains (t t' : Tree) : Prop where
  rootState : t'.rootState = t.rootState
  hasGoal : ∀ g, t.HasGoal g → t'.HasGoal g
  hasApplication : ∀ r, t.HasApplication r → t'.HasApplication r
  hasCluster : ∀ c, t.HasCluster c → t'.HasCluster c
  var : ∀ g, t.HasGoal g → (t'.goal g).var = (t.goal g).var
  home : ∀ g, t.HasGoal g → (t'.goal g).cluster = (t.goal g).cluster
  applications : ∀ g, t.HasGoal g → ∀ r ∈ (t.goal g).applications, r ∈ (t'.goal g).applications
  parent : ∀ r, t.HasApplication r → (t'.application r).parent = (t.application r).parent
  clusters : ∀ r, t.HasApplication r → (t'.application r).clusters = (t.application r).clusters
  post : ∀ r, t.HasApplication r → (t'.application r).post = (t.application r).post
  rule : ∀ r, t.HasApplication r → (t'.application r).rule = (t.application r).rule
  above : ∀ c, t.HasCluster c → (t'.cluster c).parent = (t.cluster c).parent
  members : ∀ c, t.HasCluster c → (t'.cluster c).goals = (t.cluster c).goals

variable {t t' : Tree}

theorem Settling.retains (h : t.Settling t') : t.Retains t' where
  rootState := h.rootState
  hasGoal _ := h.hasGoal.2
  hasApplication _ := h.hasApplication.2
  hasCluster _ := h.hasCluster.2
  var g _ := by rw [(h.goal g).eq]
  home g _ := h.home_eq g
  applications g _ r hr := by rwa [h.applications_eq]
  parent r _ := h.parent_eq r
  clusters r _ := h.clusters_eq r
  post r _ := by rw [(h.application r).eq]
  rule r _ := by rw [(h.application r).eq]
  above c _ := h.above_eq c
  members c _ := h.members_eq c

theorem retains_modifyGoal (t : Tree) (g : GoalId) {f : Goal → Goal}
    (hvar : (f (t.goal g)).var = (t.goal g).var)
    (hhome : (f (t.goal g)).cluster = (t.goal g).cluster)
    (happs : (f (t.goal g)).applications = (t.goal g).applications) :
    t.Retains (t.modifyGoal g f) := by
  refine ⟨rfl, fun k hk => by simpa [HasGoal, modifyGoal] using hk, fun _ => id, fun _ => id,
    fun k _ => ?_, fun k _ => ?_, fun k _ r hr => ?_, fun _ _ => rfl, fun _ _ => rfl,
    fun _ _ => rfl, fun _ _ => rfl, fun _ _ => rfl, fun _ _ => rfl⟩ <;> rw [goal_modifyGoal] <;> split
  · next hk => rw [hk.1, hvar]
  · rfl
  · next hk => rw [hk.1, hhome]
  · rfl
  · next hk =>
    rw [hk.1] at hr
    rwa [hk.1, happs]
  · exact hr

theorem Growth.retains {new : NewApplication} {copies : List GoalCopy}
    {groups : List (List Subgoal)} (h : Growth new copies groups t t') : t.Retains t' where
  rootState := h.rootState
  hasGoal _ := h.hasGoal
  hasApplication _ hr := h.hasApplication.2 (.inl hr)
  hasCluster _ := h.hasCluster
  var g hg := by
    obtain ⟨rs, he⟩ := h.exists_goal_eq hg
    rw [he]
  home _ := h.home_old
  applications g hg r hr := (h.mem_applications hg).2 (.inl hr)
  parent r hr := by rw [h.application_old r hr]
  clusters r hr := by rw [h.application_old r hr]
  post r hr := by rw [h.application_old r hr]
  rule r hr := by rw [h.application_old r hr]
  above c hc := by rw [h.cluster_old c hc]
  members c hc := by rw [h.cluster_old c hc]

/-- A new goal is one of the subgoals, with its own dependencies. -/
theorem Growth.goal_fresh {new : NewApplication} {copies : List GoalCopy}
    {groups : List (List Subgoal)} (h : Growth new copies groups t t') {g : GoalId}
    (hg : ¬ t.HasGoal g) (hg' : t'.HasGoal g) :
    ∃ c s, s ∈ groups.flatten ∧ t'.goal g = t.makeGoal new copies c s ∧
      t'.parentApplication? g = some ⟨t.applications.size⟩ := by
  obtain ⟨c, s, hc, hc', -, hs, he⟩ := h.goal_new g hg hg'
  refine ⟨c, s, hs, he, ?_⟩
  rw [parentApplication?, he]
  exact (h.cluster_new c hc hc').1

/-- A new goal is made in the state of the application. -/
theorem Growth.preState_fresh {new : NewApplication} {copies : List GoalCopy}
    {groups : List (List Subgoal)} (h : Growth new copies groups t t') {g : GoalId}
    (hg : ¬ t.HasGoal g) (hg' : t'.HasGoal g) : t'.preState g = new.post := by
  obtain ⟨-, -, -, -, habove⟩ := h.goal_fresh hg hg'
  rw [preState, habove]
  show (t'.application ⟨t.applications.size⟩).post = _
  rw [h.application_new]
  rfl

namespace Retains

theorem trans {t'' : Tree} (h : t.Retains t') (h' : t'.Retains t'') : t.Retains t'' where
  rootState := h'.rootState.trans h.rootState
  hasGoal g hg := h'.hasGoal g (h.hasGoal g hg)
  hasApplication r hr := h'.hasApplication r (h.hasApplication r hr)
  hasCluster c hc := h'.hasCluster c (h.hasCluster c hc)
  var g hg := (h'.var g (h.hasGoal g hg)).trans (h.var g hg)
  home g hg := (h'.home g (h.hasGoal g hg)).trans (h.home g hg)
  applications g hg r hr := h'.applications g (h.hasGoal g hg) r (h.applications g hg r hr)
  parent r hr := (h'.parent r (h.hasApplication r hr)).trans (h.parent r hr)
  clusters r hr := (h'.clusters r (h.hasApplication r hr)).trans (h.clusters r hr)
  post r hr := (h'.post r (h.hasApplication r hr)).trans (h.post r hr)
  rule r hr := (h'.rule r (h.hasApplication r hr)).trans (h.rule r hr)
  above c hc := (h'.above c (h.hasCluster c hc)).trans (h.above c hc)
  members c hc := (h'.members c (h.hasCluster c hc)).trans (h.members c hc)

theorem parentApplication?_eq (h : t.Retains t') (hl : t.Linked) {g : GoalId}
    (hg : t.HasGoal g) : t'.parentApplication? g = t.parentApplication? g := by
  rw [parentApplication?, parentApplication?, h.home g hg, h.above _ (hl.home g hg).1]

theorem preState_eq (h : t.Retains t') (hl : t.Linked) {g : GoalId} (hg : t.HasGoal g) :
    t'.preState g = t.preState g := by
  rw [preState, h.parentApplication?_eq hl hg, preState]
  split
  · next r hr => exact h.post r (hl.has_parent hg hr).1
  · exact h.rootState

end Retains

/-! ## Trees that record the same -/

/-- Both trees have the same nodes with the same links, variables, origins and recorded states. -/
structure Noted (t t' : Tree) : Prop extends SameLinks t t' where
  rootState : t'.rootState = t.rootState
  var : ∀ g, (t'.goal g).var = (t.goal g).var
  norm : ∀ g, (t'.goal g).norm = (t.goal g).norm
  vars : ∀ g, (t'.goal g).vars = (t.goal g).vars
  origin : ∀ g, (t'.goal g).origin = (t.goal g).origin
  rule : ∀ r, (t'.application r).rule = (t.application r).rule
  post : ∀ r, (t'.application r).post = (t.application r).post
  introduced : ∀ r, (t'.application r).introduced = (t.application r).introduced
  assigned : ∀ r, (t'.application r).assigned = (t.application r).assigned

theorem Settling.noted (h : t.Settling t') : t.Noted t' where
  toSameLinks := h.sameLinks
  rootState := h.rootState
  var g := by rw [(h.goal g).eq]
  norm g := by rw [(h.goal g).eq]
  vars g := by rw [(h.goal g).eq]
  origin g := by rw [(h.goal g).eq]
  rule r := by rw [(h.application r).eq]
  post r := by rw [(h.application r).eq]
  introduced r := by rw [(h.application r).eq]
  assigned r := by rw [(h.application r).eq]

theorem Noted.refl (t : Tree) : t.Noted t := (Settling.refl t).noted

theorem Noted.trans {t'' : Tree} (h : t.Noted t') (h' : t'.Noted t'') : t.Noted t'' where
  toSameLinks := h.toSameLinks.trans h'.toSameLinks
  rootState := h'.rootState.trans h.rootState
  var g := (h'.var g).trans (h.var g)
  norm g := (h'.norm g).trans (h.norm g)
  vars g := (h'.vars g).trans (h.vars g)
  origin g := (h'.origin g).trans (h.origin g)
  rule r := (h'.rule r).trans (h.rule r)
  post r := (h'.post r).trans (h.post r)
  introduced r := (h'.introduced r).trans (h.introduced r)
  assigned r := (h'.assigned r).trans (h.assigned r)

theorem Noted.retains (h : t.Noted t') : t.Retains t' where
  rootState := h.rootState
  hasGoal _ := h.hasGoal.2
  hasApplication _ := h.hasApplication.2
  hasCluster _ := h.hasCluster.2
  var g _ := h.var g
  home g _ := h.home g
  applications g _ r hr := by rwa [h.applications]
  parent r _ := h.parent r
  clusters r _ := h.clusters r
  post r _ := h.post r
  rule r _ := h.rule r
  above c _ := h.above c
  members c _ := h.members c

theorem SameLinks.preState_eq (h : t.SameLinks t') (hroot : t'.rootState = t.rootState)
    (hpost : ∀ r, (t'.application r).post = (t.application r).post) (g : GoalId) :
    t'.preState g = t.preState g := by
  unfold Tree.preState
  rw [h.parentApplication?_eq g, hroot]
  cases t.parentApplication? g with
  | none => rfl
  | some r => exact hpost r

theorem Noted.preState (h : t.Noted t') (g : GoalId) : t'.preState g = t.preState g :=
  h.toSameLinks.preState_eq h.rootState h.post g

theorem Noted.normPost? (h : t.Noted t') (g : GoalId) :
    (t'.goal g).normPost? = (t.goal g).normPost? := by
  rw [Goal.normPost?, h.norm, Goal.normPost?]

theorem Noted.normVar? (h : t.Noted t') (g : GoalId) :
    (t'.goal g).normVar? = (t.goal g).normVar? := by
  rw [Goal.normVar?, h.norm, Goal.normVar?]

/-- Marking a new application as proven changes nothing else. -/
theorem noted_of_added {c c' : Prop} {r : ApplicationId}
    (h : c ∧ t' = t.markApplicationProven r ∨ c' ∧ t' = t) : t.Noted t' := by
  rcases h with ⟨-, rfl⟩ | ⟨-, rfl⟩
  · exact (settling_markApplicationProven t r).noted
  · exact .refl _

/-- A change of a goal's marks, counters and queue. -/
theorem noted_modifyGoal (t : Tree) (g : GoalId) {f : Goal → Goal}
    (hf : ∀ a, (f a).cluster = a.cluster ∧ (f a).applications = a.applications ∧
      (f a).var = a.var ∧ (f a).norm = a.norm ∧ (f a).vars = a.vars ∧ (f a).origin = a.origin) :
    t.Noted (t.modifyGoal g f) := by
  have hgoal (k : GoalId) : (t.modifyGoal g f).goal k = t.goal k ∨
      (t.modifyGoal g f).goal k = f (t.goal k) := by
    rw [goal_modifyGoal]
    split
    · exact .inr rfl
    · exact .inl rfl
  refine ⟨sameLinks_modifyGoal t g (fun a => (hf a).1) (fun a => (hf a).2.1), rfl, fun k => ?_,
    fun k => ?_, fun k => ?_, fun k => ?_, fun _ => rfl, fun _ => rfl, fun _ => rfl,
    fun _ => rfl⟩ <;>
    rcases hgoal k with h | h <;> rw [h]
  · exact (hf _).2.2.1
  · exact (hf _).2.2.2.1
  · exact (hf _).2.2.2.2.1
  · exact (hf _).2.2.2.2.2

end Tree

end ProofSearch
