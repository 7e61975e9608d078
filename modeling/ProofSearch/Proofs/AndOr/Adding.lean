import ProofSearch.Proofs.AndOr.Evaluation

/-!
# Adding rule applications

1. `Growth.pending`: new nodes decide nothing; only an application without clusters is due.
2. `addApplication_growth`: an application is added with copies of dependent siblings, one cluster
   for each group of its subgoals, and is proven at once if there is none.
3. `Linked.addApplication`, `Pending.addApplication`: an added application keeps a tree linked and
   leaves nothing due.
-/

namespace ProofSearch

namespace Tree

/-! ## What is added -/

/-- Copying siblings changes the post-state, the goals and the recorded effects only. -/
theorem carrySiblings_ends {t : Tree} {new new' : NewApplication} {copies : List GoalCopy}
    {s s' : Solver} (h : Ends (t.carrySiblings new) s (new', copies) s') :
    new' = { new with
      post := new'.post, goals := new'.goals, introduced := new'.introduced,
      assigned := new'.assigned } := by
  unfold carrySiblings at h
  simp only [ends_ite, ends_pure, ends_bind] at h
  rcases h with ⟨-, h, -⟩ | ⟨-, a, u, -, b, v, -, c, w, -, h, -⟩
  · cases h
    rfl
  · cases h
    rfl

/-! ## New nodes decide nothing -/

namespace Growth

variable {new : NewApplication} {copies : List GoalCopy} {groups : List (List Subgoal)}
  {t t' : Tree}

theorem state_old (h : Growth new copies groups t t') {g : GoalId} (hg : t.HasGoal g) :
    (t'.goal g).state = (t.goal g).state := by
  obtain ⟨rs, he⟩ := h.exists_goal_eq hg
  rw [he]

theorem isExhausted_old (h : Growth new copies groups t t') {g : GoalId} (hg : t.HasGoal g) :
    (t'.goal g).isExhausted = (t.goal g).isExhausted := by
  obtain ⟨rs, he⟩ := h.exists_goal_eq hg
  rw [he]
  rfl

/-- Nothing is known of a new goal. -/
theorem goal_blank (h : Growth new copies groups t t') {g : GoalId} (hg : ¬ t.HasGoal g)
    (hg' : t'.HasGoal g) : (t'.goal g).state = .unknown ∧ (t'.goal g).applications = [] ∧
      (t'.goal g).isExhausted = false ∧ (t'.goal g).forced = false := by
  obtain ⟨c, s, -, -, -, -, he⟩ := h.goal_new g hg hg'
  rw [he]
  exact ⟨rfl, rfl, rfl, rfl⟩

theorem application_fresh (h : Growth new copies groups t t') :
    (t'.application ⟨t.applications.size⟩).state = .unknown := by
  rw [h.application_new]
  rfl

theorem sound (h : Growth new copies groups t t') (hl : t.Linked) (hs : t.Sound)
    (hu : (t.goal new.parent).state = .unknown) (hf : (t.goal new.parent).forced = false) :
    t'.Sound := by
  refine ⟨fun g hg => ?_, fun r hr => ?_, fun c hc => ?_⟩
  · by_cases hg' : t.HasGoal g
    · by_cases hp : g = new.parent
      · rw [hp, h.goal_parent]
        exact .of_unknown hu fun hf' => nomatch hf'.symm.trans hf
      · rw [h.goal_old g hg' hp]
        have hb := hs.goal g hg'
        have hold (r : ApplicationId) (hr : r ∈ (t.goal g).applications) :
            t'.application r = t.application r :=
          h.application_old r (hl.applicationChild g hg' r hr).1
        refine ⟨fun hst => ?_, hb.byNorm, fun hst => ?_, hb.forced⟩
        · obtain ⟨r, hr, hp⟩ := hb.byRule hst
          exact ⟨r, hr, by rw [hold r hr, hp]⟩
        · obtain ⟨hex, hall⟩ := hb.unprovable hst
          exact ⟨hex, fun r hr => by rw [hold r hr, hall r hr]⟩
    · obtain ⟨hst, -, -, hf'⟩ := h.goal_blank hg' hg
      exact .of_unknown hst fun hf => nomatch hf.symm.trans hf'
  · rcases h.hasApplication.1 hr with hr' | rfl
    · rw [h.application_old r hr']
      have hb := hs.application r hr'
      have hold (c : ClusterId) (hc : c ∈ (t.application r).clusters) :
          t'.cluster c = t.cluster c :=
        h.cluster_old c (hl.clusterChild r hr' c hc).1
      refine ⟨fun hst c hc => by rw [hold c hc, hb.proven hst c hc], fun hst => ?_⟩
      obtain ⟨c, hc, hcu⟩ := hb.unprovable hst
      exact ⟨c, hc, by rw [hold c hc, hcu]⟩
    · have hst := h.application_fresh
      exact ⟨fun hst' => (nomatch hst.symm.trans hst'), fun hst' => nomatch hst.symm.trans hst'⟩
  · by_cases hc' : t.HasCluster c
    · rw [h.cluster_old c hc']
      have hb := hs.cluster c hc'
      refine ⟨fun hst => ?_, fun hst g hg => ?_⟩
      · obtain ⟨g, hg, hp⟩ := hb.proven hst
        exact ⟨g, hg, by rw [h.state_old (hl.member c hc' g hg).1, hp]⟩
      · rw [h.state_old (hl.member c hc' g hg).1, hb.unprovable hst g hg]
    · have hst := (h.cluster_new c hc' hc).2.1
      exact ⟨fun hst' => (nomatch hst.symm.trans hst'), fun hst' => nomatch hst.symm.trans hst'⟩

/-- New nodes are not due, except for an application without clusters; its goal is not spent. -/
theorem pending (h : Growth new copies groups t t') (hl : t.Linked) {spent : GoalId → Prop}
    (hp : t.Pending spent nowhere nowhere nowhere) (hg : t.HasGoal new.parent)
    (hu : (t.goal new.parent).state = .unknown) (hf : (t.goal new.parent).forced = false) :
    t'.Pending (fun k => spent k ∧ k ≠ new.parent) nowhere
      (fun r => r = ⟨t.applications.size⟩ ∧ groups = []) nowhere := by
  have hnew : (⟨t.applications.size⟩ : ApplicationId) ∈ (t'.goal new.parent).applications :=
    (h.mem_applications hg).2 (.inr ⟨rfl, rfl⟩)
  have happ {g : GoalId} (hg' : t.HasGoal g) {r : ApplicationId}
      (hr : r ∈ (t.goal g).applications) : t'.application r = t.application r :=
    h.application_old r (hl.applicationChild g hg' r hr).1
  refine ⟨h.sound hl hp.sound hu hf, fun k hk hd => ?_, fun k hk hd => ?_, fun r hr hd => ?_,
    fun c hc hd => ?_⟩
  · obtain ⟨hku, hex, hall⟩ := hd
    by_cases hk' : t.HasGoal k
    · rw [h.state_old hk'] at hku
      rw [h.isExhausted_old hk'] at hex
      refine ⟨hp.spent k hk' ⟨hku, hex, fun r hr => ?_⟩, ?_⟩
      · rw [← happ hk' hr]
        exact hall r ((h.mem_applications hk').2 (.inl hr))
      · rintro rfl
        cases (hall _ hnew).symm.trans h.application_fresh
    · cases hex.symm.trans (h.goal_blank hk' hk).2.2.1
  · obtain ⟨hku, r, hr, hrp⟩ := hd
    by_cases hk' : t.HasGoal k
    · rw [h.state_old hk'] at hku
      rcases (h.mem_applications hk').1 hr with hr' | ⟨-, rfl⟩
      · exact hp.goal k hk' ⟨hku, r, hr', happ hk' hr' ▸ hrp⟩
      · cases hrp.symm.trans h.application_fresh
    · rw [(h.goal_blank hk' hk).2.1] at hr
      cases hr
  · obtain ⟨hru, hdue⟩ := hd
    rcases h.hasApplication.1 hr with hr' | rfl
    · rw [h.application_old r hr'] at hru hdue
      have hold (c : ClusterId) (hc : c ∈ (t.application r).clusters) :
          t'.cluster c = t.cluster c :=
        h.cluster_old c (hl.clusterChild r hr' c hc).1
      refine (hp.application r hr' ⟨hru, hdue.imp (fun hall c hc => ?_) ?_⟩).elim
      · rw [← hold c hc, hall c hc]
      · rintro ⟨c, hc, hcu⟩
        exact ⟨c, hc, hold c hc ▸ hcu⟩
    · refine ⟨rfl, ?_⟩
      by_contra hne
      have hfresh (c : ClusterId) (hc : c ∈ (t'.application ⟨t.applications.size⟩).clusters) :
          (t'.cluster c).state = .unknown := by
        obtain ⟨hc', hc''⟩ := h.mem_clusters_new.1 hc
        exact (h.cluster_new c hc' hc'').2.1
      rcases hdue with hall | ⟨c, hc, hcu⟩
      · have hfirst : (⟨t.clusters.size⟩ : ClusterId) ∈
            (t'.application ⟨t.applications.size⟩).clusters := by
          refine h.mem_clusters_new.2 ⟨by simp [HasCluster], ?_⟩
          have := List.length_pos_iff.2 hne
          simp only [HasCluster, h.clusters_size]
          omega
        cases (hall _ hfirst).symm.trans (hfresh _ hfirst)
      · cases hcu.symm.trans (hfresh c hc)
  · obtain ⟨hcu, hdue⟩ := hd
    by_cases hc' : t.HasCluster c
    · rw [h.cluster_old c hc'] at hcu hdue
      have hold (g : GoalId) (hg : g ∈ (t.cluster c).goals) :
          (t'.goal g).state = (t.goal g).state := h.state_old (hl.member c hc' g hg).1
      refine hp.cluster c hc' ⟨hcu, hdue.imp ?_ fun hall g hg => ?_⟩
      · rintro ⟨g, hg, hgp⟩
        exact ⟨g, hg, hold g hg ▸ hgp⟩
      · rw [← hold g hg, hall g hg]
    · obtain ⟨-, -, -, hne, hmem⟩ := h.cluster_new c hc' hc
      have hfresh (g : GoalId) (hg : g ∈ (t'.cluster c).goals) : (t'.goal g).state = .unknown :=
        (h.goal_blank (hmem g hg).1 (hmem g hg).2.1).1
      rcases hdue with ⟨g, hg, hgp⟩ | hall
      · rw [hfresh g hg] at hgp
        cases hgp
      · obtain ⟨g, hg⟩ := List.exists_mem_of_ne_nil _ hne
        cases (hall g hg).symm.trans (hfresh g hg)

end Growth

/-! ## Added applications -/

section

variable {t t' : Tree} {new : NewApplication} {added : AddedApplication} {s s' : Solver}

/-- The nodes that an added application brings, and what is settled by it. -/
theorem addApplication_growth (h : Ends (t.addApplication new) s (added, t') s')
    (hg : t.HasGoal new.parent) : ∃ new' copies groups u,
      Ends (t.carrySiblings new) s (new', copies) s' ∧
      new'.post.context.clusterGoals new'.goals = .ok groups ∧ new'.parent = new.parent ∧
      Growth new' copies groups t u ∧ added.application = ⟨t.applications.size⟩ ∧
      (∀ g, g ∈ added.goals ↔ ¬ t.HasGoal g ∧ u.HasGoal g) ∧
      (groups = [] ∧ t' = u.markApplicationProven ⟨t.applications.size⟩ ∨ groups ≠ [] ∧ t' = u) := by
  obtain ⟨new', copies, groups, hc, hgroups, happ, hadded, ht⟩ := addApplication_ends h
  have hparent : new'.parent = new.parent := by rw [carrySiblings_ends hc]
  have hgrow := growth_addNodes t (hparent ▸ hg) copies
    (fun members hm => Context.clusterGoals_ne_nil hgroups hm)
  refine ⟨new', copies, groups, _, hc, hgroups, hparent, hgrow, happ, fun g => ?_, ?_⟩
  · obtain ⟨i⟩ := g
    rw [hadded]
    simp only [List.mem_map, List.mem_range, GoalId.mk.injEq, HasGoal]
    constructor
    · rintro ⟨k, hk, rfl⟩
      omega
    · intro hi
      exact ⟨i - t.goals.size, by omega, by omega⟩
  · have hempty : added.goals.isEmpty = true ↔ groups = [] := by
      rw [hadded, hgrow.goals_size, List.isEmpty_iff, List.map_eq_nil_iff, List.range_eq_nil]
      constructor
      · intro hlen
        have hflat : groups.flatten = [] := List.length_eq_zero_iff.1 (by omega)
        rw [List.flatten_eq_nil_iff] at hflat
        refine List.eq_nil_iff_forall_not_mem.2 fun members hm => ?_
        exact Context.clusterGoals_ne_nil hgroups hm (hflat members hm)
      · rintro rfl
        simp
    rw [ht, happ]
    split
    · next he => exact .inl ⟨hempty.1 he, rfl⟩
    · next he => exact .inr ⟨fun hn => he (hempty.2 hn), rfl⟩

theorem Linked.addApplication (hl : t.Linked) (h : Ends (t.addApplication new) s (added, t') s')
    (hg : t.HasGoal new.parent) : t'.Linked := by
  obtain ⟨new', copies, groups, u, -, -, hparent, hgrow, -, -, ht⟩ := addApplication_growth h hg
  have hu := hgrow.linked hl (hparent ▸ hg)
  rcases ht with ⟨-, rfl⟩ | ⟨-, rfl⟩
  · exact (settling_markApplicationProven u _).linked hu
  · exact hu

/-- An application added to an undecided goal leaves nothing due, and the goal is not spent. -/
theorem Pending.addApplication {spent : GoalId → Prop}
    (hp : t.Pending spent nowhere nowhere nowhere) (hl : t.Linked)
    (h : Ends (t.addApplication new) s (added, t') s') (hg : t.HasGoal new.parent)
    (hu : (t.goal new.parent).state = .unknown) (hf : (t.goal new.parent).forced = false) :
    t'.Pending (fun k => spent k ∧ k ≠ new.parent) nowhere nowhere nowhere := by
  obtain ⟨new', copies, groups, u, -, -, hparent, hgrow, -, -, ht⟩ := addApplication_growth h hg
  rw [← hparent] at hg hu hf ⊢
  have hpend := hgrow.pending hl hp hg hu hf
  rcases ht with ⟨rfl, rfl⟩ | ⟨hne, rfl⟩
  · have hnode := hgrow.application_new
    refine pending_markApplicationProven (hpend.mono (fun _ _ _ => id) (fun _ _ _ => id) ?_
      (fun _ _ _ => id)) (hgrow.linked hl hg) (hgrow.hasApplication.2 (.inr rfl))
      hgrow.application_fresh (by rw [hnode]; rfl) ?_
    · exact fun r _ _ hr => hr.1
    · rw [hnode]
      exact (hgrow.state_old hg).trans hu
  · refine hpend.mono (fun _ _ _ => id) (fun _ _ _ => id) ?_ (fun _ _ _ => id)
    exact fun r _ _ hr => hne hr.2

end

end Tree

end ProofSearch
