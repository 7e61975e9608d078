import ProofSearch.Proofs.Search.Progress

/-!
# Goals that normalization closed

A goal is stored as closed by normalization only after its normalization has said so.

1. `Tree.ClosesNone`: a change after which no further goal is stored as closed by normalization; all
   walks that settle goals are of this kind.
2. `Tree.NormBacked`: every goal stored as closed by normalization has a normalization that closed
   it.  Moves and outcomes keep this, and so do whole searches (`Reached.normBacked`).
3. `Tree.Backed`: in a tree with a proven root every proven node is borne out by what is below it.
-/

namespace ProofSearch

namespace Tree

/-! ## Walks -/

/-- No goal is stored as closed by normalization in `t'` that is not in `t`. -/
def ClosesNone (t t' : Tree) : Prop :=
  ∀ g, (t'.goal g).state = .provenByNorm → (t.goal g).state = .provenByNorm

section

variable {t u v : Tree}

theorem ClosesNone.refl (t : Tree) : t.ClosesNone t := fun _ => id

theorem ClosesNone.trans (h : t.ClosesNone u) (h' : u.ClosesNone v) : t.ClosesNone v :=
  fun g hg => h g (h' g hg)

theorem closesNone_of_states (h : ∀ g, (u.goal g).state = (t.goal g).state) : t.ClosesNone u :=
  fun g hg => (h g).symm.trans hg

theorem closesNone_setGoalState (t : Tree) (g : GoalId) {s : GoalState} (hs : s ≠ .provenByNorm) :
    t.ClosesNone (t.setGoalState g s) := by
  intro k hk
  rw [setGoalState, goal_modifyGoal] at hk
  split at hk
  · exact (hs hk).elim
  · exact hk

theorem closesNone_prune (t : Tree) (nodes : List Node) : t.ClosesNone (t.prune nodes) :=
  closesNone_of_states fun g => goal_state_prune t nodes g

theorem closesNone_spreadProven (t : Tree) (path : List Level) :
    t.ClosesNone (t.spreadProven path) := by
  have first (t : Tree) (g : GoalId) (c : ClusterId) :
      t.ClosesNone ((t.setClusterState c .proven).pruneOtherGoals c g) := closesNone_prune _ _
  fun_induction spreadProven t path with
  | case1 t => exact .refl t
  | case2 t g c above path h => exact .refl t
  | case3 t g c path h u => exact first t g c
  | case4 t g c path h u r node h' => exact first t g c
  | case5 t g c path h u r node h' v hv => exact first t g c
  | case6 t g c path h u r node h' v hv ih =>
    have third : v.ClosesNone ((v.setGoalState node.parent .provenByRule).pruneOtherApplications
        node.parent r) :=
      (closesNone_setGoalState v _ (s := .provenByRule) (by rintro ⟨⟩)).trans (closesNone_prune _ _)
    exact (first t g c).trans (third.trans ih)

theorem closesNone_spreadUnprovable (t : Tree) (path : List Level) :
    t.ClosesNone (t.spreadUnprovable path) := by
  have first (t : Tree) (g : GoalId) : t.ClosesNone (t.setGoalState g .unprovable) :=
    closesNone_setGoalState t g nofun
  have third (t : Tree) (r : ApplicationId) (c : ClusterId) :
      t.ClosesNone ((t.setApplicationState r .unprovable).pruneOtherClusters r c) :=
    closesNone_prune _ _
  fun_induction spreadUnprovable t path with
  | case1 t => exact .refl t
  | case2 t g c above path h => exact .refl t
  | case3 t g c above path h u h' => exact first t g
  | case4 t g c path h u h' v => exact first t g
  | case5 t g c path h u h' v r hr => exact first t g
  | case6 t g c path h u h' v r hr w parent hw => exact (first t g).trans (third v r c)
  | case7 t g c path h u h' v r hr w parent hw ih =>
    exact (first t g).trans ((third v r c).trans ih)

theorem closesNone_markApplicationProven (t : Tree) (r : ApplicationId) :
    t.ClosesNone (t.markApplicationProven r) := by
  unfold markApplicationProven
  split
  · exact .refl t
  · dsimp only
    split
    · exact .refl t
    · have hgoal := closesNone_setGoalState (t.setApplicationState r .proven)
        ((t.setApplicationState r .proven).application r).parent (s := .provenByRule) nofun
      exact hgoal.trans ((closesNone_prune _ _).trans (closesNone_spreadProven _ _))

theorem closesNone_checkExhausted (t : Tree) (g : GoalId) :
    t.ClosesNone (t.checkExhausted g).2 := by
  unfold checkExhausted
  dsimp only
  split
  · exact .refl t
  · split
    · exact .refl t
    · split
      · exact closesNone_spreadUnprovable t _
      · exact .refl t

/-! ## Normalizations that closed their goals -/

/-- Every goal stored as closed by normalization has a normalization that closed it. -/
def NormBacked (t : Tree) : Prop :=
  ∀ g, (t.goal g).state = .provenByNorm → ∃ post, (t.goal g).norm = .proven post

theorem NormBacked.settle (h : t.NormBacked) (hs : t.Settling u) (hc : t.ClosesNone u) :
    u.NormBacked := by
  intro g hg
  rw [(hs.goal g).eq]
  exact h g (hc g hg)

theorem NormBacked.modifyGoal (h : t.NormBacked) {g : GoalId} {f : Goal → Goal}
    (hstate : ∀ a, (f a).state = a.state)
    (hnorm : ∀ post, (t.goal g).norm = .proven post → ∃ post', (f (t.goal g)).norm = .proven post') :
    (t.modifyGoal g f).NormBacked := by
  intro k hk
  rw [goal_modifyGoal] at hk ⊢
  split at hk
  · next hkg =>
    rw [if_pos hkg, hkg.1]
    rw [hstate, hkg.1] at hk
    obtain ⟨post, hpost⟩ := h g hk
    exact hnorm post hpost
  · next hkg =>
    rw [if_neg hkg]
    exact h k hk

theorem NormBacked.addApplication (h : t.NormBacked) {new : NewApplication}
    {added : AddedApplication} {s s' : Solver} (hg : t.HasGoal new.parent)
    (hadd : Ends (t.addApplication new) s (added, u) s') : u.NormBacked := by
  obtain ⟨new', copies, groups, v, -, -, hparent, hgrow, -, -, ht⟩ := addApplication_growth hadd hg
  have hv : v.NormBacked := by
    intro k hk
    rcases hgrow.goal_cases k with ⟨-, he⟩ | he | ⟨-, c, m, -, he⟩ <;> rw [he] at hk ⊢
    · exact h k hk
    · exact h k hk
    · cases hk
  rcases ht with ⟨-, rfl⟩ | ⟨-, rfl⟩
  · exact hv.settle (settling_markApplicationProven v _) (closesNone_markApplicationProven v _)
  · exact hv

theorem normBacked_ofGoal (goal : Var) (vars : VarSet) (state : Snapshot) :
    (Tree.ofGoal goal vars state).NormBacked := by
  intro g hg
  by_cases hhas : (Tree.ofGoal goal vars state).HasGoal g
  · obtain rfl := hasGoal_ofGoal.1 hhas
    cases hg
  · rw [goal_of_not_has hhas] at hg
    cases hg

end

end Tree

namespace Search

variable {search : Search} {g : GoalId} {run run' : Run}

theorem Move.normBacked (hm : Move search g run run') (h : run.tree.NormBacked) :
    run'.tree.NormBacked := by
  cases hm with
  | solve ht =>
    rw [ht]
    exact h
  | note hf ht _ =>
    rw [ht]
    exact h.modifyGoal (fun a => by rw [hf]) fun post hp => ⟨post, by rw [hf]; exact hp⟩
  | normalize hn ht _ =>
    rw [ht]
    exact h.modifyGoal (fun _ => rfl) fun post hp => nomatch hn.symm.trans hp
  | postpone _ _ ht _ | select _ _ ht _ | take _ _ ht _ =>
    rw [ht]
    exact h.modifyGoal (fun _ => rfl) fun post hp => ⟨post, hp⟩
  | attach hr hp hadd ht _ =>
    rw [ht]
    exact h.addApplication (hp ▸ hr.has) hadd

theorem Outcome.normBacked (ho : Outcome search g run run') (h : run.tree.NormBacked)
    (hg : run.tree.HasGoal g) : run'.tree.NormBacked := by
  cases ho with
  | giveUp hu _ ht _ =>
    -- giving up changes a goal that nothing has closed
    have hforced : (run.tree.modifyGoal g ({ · with forced := true })).NormBacked :=
      h.modifyGoal (fun _ => rfl) fun post hp => ⟨post, hp⟩
    rw [ht, Tree.markForcedUnprovable, if_neg (by simpa using hu)]
    exact hforced.settle (Tree.settling_markUnprovable _ g) (Tree.closesNone_spreadUnprovable _ _)
  | @close post branch hu _ _ ht _ =>
    rw [ht]
    intro k hk
    have hs := Tree.settling_markProvenByNorm (run.tree.modifyGoal g fun goal =>
      { goal with branch := branch, norm := .proven post }) g
    rw [(hs.goal k).eq]
    show ∃ post', ((run.tree.modifyGoal g fun goal =>
      { goal with branch := branch, norm := .proven post }).goal k).norm = .proven post'
    by_cases hkg : k = g
    · rw [hkg, Tree.goal_modifyGoal, if_pos ⟨rfl, hg⟩]
      exact ⟨post, rfl⟩
    · rw [Tree.goal_modifyGoal, if_neg fun hc => hkg hc.1]
      refine h k ?_
      rw [Tree.markProvenByNorm] at hk
      split at hk
      · rwa [Tree.goal_modifyGoal, if_neg fun hc => hkg hc.1] at hk
      · have hk := Tree.closesNone_spreadProven _ _ k hk
        rwa [Tree.setGoalState, Tree.goal_modifyGoal, if_neg fun hc => hkg hc.1,
          Tree.goal_modifyGoal, if_neg fun hc => hkg hc.1] at hk
  | commit hr hp hadd ht _ =>
    rw [ht]
    exact (h.addApplication (hp ▸ hr.has) hadd).modifyGoal (fun _ => rfl) fun post hp => ⟨post, hp⟩
  | check _ ht _ =>
    rw [ht]
    exact h.settle (Tree.settling_checkExhausted _ g) (Tree.closesNone_checkExhausted _ g)

theorem Reached.normBacked {first : Run} (h : Reached search first run)
    (hs : Steady search Tree.nowhere first.tree first.queue) (hf : first.tree.NormBacked) :
    run.tree.NormBacked := by
  induction h with
  | first => exact hf
  | @pass run mid run' g hr _ hn he ih =>
    obtain ⟨-, hg, htree, hfocus, last, hm, ho⟩ := (hr.steady hs).pass_moves hn he
    have hfocus : Steady search (· = g) (countIteration mid).tree (countIteration mid).queue :=
      hfocus
    obtain ⟨-, hg'⟩ := hfocus.moves (htree ▸ hg) hm
    refine ho.normBacked ?_ hg'
    have hmid : (countIteration mid).tree.NormBacked := by
      show mid.tree.NormBacked
      rw [htree]
      exact ih
    clear ho hg'
    induction hm with
    | refl => exact hmid
    | tail _ hmove ih => exact hmove.normBacked ih

end Search

/-! ## Proven trees -/

/-- The root is proven, and every proven node is borne out by what is below it. -/
structure Tree.Backed (t : Tree) : Prop where
  linked : t.Linked
  sound : t.Sound
  root : (t.goal Tree.root).state.isProven = true
  norm : ∀ g, t.HasGoal g → (t.goal g).state.isProven = true →
    (∃ post, (t.goal g).norm = .proven post) ∨ (∃ x post, (t.goal g).norm = .normal x post) ∧
      ∃ r ∈ (t.goal g).applications, (t.application r).state = .proven

theorem Search.Steady.backed {search : Search} {focus : GoalId → Prop} {t : Tree} {q : GoalQueue}
    (h : Search.Steady search focus t q) (hn : t.NormBacked)
    (hroot : (t.goal Tree.root).state.isProven = true) : t.Backed := by
  refine ⟨h.linked, h.pending.sound, hroot, fun g hg hp => ?_⟩
  cases hs : (t.goal g).state with
  | unknown | unprovable =>
    rw [hs] at hp
    cases hp
  | provenByNorm => exact .inl (hn g hs)
  | provenByRule =>
    obtain ⟨r, hr, hrp⟩ := (h.pending.sound.goal g hg).byRule hs
    cases hnorm : (t.goal g).norm with
    | notNormal =>
      rw [((h.orderly g hg).fresh hnorm).1] at hr
      cases hr
    | proven post => exact .inl ⟨post, rfl⟩
    | normal x post => exact .inr ⟨⟨x, post, rfl⟩, r, hr, hrp⟩

end ProofSearch
