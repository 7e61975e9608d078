import ProofSearch.Proofs.Derivation.Prefix
import ProofSearch.Proofs.Derivation.Siblings

/-!
# Eager applications and the other goals

A rule is applied at once only if it assigns no variable that its goal depends on.  The variable of
the goal itself is not among these, although other goals may depend on it.

1. `Tree.KeepsNodes`: what is recorded of the nodes of a tree stays as the tree grows.
2. `Tree.Spares`: of the variables on which goals beside the way to the root depend, an application
   assigns only that of its own goal, and those of the goals that it copies for that reason.
3. `eager_spares`: every eager application of a search is of this kind.
4. `eager_copies`: an eager application that does copy a goal.
-/

namespace ProofSearch

open Solver

namespace Tree

variable {t t' u : Tree} {g k : GoalId} {r : ApplicationId}

/-! ## Nodes that stay -/

/-- The nodes of `t` are in `t'` with all that is recorded of them. -/
structure KeepsNodes (t t' : Tree) : Prop extends Retains t t' where
  vars : ∀ g, t.HasGoal g → (t'.goal g).vars = (t.goal g).vars
  origin : ∀ g, t.HasGoal g → (t'.goal g).origin = (t.goal g).origin
  assigned : ∀ r, t.HasApplication r → (t'.application r).assigned = (t.application r).assigned

theorem Noted.keepsNodes (h : t.Noted t') : t.KeepsNodes t' where
  toRetains := h.retains
  vars g _ := h.vars g
  origin g _ := h.origin g
  assigned r _ := h.assigned r

theorem keepsNodes_recordNorm (t : Tree) (g : GoalId) (branch : BranchState) (norm : NormState) :
    t.KeepsNodes (t.recordNorm g branch norm) where
  toRetains := retains_modifyGoal t g rfl rfl rfl
  vars k _ := by
    obtain ⟨_, _, hk⟩ := t.exists_goal_recordNorm g k branch norm
    rw [hk]
  origin k _ := by
    obtain ⟨_, _, hk⟩ := t.exists_goal_recordNorm g k branch norm
    rw [hk]
  assigned _ _ := rfl

theorem Growth.keepsNodes {new : NewApplication} {copies : List GoalCopy}
    {groups : List (List Subgoal)} (h : Growth new copies groups t t') : t.KeepsNodes t' where
  toRetains := h.retains
  vars _ hg := (h.recorded hg).2.2.1
  origin _ hg := (h.recorded hg).2.2.2
  assigned r hr := by rw [h.application_old r hr]

/-- No goal is added to an old application. -/
theorem Retains.madeBy (h : t.Retains t') (hl : t.Linked) (hl' : t'.Linked)
    (hr : t.HasApplication r) : t'.MadeBy r k ↔ t.MadeBy r k := by
  have hgoal {c : ClusterId} (hc : c ∈ (t'.application r).clusters) :
      (t'.cluster c).goals = (t.cluster c).goals ∧ t.HasCluster c := by
    rw [h.clusters r hr] at hc
    have hhas := (hl.clusterChild r hr c hc).1
    exact ⟨h.members c hhas, hhas⟩
  constructor
  · rintro ⟨hk, habove⟩
    obtain ⟨hhas, hmem⟩ := hl'.home k hk
    obtain ⟨hgoals, hold⟩ := hgoal (hl'.clusterParent _ r hhas habove).2
    have hk := (hl.member _ hold k (hgoals ▸ hmem)).1
    exact ⟨hk, (h.parentApplication?_eq hl hk).symm.trans habove⟩
  · rintro ⟨hk, habove⟩
    exact ⟨h.hasGoal k hk, (h.parentApplication?_eq hl hk).trans habove⟩

/-- The goals beside the way to the root stay the same. -/
theorem Retains.beside (h : t.Retains t') (hl : t.Linked) (hg : t.HasGoal g) :
    t'.Beside g k ↔ t.Beside g k := by
  have hmembers {g : GoalId} (hg : t.HasGoal g) : (t'.cluster (t'.goal g).cluster).goals =
      (t.cluster (t.goal g).cluster).goals := by
    rw [h.home g hg, h.members _ (hl.home g hg).1]
  constructor
  · intro hb
    induction hb with
    | here hk hne => exact .here (hmembers hg ▸ hk) hne
    | above hr _ ih =>
      have hr := (h.parentApplication?_eq hl hg).symm.trans hr
      obtain ⟨hhas, hparent⟩ := hl.has_parent hg hr
      rw [h.parent _ hhas] at ih
      exact .above hr (ih hparent)
  · intro hb
    induction hb with
    | here hk hne => exact .here (hmembers hg ▸ hk) hne
    | above hr _ ih =>
      obtain ⟨hhas, hparent⟩ := hl.has_parent hg hr
      refine .above ((h.parentApplication?_eq hl hg).trans hr) ?_
      rw [h.parent _ hhas]
      exact ih hparent

namespace KeepsNodes

theorem refl (t : Tree) : t.KeepsNodes t := (Noted.refl t).keepsNodes

theorem trans (h : t.KeepsNodes t') (h' : t'.KeepsNodes u) : t.KeepsNodes u where
  toRetains := h.toRetains.trans h'.toRetains
  vars g hg := (h'.vars g (h.hasGoal g hg)).trans (h.vars g hg)
  origin g hg := (h'.origin g (h.hasGoal g hg)).trans (h.origin g hg)
  assigned r hr := (h'.assigned r (h.hasApplication r hr)).trans (h.assigned r hr)

end KeepsNodes

/-! ## Applications that spare other goals -/

/-- Of the variables on which the goals beside the way to the root depend, the application assigns
only that of its own goal, and those of the goals that it copies because they depend on it. -/
structure Spares (t : Tree) (r : ApplicationId) : Prop where
  assigned : ∀ k y, t.Beside (t.application r).parent k → y ∈ (t.goal k).vars →
    y ∈ (t.application r).assigned → y = (t.goal (t.application r).parent).var ∨
      ∃ i j, t.MadeBy r i ∧ (t.goal i).origin = .copied j ∧ (t.goal j).var = y
  copied : ∀ k j, t.MadeBy r k → (t.goal k).origin = .copied j →
    t.Beside (t.application r).parent j ∧
      (t.goal (t.application r).parent).var ∈ (t.goal j).vars

/-- What an application spares depends only on what stays. -/
theorem Spares.keepsNodes (h : t.Spares r) (ht : t.KeepsNodes t') (hl : t.Linked)
    (hl' : t'.Linked) (hr : t.HasApplication r) : t'.Spares r := by
  have hparent := (hl.applicationParent r hr).1
  have hbeside {k : GoalId} : t'.Beside (t'.application r).parent k ↔
      t.Beside (t.application r).parent k := by
    rw [ht.parent r hr]
    exact ht.beside hl hparent
  refine ⟨fun k y hb hy ha => ?_, fun k j hk horigin => ?_⟩ <;>
    rw [ht.parent r hr, ht.var _ hparent]
  · have hb := hbeside.1 hb
    rw [ht.vars k (hb.hasGoal hl hparent)] at hy
    rw [ht.assigned r hr] at ha
    refine (h.assigned k y hb hy ha).imp_right fun ⟨i, j, hi, horigin, hj⟩ => ?_
    have hhas := (h.copied i j hi horigin).1.hasGoal hl hparent
    exact ⟨i, j, (ht.madeBy hl hl' hr).2 hi, (ht.origin i hi.1).trans horigin,
      (ht.var j hhas).trans hj⟩
  · have hk := (ht.madeBy hl hl' hr).1 hk
    obtain ⟨hb, hmem⟩ := h.copied k j hk ((ht.origin k hk.1).symm.trans horigin)
    rw [ht.beside hl hparent, ht.vars j (hb.hasGoal hl hparent)]
    exact ⟨hb, hmem⟩

end Tree

variable {P : Problem} {L : Ledger} {t : Tree} {g k : GoalId} {x y : Var}

/-- Of what goals beside the way to the root depend on, an eager candidate assigns the variable of
its goal only. -/
theorem VarHistory.eq_var_of_beside (h : VarHistory P t) (hl : t.Linked) (hrec : Recorded P L t)
    {state : Snapshot} {d : VarDecl} {last : Nat} {c : Candidate}
    (hx : (t.goal g).norm = .normal x state) (hd : state.context.decl? x = some d)
    (hc : CandidateAdds P state.context last x (state.context.instantiate d.type) c)
    (hdisjoint : c.assigned.disjoint (t.goal g).vars = true) (hb : t.Beside g k)
    (hy : y ∈ (t.goal k).vars) (ha : y ∈ c.assigned) : y = (t.goal g).var := by
  have hpre := hb.declared h hl hrec (Tree.hasGoal_of_normal hx) hy
  rw [hc.assigned] at ha
  obtain ⟨hdecl, hopen, hassigned⟩ := Context.mem_assignedSince.1 ha
  obtain rfl := h.eq_of_assigned hrec hx hd hc hdisjoint hdecl hopen hassigned
  -- The goal that is left by normalization is the goal itself or a new one.
  have hrw := h.normal g state (by rw [Goal.normPost?, hx])
  exact (hrw.goal y (by rw [Goal.normVar?, hx])).2.2.resolve_right fun hnew =>
    by cases hpre.symm.trans hnew

/-- A goal is copied because it depends on what the candidate assigned. -/
theorem CandidateKept.beside_of_copied {run : Run} {state : Snapshot} {c : Candidate}
    {rule : String} {kind : RuleKind} {probability : Percent}
    {value? : Option BranchValue} {added : AddedApplication} {tree : Tree} {solver : Solver}
    (h : CandidateKept P L state x c) (hk : Kept P L run) (hl : run.tree.Linked)
    (hx : (run.tree.goal g).norm = .normal x state)
    (ends : Ends (run.tree.addApplication
        (attachment run g rule kind c probability value?)) run.solver (added, tree) solver)
    {j : GoalId} (hmade : tree.MadeBy ⟨run.tree.applications.size⟩ k)
    (horigin : (tree.goal k).origin = .copied j) :
    run.tree.Beside g j ∧ Tree.needsCopy c.post.context c.assigned (run.tree.goal j) = true := by
  have hg := Tree.hasGoal_of_normal hx
  obtain ⟨new, copies, groups, u, hcarry, -, -, hgrow, -, -, ht⟩ :=
    Tree.addApplication_growth ends hg
  obtain ⟨hcopies, -⟩ := h.copiesMade hk.tree hk.last hcarry
  have hnoted := Tree.noted_of_added ht
  have hu : u.MadeBy ⟨run.tree.applications.size⟩ k :=
    ⟨hnoted.hasGoal.1 hmade.1, (hnoted.parentApplication?_eq k).symm.trans hmade.2⟩
  have hfresh : ¬ run.tree.HasGoal k := fun hold => by
    have hr := (hgrow.parentApplication?_old hl hold).symm.trans hu.2
    exact absurd (hl.has_parent hold hr).1 (by simp [Tree.HasApplication])
  obtain ⟨cl, s, -, he, -⟩ := hgrow.goal_fresh hfresh hu.1
  rw [hnoted.origin, he, Tree.makeGoal] at horigin
  dsimp only at horigin
  split at horigin
  · next copy hfind =>
    cases horigin
    exact Tree.beside_of_mem_dependents (hl.upward_path hg)
      (hcopies.source_mem (List.mem_of_find?_eq_some hfind))
  · cases horigin

namespace Search

variable {search : Search} {sc sc' : Scene} {r : ApplicationId}

/-- What is recorded stays when a search goes on. -/
theorem Step.keepsNodes (h : Step search sc sc') : sc.run.tree.KeepsNodes sc'.run.tree := by
  cases h with
  | note tree => exact tree.keepsNodes
  | wait tree | begin _ _ tree | rewrite _ _ _ tree | offer _ _ _ tree => exact tree ▸ .refl _
  | normal _ tree => exact tree ▸ Tree.keepsNodes_recordNorm ..
  | attach norm _ ends =>
    obtain ⟨new, copies, groups, u, -, -, -, hgrow, -, -, ht⟩ :=
      Tree.addApplication_growth ends (Tree.hasGoal_of_normal norm)
    exact hgrow.keepsNodes.trans (Tree.noted_of_added ht).keepsNodes

theorem Steps.keepsNodes (h : Steps search sc sc') : sc.run.tree.KeepsNodes sc'.run.tree := by
  induction h with
  | refl => exact .refl _
  | tail _ hstep ih => exact ih.trans hstep.keepsNodes

/-- An eager application spares the goals beside the way to the root. -/
theorem Attaches.spares {c : Candidate} (h : Attaches search sc sc' g c r)
    (hk : SceneHistory P L sc) (hl : sc.run.tree.Linked)
    (heager : (sc'.run.tree.application r).rule.kind.isEager = true) : sc'.run.tree.Spares r := by
  have hcarrying := h.carrying hk hl
  have hkeeps := h.step.keepsNodes
  obtain ⟨-, -, rest, rule, kind, probability, value?, added, solver, hfocus, -, eager, ends, rfl,
    hparent, hrule⟩ := h.exists_ends
  obtain ⟨x, state, d, hx, hd, hall, hadd⟩ := hk.offers hfocus
  obtain ⟨last, hc⟩ := hadd.adds c List.mem_cons_self
  have hg := Tree.hasGoal_of_normal hx
  rw [hrule] at heager
  have hown {k : GoalId} {y : Var} (hb : sc.run.tree.Beside g k)
      (hy : y ∈ (sc.run.tree.goal k).vars) (ha : y ∈ c.assigned) : y = (sc.run.tree.goal g).var :=
    hk.history.eq_var_of_beside hl hk.kept.tree hx hd hc (eager heager) hb hy ha
  refine ⟨fun k y hb hy ha => ?_, fun k j hmade horigin => ?_⟩ <;> rw [hparent, hkeeps.var g hg]
  · rw [hparent, hkeeps.beside hl hg] at hb
    rw [hkeeps.vars k (hb.hasGoal hl hg)] at hy
    rcases (hcarrying.assigned y).1 ha with ha | ⟨j, hj, hneeds, rfl⟩
    · exact .inl (hown hb hy ha)
    · obtain ⟨i, hi, horigin⟩ := hcarrying.copies j hj hneeds
      exact .inr ⟨i, j, hi, horigin, hkeeps.var j (hj.hasGoal hl hg)⟩
  · obtain ⟨hb, hneeds⟩ :=
      (hall c List.mem_cons_self).beside_of_copied hk.kept hl hx ends hmade horigin
    obtain ⟨-, -, -, y, hy, ha⟩ := Tree.needsCopy_iff.1 hneeds
    rw [hkeeps.beside hl hg, hkeeps.vars j (hb.hasGoal hl hg), ← hown hb hy ha]
    exact ⟨hb, hy⟩

/-! ## The eager applications of a search -/

/-- However a search ends, its eager applications leave alone what the other goals depend on, apart
from the variable of their own goal.  A goal below one of them that is a copy is the copy of a goal
that depends on this variable. -/
theorem eager_spares (rules : List RuleSpec) (options : Options) (fuel : Nat) (s : Solver)
    (saved : List Snapshot) (root : Var) (d : VarDecl)
    (hclauses : ∀ c ∈ RuleSpec.clauses rules, c.isClosed = true) (hs : Built s saved)
    (hd : s.context.decl? root = some d) (hopen : s.context.isAssigned root = false)
    (htype : d.type.hasVar = false) (hhyps : ∀ h ∈ d.hyps, h.type.hasVar = false)
    (r : ApplicationId)
    (hr : ((ofRules rules options fuel).finalRun s root).tree.HasApplication r)
    (heager : (((ofRules rules options fuel).finalRun s root).tree.application r).rule.kind.isEager
      = true) :
    ((ofRules rules options fuel).finalRun s root).tree.Spares r := by
  obtain ⟨vars, hvars⟩ : ∃ vars, s.context.dependencies root = .ok vars := by
    simp only [Context.dependencies, hd]
    exact ⟨_, rfl⟩
  obtain ⟨last, hsteps, htree⟩ := exists_steps_finalRun rules options fuel hvars
  rw [← htree] at hr heager ⊢
  obtain ⟨sc, sc', g, c, hbefore, hattaches, hafter⟩ :=
    Steps.exists_attaches hsteps Tree.not_hasApplication_ofGoal hr
  obtain ⟨P, L, hk, hlinked⟩ :=
    exists_sceneHistory hclauses hs hd hopen htype hhyps hvars hbefore
  have hlater := hattaches.step.stocked (hbefore.stocked (valid_start s root vars).stocked)
  have hkeeps := hafter.keepsNodes
  rw [hkeeps.rule r hattaches.has] at heager
  exact (hattaches.spares hk hlinked heager).keepsNodes hkeeps hlater.linked
    (hafter.stocked hlater).linked hattaches.has

/-! ## An eager application that copies a goal -/

/-- The fact for `X` is applied at once, and its goal is the variable on which `P(x)` depends. -/
def sharedHoleTree : Tree :=
  ((ofRules sharedHoleRules { terminal := true } 100).finalRun rootSolver ⟨1⟩).tree

theorem sharedHoleTree_copies : sharedHoleTree.HasApplication ⟨1⟩ ∧
    (sharedHoleTree.application ⟨1⟩).rule.kind.isEager = true ∧
    (sharedHoleTree.application ⟨1⟩).parent = ⟨2⟩ ∧ sharedHoleTree.MadeBy ⟨1⟩ ⟨3⟩ ∧
    (sharedHoleTree.goal ⟨3⟩).origin = .copied ⟨1⟩ ∧
    ⟨1⟩ ∈ (sharedHoleTree.cluster (sharedHoleTree.goal ⟨2⟩).cluster).goals ∧
    (sharedHoleTree.goal ⟨1⟩).irrelevant = false ∧
    (sharedHoleTree.goal ⟨1⟩).state.isProven = false ∧
    ⟨2⟩ ∈ (sharedHoleTree.goal ⟨1⟩).vars ∧ ⟨2⟩ ∈ (sharedHoleTree.application ⟨1⟩).assigned := by
  have happ : Nat.blt 1 sharedHoleTree.applications.size = true ∧
      (sharedHoleTree.application ⟨1⟩).rule.kind.isEager = true ∧
      (sharedHoleTree.application ⟨1⟩).parent = ⟨2⟩ ∧
      (sharedHoleTree.application ⟨1⟩).assigned.toList.contains ⟨2⟩ = true := by
    decide +kernel
  have hcopy : Nat.blt 3 sharedHoleTree.goals.size = true ∧
      sharedHoleTree.parentApplication? ⟨3⟩ = some ⟨1⟩ ∧
      (sharedHoleTree.goal ⟨3⟩).origin = .copied ⟨1⟩ := by
    decide +kernel
  have horiginal : ⟨1⟩ ∈ (sharedHoleTree.cluster (sharedHoleTree.goal ⟨2⟩).cluster).goals ∧
      (sharedHoleTree.goal ⟨1⟩).irrelevant = false ∧
      (sharedHoleTree.goal ⟨1⟩).state.isProven = false ∧
      (sharedHoleTree.goal ⟨1⟩).vars.toList.contains ⟨2⟩ = true := by
    decide +kernel
  rw [Nat.blt_eq, List.contains_iff_mem, VarSet.mem_toList] at happ
  rw [Nat.blt_eq] at hcopy
  rw [List.contains_iff_mem, VarSet.mem_toList] at horiginal
  obtain ⟨hhas, heager, hparent, hassigned⟩ := happ
  obtain ⟨hmem, hrelevant, hunproven, hvars⟩ := horiginal
  exact ⟨hhas, heager, hparent, ⟨hcopy.1, hcopy.2.1⟩, hcopy.2.2, hmem, hrelevant, hunproven, hvars,
    hassigned⟩

/-- A safe application assigns a variable on which another goal depends, and has a copy of this goal
below it. -/
theorem eager_copies : ∃ r k j y, sharedHoleTree.HasApplication r ∧
    (sharedHoleTree.application r).rule.kind.isEager = true ∧
    sharedHoleTree.Beside (sharedHoleTree.application r).parent j ∧
    (sharedHoleTree.goal j).irrelevant = false ∧
    (sharedHoleTree.goal j).state.isProven = false ∧
    y ∈ (sharedHoleTree.goal j).vars ∧ y ∈ (sharedHoleTree.application r).assigned ∧
    sharedHoleTree.MadeBy r k ∧ (sharedHoleTree.goal k).origin = .copied j := by
  obtain ⟨hr, heager, hparent, hmade, horigin, hmem, hrelevant, hunproven, hvars, hassigned⟩ :=
    sharedHoleTree_copies
  refine ⟨⟨1⟩, ⟨3⟩, ⟨1⟩, ⟨2⟩, hr, heager, ?_, hrelevant, hunproven, hvars, hassigned, hmade, horigin⟩
  rw [hparent]
  exact .here hmem (by decide)

theorem eager_spares_sharedHole :
    sharedHoleTree.MadeBy ⟨1⟩ ⟨3⟩ ∧ (sharedHoleTree.goal ⟨3⟩).origin = .copied ⟨1⟩ ∧
    (sharedHoleTree.goal (sharedHoleTree.application ⟨1⟩).parent).var ∈
      (sharedHoleTree.goal ⟨1⟩).vars := by
  obtain ⟨hr, heager, -, hmade, horigin, -⟩ := sharedHoleTree_copies
  have hspares : sharedHoleTree.Spares ⟨1⟩ := by
    unfold sharedHoleTree at hr heager ⊢
    exact eager_spares sharedHoleRules { terminal := true } 100 rootSolver [] ⟨1⟩
      ⟨.const "Root", [], none⟩ (by decide) (.perform _ .empty) (by decide) (by decide) (by decide)
      (by decide) ⟨1⟩ hr heager
  exact ⟨hmade, horigin, (hspares.copied ⟨3⟩ ⟨1⟩ hmade horigin).2⟩

end Search

end ProofSearch
