import ProofSearch.Proofs.AndOr.Ancestry
import ProofSearch.Proofs.Derivation.Siblings

/-!
# The walk that stops early

The walk that looks for dependent siblings drops a variable above the application that introduced
it, and it ends when no variable is left.  The full walk goes on to the root with all variables.

1. `Tree.allDependents`: what the full walk finds.  `Tree.mem_allDependents`: these are the goals
   beside the way to the root that need a copy.
2. `Tree.dependents_eq_allDependents`: dropped variables make no difference, because no goal further
   up depends on them.
3. `Tree.nodup_allDependents`: no goal is found twice.
4. `Search.walk_stops_safely`: both walks find the same list whenever a search adds an application.
-/

namespace ProofSearch

open Solver

namespace Tree

variable {P : Problem} {L : Ledger} {t t' : Tree} {g k : GoalId} {post : Context}
  {kept assigned : VarSet} {path : List Level}

/-! ## The full walk -/

/-- The goals beside a path that need a copy, from the start of the path to its end. -/
def allDependents (t : Tree) (post : Context) (assigned : VarSet) (path : List Level) :
    List GoalId :=
  path.flatMap fun level => (t.cluster level.cluster).goals.filter fun s =>
    s ≠ level.goal && needsCopy post assigned (t.goal s)

theorem allDependents_cons (t : Tree) (post : Context) (assigned : VarSet) (level : Level)
    (path : List Level) : t.allDependents post assigned (level :: path) =
      ((t.cluster level.cluster).goals.filter fun s =>
        s ≠ level.goal && needsCopy post assigned (t.goal s)) ++
      t.allDependents post assigned path := List.flatMap_cons

theorem mem_allDependents (hu : t.Upward g path) : k ∈ t.allDependents post assigned path ↔
    t.Beside g k ∧ needsCopy post assigned (t.goal k) = true := by
  have hhere (g : GoalId) : k ∈ ((t.cluster (t.goal g).cluster).goals.filter fun s =>
      s ≠ g && needsCopy post assigned (t.goal s)) ↔
      k ∈ (t.cluster (t.goal g).cluster).goals ∧ k ≠ g ∧
        needsCopy post assigned (t.goal k) = true := by
    rw [List.mem_filter, Bool.and_eq_true, decide_eq_true_eq]
  induction hu with
  | @top g hr =>
    rw [allDependents_cons, List.mem_append, hhere]
    constructor
    · rintro (⟨hk, hne, hcopy⟩ | h)
      · exact ⟨.here hk hne, hcopy⟩
      · cases h
    · rintro ⟨hb, hcopy⟩
      cases hb with
      | here hk hne => exact .inl ⟨hk, hne, hcopy⟩
      | above hr' => exact nomatch hr.symm.trans hr'
  | @step g r path hr _ ih =>
    rw [allDependents_cons, List.mem_append, hhere]
    refine (or_congr Iff.rfl ih).trans ⟨?_, ?_⟩
    · rintro (⟨hk, hne, hcopy⟩ | ⟨hb, hcopy⟩)
      · exact ⟨.here hk hne, hcopy⟩
      · exact ⟨.above hr hb, hcopy⟩
    · rintro ⟨hb, hcopy⟩
      cases hb with
      | here hk hne => exact .inl ⟨hk, hne, hcopy⟩
      | above hr' hb =>
        obtain rfl : r = _ := Option.some.inj (hr.symm.trans hr')
        exact .inr ⟨hb, hcopy⟩

/-- Only the variables that a goal depends on matter to it. -/
theorem needsCopy_congr {a : Goal} (h : ∀ y ∈ a.vars, (y ∈ kept ↔ y ∈ assigned)) :
    needsCopy post kept a = needsCopy post assigned a := by
  rw [Bool.eq_iff_iff, needsCopy_iff, needsCopy_iff]
  refine and_congr_right fun _ => and_congr_right fun _ => and_congr_right fun _ => ?_
  exact exists_congr fun y => and_congr_right (h y)

/-- Both walks find the same list.  The variables that are left at some point of the walk are, as
far as the goals still ahead depend on them, those that were there at its start. -/
theorem dependents_eq_allDependents (hw : VarHistory P t) (hl : t.Linked) (hrec : Recorded P L t)
    (hg : t.HasGoal g) (hu : t.Upward g path)
    (hkept : ∀ k, t.Beside g k → ∀ y ∈ (t.goal k).vars, (y ∈ kept ↔ y ∈ assigned)) :
    t.dependents post path kept = t.allDependents post assigned path := by
  have hempty {g : GoalId} {path : List Level} {kept : VarSet} (hu : t.Upward g path)
      (hkept : ∀ k, t.Beside g k → ∀ y ∈ (t.goal k).vars, (y ∈ kept ↔ y ∈ assigned))
      (h : kept.isEmpty = true) : t.allDependents post assigned path = [] := by
    refine List.eq_nil_iff_forall_not_mem.2 fun k hk => ?_
    obtain ⟨hb, hcopy⟩ := (mem_allDependents hu).1 hk
    obtain ⟨-, -, -, y, hy, hmem⟩ := needsCopy_iff.1 hcopy
    exact List.ne_nil_of_mem (VarSet.mem_toList.2 ((hkept k hb y hy).2 hmem)) (List.isEmpty_iff.1 h)
  have hhere {g : GoalId} {kept : VarSet}
      (hkept : ∀ k, t.Beside g k → ∀ y ∈ (t.goal k).vars, (y ∈ kept ↔ y ∈ assigned)) :
      ((t.cluster (t.goal g).cluster).goals.filter fun s =>
        s ≠ g && needsCopy post kept (t.goal s)) =
      (t.cluster (t.goal g).cluster).goals.filter fun s =>
        s ≠ g && needsCopy post assigned (t.goal s) := by
    refine List.filter_congr fun k hk => ?_
    by_cases hne : k = g
    · simp [hne]
    · rw [needsCopy_congr (hkept k (.here hk hne))]
  induction hu generalizing kept with
  | @top g hr =>
    rw [dependents]
    split
    · next h => exact (hempty (.top hr) hkept h).symm
    · rw [hhere hkept, allDependents_cons]
      exact (List.append_nil _).symm
  | @step g r path hr hu ih =>
    rw [dependents]
    split
    · next h => exact (hempty (.step hr hu) hkept h).symm
    · dsimp only
      rw [hhere hkept, allDependents_cons]
      refine congrArg _ (ih (hl.has_parent hg hr).2 fun k hb y hy => ?_)
      rw [VarSet.mem_filter, decide_eq_true_eq, hkept k (.above hr hb) y hy]
      exact and_iff_left (hb.not_introduced hw hl hrec hg hr hy)

/-! ## No goal twice -/

/-- A goal beside the way is in the cluster of a goal on the way, which is not younger than its
start. -/
theorem Beside.exists_same_cluster (h : t.Beside g k) (hl : t.Linked) (hg : t.HasGoal g) :
    ∃ q, t.HasGoal q ∧ q.index ≤ g.index ∧ (t.goal k).cluster = (t.goal q).cluster := by
  induction h with
  | here hk => exact ⟨_, hg, le_rfl, (hl.member _ (hl.home _ hg).1 _ hk).2⟩
  | above hr _ ih =>
    obtain ⟨q, hq, hle, hcluster⟩ := ih (hl.has_parent hg hr).2
    exact ⟨q, hq, hle.trans (hl.earlier _ _ hg hr).le, hcluster⟩

/-- The clusters further up are other ones. -/
theorem Beside.not_mem_cluster {r : ApplicationId} (h : t.Beside (t.application r).parent k)
    (hl : t.Linked) (hg : t.HasGoal g) (hr : t.parentApplication? g = some r) :
    k ∉ (t.cluster (t.goal g).cluster).goals := by
  intro hk
  obtain ⟨q, hq, hle, hcluster⟩ := h.exists_same_cluster hl (hl.has_parent hg hr).2
  rw [(hl.member _ (hl.home g hg).1 k hk).2] at hcluster
  have hrq : t.parentApplication? q = some r := by
    rw [parentApplication?, ← hcluster]
    exact hr
  exact absurd (hl.earlier q r hq hrq) (Nat.not_lt.2 hle)

theorem nodup_allDependents (hl : t.Linked) (hd : t.Distinct) (hg : t.HasGoal g)
    (hu : t.Upward g path) : (t.allDependents post assigned path).Nodup := by
  induction hu with
  | @top g hr =>
    rw [allDependents_cons]
    exact List.Nodup.append ((hd _ (hl.home g hg).1).filter _) .nil (List.disjoint_nil_right _)
  | @step g r path hr hu ih =>
    rw [allDependents_cons]
    refine List.Nodup.append ((hd _ (hl.home g hg).1).filter _) (ih (hl.has_parent hg hr).2) ?_
    intro k hk hk'
    exact ((mem_allDependents hu).1 hk').1.not_mem_cluster hl hg hr (List.mem_filter.1 hk).1

theorem Distinct.relink (h : t.Distinct) (hs : t.SameLinks t') : t'.Distinct := by
  intro c hc
  rw [hs.members]
  exact h c (hs.hasCluster.1 hc)

theorem Distinct.addApplication {new : NewApplication} {added : AddedApplication} {s s' : Solver}
    (h : t.Distinct) (hends : Ends (t.addApplication new) s (added, t') s') : t'.Distinct := by
  obtain ⟨new', copies, groups, -, -, -, -, rfl⟩ := addApplication_ends hends
  split
  · exact (h.addNodes new' copies groups).relink (settling_markApplicationProven ..).sameLinks
  · exact h.addNodes new' copies groups

end Tree

/-! ## Searches -/

namespace Search

variable {search : Search} {sc sc' : Scene}

theorem Step.distinct (h : Step search sc sc') (hd : sc.run.tree.Distinct) :
    sc'.run.tree.Distinct := by
  cases h with
  | note tree => exact hd.relink tree.toSameLinks
  | wait tree | begin _ _ tree | rewrite _ _ _ tree | offer _ _ _ tree => exact tree ▸ hd
  | normal _ tree => exact hd.relink (tree ▸ Tree.sameLinks_recordNorm ..)
  | attach _ _ ends => exact hd.addApplication ends

theorem Steps.distinct (h : Steps search sc sc') (hd : sc.run.tree.Distinct) :
    sc'.run.tree.Distinct := by
  induction h with
  | refl => exact hd
  | tail _ hstep ih => exact hstep.distinct ih

theorem distinct_opening (search : Search) (s : Solver) (root : Var) (vars : VarSet) :
    (search.opening s root vars).run.tree.Distinct :=
  (Tree.Grown.ofGoal root vars s.state).arranged.distinct

/-- Both walks find the same list for the candidate that is to be added next. -/
theorem dependents_of_offers {P : Problem} {L : Ledger} {g : GoalId} {c : Candidate}
    {rest : List Candidate} (hk : SceneHistory P L sc) (hl : sc.run.tree.Linked)
    (hfocus : sc.focus = .offers g (c :: rest)) :
    sc.run.tree.HasGoal g ∧ sc.run.tree.Upward g (sc.run.tree.path g) ∧
    sc.run.tree.dependents c.post.context (sc.run.tree.path g) c.assigned =
      sc.run.tree.allDependents c.post.context c.assigned (sc.run.tree.path g) := by
  obtain ⟨x, state, d, hx, -⟩ := hk.offers hfocus
  have hg := Tree.hasGoal_of_normal hx
  exact ⟨hg, hl.upward_path hg, Tree.dependents_eq_allDependents hk.history hl hk.kept.tree hg
    (hl.upward_path hg) fun _ _ _ _ => Iff.rfl⟩

/-- Every application of the final tree was added by a step of the search.  Wherever the search
holds a candidate that it is to add next, the walk that stops early returns the list that the walk
to the root with all assigned variables returns, and no goal is in it twice. -/
theorem walk_stops_safely (rules : List RuleSpec) (options : Options) (fuel : Nat) (s : Solver)
    (saved : List Snapshot) (root : Var) (d : VarDecl) (vars : VarSet)
    (hclauses : ∀ c ∈ RuleSpec.clauses rules, c.isClosed = true) (hs : Built s saved)
    (hd : s.context.decl? root = some d) (hopen : s.context.isAssigned root = false)
    (htype : d.type.hasVar = false) (hhyps : ∀ h ∈ d.hyps, h.type.hasVar = false)
    (hvars : s.context.dependencies root = .ok vars) :
    (∃ last,
      Steps (ofRules rules options fuel) ((ofRules rules options fuel).opening s root vars) last ∧
      last.run.tree = ((ofRules rules options fuel).finalRun s root).tree ∧
      ∀ r, last.run.tree.HasApplication r → ∃ sc sc' g c,
        Steps (ofRules rules options fuel) ((ofRules rules options fuel).opening s root vars) sc ∧
        Attaches (ofRules rules options fuel) sc sc' g c r ∧
        Steps (ofRules rules options fuel) sc' last) ∧
    ∀ sc g c rest,
      Steps (ofRules rules options fuel) ((ofRules rules options fuel).opening s root vars) sc →
      sc.focus = .offers g (c :: rest) →
      sc.run.tree.Upward g (sc.run.tree.path g) ∧
      sc.run.tree.dependents c.post.context (sc.run.tree.path g) c.assigned =
        sc.run.tree.allDependents c.post.context c.assigned (sc.run.tree.path g) ∧
      (sc.run.tree.dependents c.post.context (sc.run.tree.path g) c.assigned).Nodup := by
  constructor
  · obtain ⟨last, hsteps, htree⟩ := exists_steps_finalRun _ _ _ hvars
    exact ⟨last, hsteps, htree, fun r hr =>
      Steps.exists_attaches hsteps Tree.not_hasApplication_ofGoal hr⟩
  · intro sc g c rest hsteps hfocus
    obtain ⟨P, L, hk, hlinked⟩ :=
      exists_sceneHistory hclauses hs hd hopen htype hhyps hvars hsteps
    obtain ⟨hg, hu, heq⟩ := dependents_of_offers hk hlinked hfocus
    refine ⟨hu, heq, ?_⟩
    rw [heq]
    exact Tree.nodup_allDependents hlinked
      (hsteps.distinct (distinct_opening _ s root vars)) hg hu

/-- The walk for the second application of the chained search ends at the cluster of its goal: the
variable that it assigns was introduced by the first application.  It returns the goal for `y`. -/
theorem walk_stops_safely_chained : ∃ sc sc' g c,
    Steps chainedSearch (chainedSearch.opening rootSolver ⟨1⟩ ∅) sc ∧
    Attaches chainedSearch sc sc' g c ⟨1⟩ ∧
    sc.run.tree.dependents c.post.context (sc.run.tree.path g) c.assigned = [⟨3⟩] ∧
    sc.run.tree.dependents c.post.context (sc.run.tree.path g) c.assigned =
      sc.run.tree.allDependents c.post.context c.assigned (sc.run.tree.path g) ∧
    (sc.run.tree.dependents c.post.context (sc.run.tree.path g) c.assigned).Nodup := by
  obtain ⟨-, hwalks⟩ := walk_stops_safely chainedRules {} 100
    rootSolver [] ⟨1⟩ ⟨.const "Root", [], none⟩ ∅ (by decide) (.perform _ .empty) (by decide)
    (by decide) (by decide) (by decide) rfl
  obtain ⟨⟨⟩, run, hends, htest⟩ := exists_ends (x := chainedPasses)
    (s := (chainedSearch.opening rootSolver ⟨1⟩ ∅).run) (fun _ => factTest fun run c _ =>
      decide (run.tree.dependents c.post.context (run.tree.path ⟨2⟩) c.assigned = [⟨3⟩]))
    (by decide +kernel)
  obtain ⟨sc, sc', c, hsteps, hattaches, htest⟩ := exists_chained_attaches hends htest
  obtain ⟨rest, hfocus⟩ := hattaches.focus
  exact ⟨sc, sc', ⟨2⟩, c, hsteps, hattaches, of_decide_eq_true htest,
    (hwalks sc ⟨2⟩ c rest hsteps hfocus).2⟩

end Search

end ProofSearch
