import ProofSearch.Proofs.Search.SearchSteps

/-!
# Normalization and the variables of a goal

During a normalization the state changes when a norm rule is applied and when the simplifier has
done something.  Of a norm rule it is checked that it assigns no variable on which the goal depends.
The simplifier is not checked.  Other goals may share these variables.

1. `RuleMove`, `SimpMove`: one change of the state.
2. `NormMoves.exists_assigning`: a variable on which the goal depends is assigned by the simplifier,
   or at a time when it is not declared.
3. `Traced`, `SearchSteps.traced`: every state that is recorded in a search has come about by moves
   from the state in which the goal was made.
4. `normalization_assigns`: if a variable on which a goal depends is assigned by the normalization
   of the goal, then by the simplifier, or while it is not declared.
5. `simplifier_assigns`: the simplifier does assign such variables.
-/

namespace ProofSearch

/-- The recorded state. -/
def NormState.post? : NormState → Option Snapshot
  | .normal _ post | .proven post => some post
  | .notNormal => none

theorem Goal.normPost?_eq (goal : Goal) : goal.normPost? = goal.norm.post? := by
  unfold Goal.normPost? NormState.post?
  rfl

namespace Search

variable {search : Search} {postpone : Bool} {t t' : Tree} {g : GoalId} {s s' : Expansion}
  {m m' : Moment} {vars : VarSet} {v : Var} {pre post : Snapshot}

/-! ## Moves -/

/-- A norm rule is applied to a goal that depends on `vars`. -/
def RuleMove (search : Search) (vars : VarSet) (pre post : Snapshot) : Prop :=
  ∃ target hyps, ∃ m ∈ search.rules.norm target hyps, ∃ x value? s candidates result? c,
    m.rule.examine pre search.options.checkRuleEffects
      ((m.rule.call ⟨x, vars, m.locations, value?⟩ pre).run s).1 =
        .ok (.applied candidates result?) ∧
    m.rule.checkNorm vars candidates = .ok c ∧ c.post = post

/-- The simplifier is run. -/
def SimpMove (search : Search) (pre post : Snapshot) : Prop :=
  search.options.enableSimp = true ∧ ∃ x s result s', s.state = pre ∧
    Ends (search.simplifier x) s result s' ∧ s'.state = post

def NormMove (search : Search) (vars : VarSet) (pre post : Snapshot) : Prop :=
  search.RuleMove vars pre post ∨ search.SimpMove pre post

/-- The changes of the state in a normalization. -/
abbrev NormMoves (search : Search) (vars : VarSet) : Snapshot → Snapshot → Prop :=
  Relation.ReflTransGen (search.NormMove vars)

/-- A norm rule assigns no declared variable on which the goal depends. -/
theorem RuleMove.isAssigned_eq_false (h : search.RuleMove vars pre post) (hv : v ∈ vars)
    (hdecl : pre.context.isDeclared v = true) (hopen : pre.context.isAssigned v = false) :
    post.context.isAssigned v = false := by
  obtain ⟨target, hyps, m, -, x, value?, s, candidates, result?, c, hex, hcheck, rfl⟩ := h
  obtain ⟨rfl, -, hdisjoint⟩ := Rule.checkNorm_eq_ok hcheck
  obtain ⟨⟨proposals, out?⟩, -, -, hchecks⟩ := Rule.examine_applied hex
  cases hchecks with
  | cons hc _ =>
    refine (Bool.not_eq_true _).mp fun ha => ?_
    rcases Proposal.open_of_disjoint hc hdisjoint hv ha with ha | hundeclared
    · exact nomatch hopen.symm.trans ha
    · exact nomatch hundeclared.symm.trans hdecl

/-- The move of a normalization that assigns a variable on which the goal depends. -/
theorem NormMoves.exists_assigning (h : search.NormMoves vars pre post) (hv : v ∈ vars)
    (hopen : pre.context.isAssigned v = false) (ha : post.context.isAssigned v = true) :
    ∃ before after, search.NormMoves vars pre before ∧ search.NormMoves vars after post ∧
      before.context.isAssigned v = false ∧ after.context.isAssigned v = true ∧
      (search.SimpMove before after ∨
        search.RuleMove vars before after ∧ before.context.isDeclared v = false) := by
  induction h using Relation.ReflTransGen.head_induction_on with
  | refl => exact nomatch hopen.symm.trans ha
  | @head pre mid hmove hmoves ih =>
    cases hmid : mid.context.isAssigned v with
    | false =>
      obtain ⟨before, after, hbefore, hassigning⟩ := ih hmid
      exact ⟨before, after, hbefore.head hmove, hassigning⟩
    | true =>
      refine ⟨pre, mid, .refl, hmoves, hopen, hmid, hmove.symm.imp_right fun hrule => ⟨hrule, ?_⟩⟩
      refine (Bool.not_eq_true _).mp fun hdecl => ?_
      exact nomatch (hrule.isAssigned_eq_false hv hdecl hopen).symm.trans hmid

/-! ## Recorded normalizations -/

/-- Every recorded normalization consists of moves from the state in which the goal was made. -/
def Traced (search : Search) (t : Tree) : Prop := ∀ g post,
  (t.goal g).normPost? = some post → search.NormMoves (t.goal g).vars (t.preState g) post

theorem hasGoal_of_normPost? {post : Snapshot} (h : (t.goal g).normPost? = some post) :
    t.HasGoal g := by
  by_contra hg
  rw [Tree.goal_of_not_has hg] at h
  cases h

theorem traced_ofGoal (goal : Var) (vars : VarSet) (state : Snapshot) :
    search.Traced (.ofGoal goal vars state) := by
  intro g post h
  rw [Tree.hasGoal_ofGoal.1 (hasGoal_of_normPost? h)] at h
  cases h

namespace Traced

theorem noted (h : search.Traced t) (ht : t.Noted t') : search.Traced t' := by
  intro g post hpost
  rw [Goal.normPost?_eq, ht.norm, ← Goal.normPost?_eq] at hpost
  rw [ht.vars, ht.preState]
  exact h g post hpost

theorem recordNorm (h : search.Traced t) (hl : t.Linked) {branch : BranchState}
    {norm : NormState} (hmoves : ∀ post, norm.post? = some post →
      search.NormMoves (t.goal g).vars (t.preState g) post) :
    search.Traced (t.recordNorm g branch norm) := by
  intro k post hpost
  have hretains : t.Retains (t.recordNorm g branch norm) := Tree.retains_modifyGoal t g rfl rfl rfl
  have hk := (Tree.sameLinks_recordNorm t g branch norm).hasGoal.1 (hasGoal_of_normPost? hpost)
  rw [hretains.preState_eq hl hk]
  rw [Tree.goal_recordNorm] at hpost ⊢
  split at hpost
  · next hc =>
    rw [if_pos hc, hc.1]
    exact hmoves post hpost
  · next hc =>
    rw [if_neg hc]
    exact h k post hpost

theorem addApplication (h : search.Traced t) (hl : t.Linked) {new : NewApplication}
    {added : AddedApplication} {s s' : Solver} (hp : t.HasGoal new.parent)
    (hends : Ends (t.addApplication new) s (added, t') s') : search.Traced t' := by
  obtain ⟨new', copies, groups, u, -, -, -, hgrow, -, -, ht⟩ := Tree.addApplication_growth hends hp
  refine Traced.noted ?_ (Tree.noted_of_added ht)
  intro k post hpost
  have hk : t.HasGoal k := by
    by_contra hk
    obtain ⟨c, s, -, -, -, -, hnew⟩ := hgrow.goal_new k hk (hasGoal_of_normPost? hpost)
    rw [hnew] at hpost
    cases hpost
  obtain ⟨rs, hgoal⟩ := hgrow.exists_goal_eq hk
  rw [hgrow.retains.preState_eq hl hk]
  rw [hgoal] at hpost ⊢
  exact h k post hpost

end Traced

/-- The normalization in hand consists of moves too. -/
abbrev Tracing (search : Search) (g : GoalId) (run : Run) : ExpansionStage → Prop
  | .norm _ => search.NormMoves (run.tree.goal g).vars (run.tree.preState g) run.solver.state
  | _ => True

theorem ExpansionStep.traced (h : ExpansionStep search postpone g s s')
    (hg : s.run.tree.HasGoal g) (hl : s.run.tree.Linked) (ht : search.Traced s.run.tree)
    (hm : search.Tracing g s.run s.stage) :
    search.Traced s'.run.tree ∧ search.Tracing g s'.run s'.stage := by
  have hnoted := h.noted
  cases h with
  | begin => exact ⟨ht, .refl⟩
  | round _ next =>
    rw [Tracing, next.tree, next.solver]
    exact ⟨ht, hm⟩
  | normFail _ _ _ _ next =>
    rw [Tracing, next.tree, next.solver]
    exact ⟨ht, hm⟩
  | @rewrite run run' p target hyps k input candidates value? c _ mem asked applied check next =>
    rw [Tracing, next.tree, next.solver]
    subst asked
    exact ⟨ht, .tail hm (.inl ⟨target, hyps, k, mem, p.goal, _, run.solver, candidates, value?, c,
      applied, check, rfl⟩)⟩
  | @simplify run run' p result u _ enabled ends next =>
    rw [Tracing, next.tree, next.solver]
    refine ⟨ht, ?_⟩
    split
    · exact hm
    · exact .tail hm (.inr ⟨enabled, p.goal, run.solver, result, u, rfl, ends, rfl⟩)
  | normalize =>
    refine ⟨ht.recordNorm hl fun post hpost => ?_, trivial⟩
    cases hpost
    exact hm
  | close _ _ next =>
    rw [next.tree]
    refine ⟨(ht.recordNorm hl fun post hpost => ?_).noted
      (Tree.settling_markProvenByNorm _ g).noted, trivial⟩
    cases hpost
    exact hm
  | commit ends next =>
    rw [next]
    exact ⟨(ht.addApplication hl hg ends).noted
      (Tree.noted_modifyGoal _ g fun _ => ⟨rfl, rfl, rfl, rfl, rfl, rfl⟩), trivial⟩
  | attach _ ends next =>
    rw [next]
    exact ⟨ht.addApplication hl hg ends, trivial⟩
  | finish => exact ⟨ht, trivial⟩
  | enter | giveUp | known | leave | pick | fail | postpone | skip | choose | select | resume | take
  | reject | offer | exhaust | retire | requeue => exact ⟨ht.noted (hnoted nofun id), trivial⟩

abbrev TracingActivity (search : Search) (run : Run) : Activity → Prop
  | .idle => True
  | .expanding _ g stage => search.Tracing g run stage

theorem SearchStep.traced (h : SearchStep search m m') (hm : search.Valid m)
    (ht : search.Traced m.run.tree ∧ search.TracingActivity m.run m.activity) :
    search.Traced m'.run.tree ∧ search.TracingActivity m'.run m'.activity := by
  cases h with
  | next | drain | visit => exact ⟨ht.1, trivial⟩
  | expand step => exact step.traced hm.activity.1.has hm.stocked.linked ht.1 ht.2
  | leave _ next => exact ⟨next.tree ▸ ht.1, trivial⟩

theorem SearchSteps.traced {run : Run} (h : SearchSteps search ⟨run, .idle⟩ m)
    (hm : search.Valid ⟨run, .idle⟩) (ht : search.Traced run.tree) : search.Traced m.run.tree := by
  suffices hboth : search.Traced m.run.tree ∧ search.TracingActivity m.run m.activity from hboth.1
  induction h with
  | refl => exact ⟨ht, trivial⟩
  | tail hsteps hstep ih => exact hstep.traced (SearchSteps.valid hsteps hm) ih

/-! ## Assigned variables -/

/-- If the normalization of a goal has assigned a variable on which the goal depends, then the
simplifier has done so, or a norm rule at a time when the variable was not declared. -/
theorem normalization_assigns (search : Search) (s : Solver) (goal : Var) (vars : VarSet)
    (n m : Nat) (t : Tree)
    (ht : t = search.treeAfter (search.start s (.ofGoal goal vars s.state)) n m) (g : GoalId)
    (post : Snapshot) (hpost : (t.goal g).normPost? = some post) (v : Var)
    (hv : v ∈ (t.goal g).vars) (hopen : (t.preState g).context.isAssigned v = false)
    (ha : post.context.isAssigned v = true) : ∃ before after,
      search.NormMoves (t.goal g).vars (t.preState g) before ∧
      search.NormMoves (t.goal g).vars after post ∧
      before.context.isAssigned v = false ∧ after.context.isAssigned v = true ∧
      (search.SimpMove before after ∨
        search.RuleMove (t.goal g).vars before after ∧ before.context.isDeclared v = false) := by
  have hv' : search.Valid ⟨search.start s (.ofGoal goal vars s.state), .idle⟩ :=
    valid_start s goal vars
  obtain ⟨moment, -, hsteps, htree, -⟩ := exists_steps_treeAfter (le_refl n) (le_refl m) hv'
  have htraced := SearchSteps.traced hsteps hv' (traced_ofGoal goal vars s.state)
  rw [htree, ← ht] at htraced
  exact (htraced g post hpost).exists_assigning hv hopen ha

/-! ## A simplifier that assigns -/

/-- The goal `P(x)` is simplified to `Q`, with a value for `x`. -/
def greedySimplifier : Simplifier := fun x =>
  if x = ⟨2⟩ then do
    (Solver.assign ⟨1⟩ (.const "a")).adapt .metavar
    let rest ← Solver.mkGoal (.const "Q") []
    (Solver.assign x (.apply "q" [.var rest])).adapt .metavar
    return .simplified rest
  else return .unchanged

def greedySearch : Search where
  rules := (RuleSet.ofList []).query
  simplifier := greedySimplifier
  options := {}
  fuel := 10

/-- The goal `P(x)` for an open variable `x`. -/
def greedyStart : Solver := ((do
  let x ← Solver.mkGoal (.const "T") []
  Solver.mkGoal (.app "P" [.var x]) [] : StateM Solver Var).run .empty).2

def greedyTree : Tree := greedySearch.treeAfter (greedySearch.start greedyStart
  (.ofGoal ⟨2⟩ (VarSet.ofList [⟨1⟩]) greedyStart.state)) 5 5

theorem greedyTree_assigned : ∃ post, (greedyTree.goal Tree.root).normPost? = some post ∧
    ⟨1⟩ ∈ (greedyTree.goal Tree.root).vars ∧
    (greedyTree.preState Tree.root).context.isDeclared ⟨1⟩ = true ∧
    (greedyTree.preState Tree.root).context.isAssigned ⟨1⟩ = false ∧
    post.context.isAssigned ⟨1⟩ = true := by
  have hpre : (greedyTree.goal Tree.root).vars.toList.contains ⟨1⟩ = true ∧
      (greedyTree.preState Tree.root).context.isDeclared ⟨1⟩ = true ∧
      (greedyTree.preState Tree.root).context.isAssigned ⟨1⟩ = false := by
    decide +kernel
  have hpost : (match (greedyTree.goal Tree.root).normPost? with
      | some post => post.context.isAssigned ⟨1⟩
      | none => false) = true := by
    decide +kernel
  rw [List.contains_iff_mem, VarSet.mem_toList] at hpre
  split at hpost
  · next post hp => exact ⟨post, hp, hpre.1, hpre.2.1, hpre.2.2, hpost⟩
  · cases hpost

/-- The goal depends on a variable that was open when the goal was made, and that is assigned after
the normalization of the goal. -/
theorem simplifier_assigns : greedyStart.context.dependencies ⟨2⟩ = .ok (VarSet.ofList [⟨1⟩]) ∧
    ∃ n m t g post v, t = greedySearch.treeAfter (greedySearch.start greedyStart
        (.ofGoal ⟨2⟩ (VarSet.ofList [⟨1⟩]) greedyStart.state)) n m ∧
      (t.goal g).normPost? = some post ∧ v ∈ (t.goal g).vars ∧
      (t.preState g).context.isDeclared v = true ∧ (t.preState g).context.isAssigned v = false ∧
      post.context.isAssigned v = true := by
  obtain ⟨post, hpost, hv, hdecl, hopen, ha⟩ := greedyTree_assigned
  exact ⟨rfl, 5, 5, greedyTree, Tree.root, post, ⟨1⟩, rfl, hpost, hv, hdecl, hopen, ha⟩

theorem normalization_assigns_greedy : ∃ post before after,
    (greedyTree.goal Tree.root).normPost? = some post ∧
    greedySearch.NormMoves (greedyTree.goal Tree.root).vars (greedyTree.preState Tree.root) before ∧
    greedySearch.NormMoves (greedyTree.goal Tree.root).vars after post ∧
    before.context.isAssigned ⟨1⟩ = false ∧ after.context.isAssigned ⟨1⟩ = true ∧
    (greedySearch.SimpMove before after ∨
      greedySearch.RuleMove (greedyTree.goal Tree.root).vars before after ∧
        before.context.isDeclared ⟨1⟩ = false) := by
  obtain ⟨post, hpost, hv, -, hopen, ha⟩ := greedyTree_assigned
  obtain ⟨before, after, hassigning⟩ := normalization_assigns greedySearch greedyStart ⟨2⟩
    (VarSet.ofList [⟨1⟩]) 5 5 greedyTree rfl Tree.root post hpost ⟨1⟩ hv hopen ha
  exact ⟨post, before, after, hpost, hassigning⟩

end Search

end ProofSearch
