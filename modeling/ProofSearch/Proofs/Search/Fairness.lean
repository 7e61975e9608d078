import ProofSearch.Proofs.Search.Trials
import ProofSearch.Rule.Clause

/-!
# Every rule gets its turn

1. `exhausted_tried`: on an exhausted goal all rules that match it have failed or are applied,
   unless the goal was given up or has an eager application.  Queues are in order.
2. `eager_alone`: an eager application is the only one of its goal, now and later.
3. `eager_application_assigns`: it may assign a variable that was not declared before.
-/

namespace ProofSearch

namespace Search

variable {search : Search} {t : Tree} {held : GoalId → String → Prop} {g : GoalId}

/-! ## Exhausted goals -/

theorem GoalFair.queue_ordered (h : GoalFair search t held g)
    (hsel : (t.goal g).selected = true) : (t.goal g).queue.Pairwise QueuedRule.Precedes :=
  (h.ordered hsel).imp QueuedRule.le_iff.1

theorem GoalFair.tried_of_exhausted {x : Var} {post : Snapshot}
    (h : GoalFair search t noneHeld g) (hnorm : (t.goal g).norm = .normal x post)
    (hex : (t.goal g).isExhausted = true) (hforced : (t.goal g).forced = false)
    (hun : t.Uncommitted g) : ∃ target hyps, post.Describes x target hyps ∧
      ∀ m ∈ search.rules.safe target hyps ++ search.rules.tentative target hyps,
        t.Tried g m.rule.name := by
  obtain ⟨hsel, hqueue⟩ : (t.goal g).selected = true ∧ (t.goal g).queue = [] := by
    simpa [Goal.isExhausted, hforced] using hex
  obtain ⟨y, state, target, hyps, hnorm', hdesc, hall⟩ := h.covered hsel hun
  obtain ⟨rfl, rfl⟩ := NormState.normal.inj (hnorm.symm.trans hnorm')
  refine ⟨target, hyps, hdesc, fun m hm => ?_⟩
  rcases hall m hm with htried | ⟨e, he, -⟩ | hheld
  · exact htried
  · cases hqueue ▸ he
  · exact hheld.elim

/-- At the beginning of every pass, each rule that matches an exhausted goal has failed on it or is
applied to it, unless the goal was given up or a rule was applied to it at once.  The rules that
wait for a goal are in order at all times. -/
theorem exhausted_tried (search : Search) (s : Solver) (goal : Var) (vars : VarSet) :
    (∀ run, Reached search (search.start s (.ofGoal goal vars s.state)) run → ∀ g,
      (∀ x post, (run.tree.goal g).norm = .normal x post →
        (run.tree.goal g).isExhausted = true → (run.tree.goal g).forced = false →
        (∀ r ∈ (run.tree.goal g).applications,
          (run.tree.application r).rule.kind.isEager = false) →
        ∃ target hyps, post.context.goalType x = .ok target ∧
          post.context.goalHyps x = .ok hyps ∧
          ∀ m ∈ search.rules.safe target hyps ++ search.rules.tentative target hyps,
            m.rule.name ∈ (run.tree.goal g).failedRules ∨ ∃ r ∈ (run.tree.goal g).applications,
              (run.tree.application r).rule.name = m.rule.name) ∧
      ((run.tree.goal g).selected = true →
        (run.tree.goal g).queue.Pairwise QueuedRule.Precedes)) ∧
    ∀ n m g t, t = search.treeAfter (search.start s (.ofGoal goal vars s.state)) n m →
      (t.goal g).selected = true → (t.goal g).queue.Pairwise QueuedRule.Precedes := by
  have hv : search.Valid ⟨search.start s (.ofGoal goal vars s.state), .idle⟩ :=
    valid_start s goal vars
  have hf : FairMoment search ⟨search.start s (.ofGoal goal vars s.state), .idle⟩ :=
    fair_start s goal vars
  refine ⟨fun run hrun g => ?_, ?_⟩
  · have hfair := (SearchSteps.fair (hrun.steps hv) hv hf).fair.goals g
    refine ⟨fun x post hnorm hex hforced hun => ?_, hfair.queue_ordered⟩
    obtain ⟨target, hyps, ⟨htype, hhyps⟩, htried⟩ :=
      hfair.tried_of_exhausted hnorm hex hforced hun
    exact ⟨target, hyps, htype, hhyps, htried⟩
  · rintro n m g t rfl hsel
    obtain ⟨moment, -, hsteps, htree, -⟩ := exists_steps_treeAfter (le_refl n) (le_refl m) hv
    rw [← htree] at hsel ⊢
    exact ((SearchSteps.fair hsteps hv hf).fair.goals g).queue_ordered hsel

/-- A search that tries four rules on `C`: a safe one that fails, a safe one with two applications,
and two tentative ones of which one fails. -/
def fourfold : Search where
  rules := (RuleSet.ofList [
    ⟨"absent", .safe 0 .safe, [], Clause.procedure ⟨"absent", [], [], .const "D"⟩⟩,
    ⟨"double", .safe 1 .safe, [], fun input => do
      let out ← Clause.procedure ⟨"double", [], [.const "A"], .const "C"⟩ input
      return { out with proposals := out.proposals ++ out.proposals }⟩,
    ⟨"single", .tentative .fifty, [], Clause.procedure ⟨"single", [], [.const "B"], .const "C"⟩⟩,
    ⟨"wrong", .tentative .fifty, [], Clause.procedure ⟨"wrong", [], [], .const "D"⟩⟩]).query
  simplifier := .none
  options := {}
  fuel := 10

theorem exhausted_tried_fourfold : ∃ run, Reached fourfold (fourfold.start
      ((Solver.mkGoal (.const "C") []).run .empty).2 (.ofGoal ⟨1⟩ ∅
        ((Solver.mkGoal (.const "C") []).run .empty).2.state)) run ∧
    (run.tree.goal Tree.root).applications.length = 3 ∧
    (run.tree.goal Tree.root).failedRules.length = 2 ∧
    ∃ x post target hyps, (run.tree.goal Tree.root).norm = .normal x post ∧
      post.context.goalType x = .ok target ∧ post.context.goalHyps x = .ok hyps ∧
      ∀ m ∈ fourfold.rules.safe target hyps ++ fourfold.rules.tentative target hyps,
        m.rule.name ∈ (run.tree.goal Tree.root).failedRules ∨
          ∃ r ∈ (run.tree.goal Tree.root).applications,
            (run.tree.application r).rule.name = m.rule.name := by
  obtain ⟨s, hs⟩ : ∃ s : Solver, s = ((Solver.mkGoal (.const "C") []).run .empty).2 := ⟨_, rfl⟩
  rw [← hs]
  obtain ⟨verdict, run, hloop, htest⟩ := exists_ends (x := fourfold.loop .outOfFuel 10)
    (s := fourfold.start s (.ofGoal ⟨1⟩ ∅ s.state))
    (fun verdict run => decide (verdict = some .unprovable ∧
      (run.tree.goal Tree.root).normVar? = some ⟨1⟩ ∧
      (run.tree.goal Tree.root).isExhausted = true ∧ (run.tree.goal Tree.root).forced = false ∧
      (∀ r ∈ (run.tree.goal Tree.root).applications,
          (run.tree.application r).rule.kind.isEager = false) ∧
      (run.tree.goal Tree.root).applications.length = 3 ∧
      (run.tree.goal Tree.root).failedRules.length = 2)) (by
      rw [hs]
      decide +kernel)
  obtain ⟨rfl, hvar, hex, hforced, hun, happs, hfailed⟩ := of_decide_eq_true htest
  obtain ⟨last, hreach, ⟨-, rfl⟩ | ⟨-, hv, -⟩⟩ := Reached.first.loop hloop
  · obtain ⟨post, hnorm⟩ := Goal.norm_of_normVar? hvar
    obtain ⟨target, hyps, htype, hhyps, htried⟩ := ((exhausted_tried fourfold s ⟨1⟩ ∅).1 run hreach
      Tree.root).1 _ post hnorm hex hforced hun
    exact ⟨run, hreach, happs, hfailed, _, post, target, hyps, hnorm, htype, hhyps, htried⟩
  · cases hv

/-! ## Eager applications -/

/-- A goal with an eager application has no other one, neither now nor after more passes and more
steps, and no rule waits for it.  The rule of the application had returned a single proposal, which
assigned no variable that the goal depends on and that was declared when the rule was run. -/
theorem eager_alone (search : Search) (s : Solver) (goal : Var) (vars : VarSet) (first : Run)
    (hfirst : first = search.start s (.ofGoal goal vars s.state)) {n n' m m' : Nat} (hn : n ≤ n')
    (hm : m ≤ m') {g : GoalId} {r : ApplicationId}
    (hr : r ∈ ((search.treeAfter first n m).goal g).applications)
    (he : ((search.treeAfter first n m).application r).rule.kind.isEager = true) :
    ((search.treeAfter first n m).goal g).applications = [r] ∧
    ((search.treeAfter first n m).goal g).isExhausted = true ∧
    ((search.treeAfter first n m).goal g).queue = [] ∧
    ((search.treeAfter first n' m').goal g).applications = [r] ∧
    (n ≤ search.loopBudget.1 → m ≤ search.fuel →
      ((search.runAll.run.run first).2.tree.goal g).applications = [r]) ∧
    search.Committed (search.treeAfter first n m) g r := by
  have hv : search.Valid ⟨first, .idle⟩ := hfirst ▸ valid_start s goal vars
  have hf : FairMoment search ⟨first, .idle⟩ := hfirst ▸ fair_start s goal vars
  have hlater {n' m' : Nat} (hn : n ≤ n') (hm : m ≤ m') :
      ((search.treeAfter first n' m').goal g).applications = [r] := by
    obtain ⟨moment, later, hsteps, htree, hsteps', htree'⟩ := exists_steps_treeAfter hn hm hv
    rw [← htree] at hr he
    rw [← htree']
    exact SearchSteps.committed hsteps' (SearchSteps.valid hsteps hv)
      (SearchSteps.fair hsteps hv hf) hr he
  obtain ⟨moment, -, hsteps, htree, -⟩ := exists_steps_treeAfter (le_refl n) (le_refl m) hv
  have hfair := (SearchSteps.fair hsteps hv hf).fair
  rw [htree] at hfair
  obtain ⟨happs, hsel, hqueue, hcommitted⟩ := (hfair.goals g).committed r hr he
  refine ⟨happs, ?_, hqueue, hlater hn hm, fun hn hm => ?_, hcommitted⟩
  · simp [Goal.isExhausted, hsel, hqueue]
  · rw [tree_runAll]
    exact hlater hn hm

/-- A search that stops after the first of two eager applications and makes the second one when it
expands the safe prefix. -/
def prolonged : Search where
  rules := (RuleSet.ofList [
    ⟨"open", .safe 0 .safe, [], Clause.procedure ⟨"open", [], [.const "A"], .const "C"⟩⟩,
    ⟨"more", .safe 0 .almostSafe, [],
      Clause.procedure ⟨"more", [], [.const "B"], .const "A"⟩⟩]).query
  simplifier := .none
  options := { maxGoals := 2 }
  fuel := 10

theorem eager_alone_prolonged : ∃ s first, first = prolonged.start s (.ofGoal ⟨1⟩ ∅ s.state) ∧
    ((prolonged.treeAfter first 1 0).goal Tree.root).applications = [⟨0⟩] ∧
    ((prolonged.treeAfter first 5 9).goal Tree.root).applications = [⟨0⟩] ∧
    prolonged.Committed (prolonged.treeAfter first 1 0) Tree.root ⟨0⟩ ∧
    ((prolonged.treeAfter first 5 1).goal ⟨1⟩).applications = [] ∧
    ((prolonged.treeAfter first 5 2).goal ⟨1⟩).isExhausted = true ∧
    ((prolonged.treeAfter first 5 9).goal ⟨1⟩).applications = [⟨1⟩] ∧
    prolonged.Committed (prolonged.treeAfter first 5 2) ⟨1⟩ ⟨1⟩ := by
  obtain ⟨s, hs⟩ : ∃ s : Solver, s = ((Solver.mkGoal (.const "C") []).run .empty).2 := ⟨_, rfl⟩
  obtain ⟨first, hfirst⟩ : ∃ first, first = prolonged.start s (.ofGoal ⟨1⟩ ∅ s.state) := ⟨_, rfl⟩
  obtain ⟨happs, -, -, hlater, -, hcommitted⟩ := eager_alone prolonged s ⟨1⟩ ∅ first hfirst
    (n := 1) (m := 0) (show 1 ≤ 5 by decide) (show 0 ≤ 9 by decide) (g := Tree.root) (r := ⟨0⟩)
    (by rw [hfirst, hs]; decide +kernel) (by rw [hfirst, hs]; decide +kernel)
  obtain ⟨-, hex, -, hlater', -, hcommitted'⟩ := eager_alone prolonged s ⟨1⟩ ∅ first hfirst
    (n := 5) (m := 2) (show 5 ≤ 5 by decide) (show 2 ≤ 9 by decide) (g := ⟨1⟩) (r := ⟨1⟩)
    (by rw [hfirst, hs]; decide +kernel) (by rw [hfirst, hs]; decide +kernel)
  refine ⟨s, first, hfirst, happs, hlater, hcommitted, ?_, hex, hlater', hcommitted'⟩
  rw [hfirst, hs]
  decide +kernel

/-- A search in which `split` makes two goals that mention a variable without declaring it, and
`pick` declares this variable and assigns it. -/
def belated : Search where
  rules := (RuleSet.ofList [
    ⟨"split", .safe 0 .safe, [.target "C"], fun input => do
      let pre := (← get).state
      let x ← Solver.freshVar
      let left ← Solver.mkGoal (.app "A" [.var x]) []
      let right ← Solver.mkGoal (.app "B" [.var x]) []
      (Solver.assign input.goal (.apply "split" [.var left, .var right])).adapt .metavar
      return ⟨[.capture pre (← get) [left, right]], none⟩⟩,
    ⟨"pick", .safe 0 .safe, [.target "A"], fun input => do
      let pre := (← get).state
      (Solver.declare ⟨2⟩ { type := .const "T", hyps := [] }).adapt .metavar
      (Solver.assign ⟨2⟩ (.const "c")).adapt .metavar
      (Solver.assign input.goal (.const "a")).adapt .metavar
      return ⟨[.capture pre (← get) []], none⟩⟩]).query
  simplifier := .none
  options := {}
  fuel := 10

/-- An eager application may assign a variable that its goal depends on, if the variable is declared
only when the rule is run. -/
theorem eager_application_assigns : ∃ s n m t g r x state v,
    t = belated.treeAfter (belated.start s (.ofGoal ⟨1⟩ ∅ s.state)) n m ∧
    (t.goal g).applications = [r] ∧ (t.application r).rule = ⟨"pick", .safe⟩ ∧
    (t.application r).clusters = [] ∧ (t.goal g).norm = .normal x state ∧ v ∈ (t.goal g).vars ∧
    state.context.isAssigned v = false ∧ (t.application r).post.context.isAssigned v = true := by
  obtain ⟨s, hs⟩ : ∃ s : Solver, s = ((Solver.mkGoal (.const "C") []).run .empty).2 := ⟨_, rfl⟩
  obtain ⟨t, ht⟩ : ∃ t, t = belated.treeAfter (belated.start s (.ofGoal ⟨1⟩ ∅ s.state)) 5 0 :=
    ⟨_, rfl⟩
  have htree : (t.goal ⟨1⟩).applications = [⟨1⟩] ∧
      (t.application ⟨1⟩).rule = ⟨"pick", .safe⟩ ∧ (t.application ⟨1⟩).clusters = [] ∧
      (t.goal ⟨1⟩).normVar? = some ⟨3⟩ ∧ (t.goal ⟨1⟩).vars.toList.contains ⟨2⟩ = true ∧
      (t.goal ⟨1⟩).normPost?.map (·.context.isAssigned ⟨2⟩) = some false ∧
      (t.application ⟨1⟩).post.context.isAssigned ⟨2⟩ = true := by
    rw [ht, hs]
    decide +kernel
  obtain ⟨happs, hrule, hclusters, hvar, hv, hopen, ha⟩ := htree
  obtain ⟨state, hnorm⟩ := Goal.norm_of_normVar? hvar
  rw [Goal.normPost?, hnorm] at hopen
  rw [List.contains_iff_mem, VarSet.mem_toList] at hv
  exact ⟨s, 5, 0, t, ⟨1⟩, ⟨1⟩, ⟨3⟩, state, ⟨2⟩, ht, happs, hrule, hclusters, hnorm, hv,
    Option.some.inj hopen, ha⟩

end Search

end ProofSearch
