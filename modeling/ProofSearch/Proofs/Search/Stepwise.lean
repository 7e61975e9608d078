import ProofSearch.Proofs.Search.ExpansionSteps

/-!
# Expansions are made of steps

The functions that expand a goal are followed here, from the start of each to its result or error.

1. `Stepwise`: a computation that takes the steps of an expansion until it returns or fails.
2. `stepwise_normalizeGoal`, `stepwise_runSafeRules`, `stepwise_expandGoal`: the functions of an
   expansion, in the order of their calls.
3. `expandPrefix_cons`, `prefixStep_outcome`: the safe prefix is expanded step by step, and what
   each step comes to.
-/

namespace ProofSearch

namespace Search

open SearchM

variable {search : Search} {postpone : Bool} {g : GoalId} {s s' : Expansion} {run run' : Run}

/-! ## Computations made of steps -/

/-- The computation `x`, started in `run`, takes steps from `s` on.  It returns a result that is as
`Q` says, or the last step is followed by a fault. -/
def Stepwise {α : Type} (search : Search) (postpone : Bool) (g : GoalId) (s : Expansion)
    (x : SearchM α) (run : Run) (Q : α → Expansion → Prop) : Prop :=
  ∃ s', ExpansionSteps search postpone g s s' ∧ ((∃ a, Ends x run a s'.run ∧ Q a s') ∨
    ∃ e run', x.run.run run = (.error e, run') ∧ ExpansionFault search g s' e run')

section

variable {α β : Type} {x : SearchM α} {f : α → SearchM β} {a : α} {e : SearchError}
  {Q : α → Expansion → Prop} {Q' : β → Expansion → Prop}

theorem Stepwise.after (h : Stepwise search postpone g s' x run Q)
    (hs : ExpansionSteps search postpone g s s') : Stepwise search postpone g s x run Q := by
  obtain ⟨s'', hsteps, hend⟩ := h
  exact ⟨s'', hs.trans hsteps, hend⟩

theorem Stepwise.of_ends (h : Stepwise search postpone g s x run Q) (hx : Ends x run a run') :
    ∃ s', ExpansionSteps search postpone g s s' ∧ s'.run = run' ∧ Q a s' := by
  obtain ⟨s', hsteps, ⟨b, hb, hq⟩ | ⟨e, u, he, -⟩⟩ := h
  · cases (show x.run.run run = _ from hb).symm.trans hx
    exact ⟨s', hsteps, rfl, hq⟩
  · cases he.symm.trans hx

theorem Stepwise.of_error (h : Stepwise search postpone g s x run Q)
    (hx : x.run.run run = (.error e, run')) :
    ∃ s', ExpansionSteps search postpone g s s' ∧ ExpansionFault search g s' e run' := by
  obtain ⟨s', hsteps, ⟨b, hb, -⟩ | ⟨e', u, he, hfault⟩⟩ := h
  · cases (show x.run.run run = _ from hb).symm.trans hx
  · cases he.symm.trans hx
    exact ⟨s', hsteps, hfault⟩

theorem stepwise_of_ends (h : Ends x run a s.run) (hq : Q a s) :
    Stepwise search postpone g s x run Q := ⟨s, .refl, .inl ⟨a, h, hq⟩⟩

theorem stepwise_pure {stage : ExpansionStage} (hq : Q a ⟨run, stage⟩) :
    Stepwise search postpone g ⟨run, stage⟩ (pure a) run Q :=
  stepwise_of_ends (ends_pure.2 ⟨rfl, rfl⟩) hq

theorem stepwise_step {stage : ExpansionStage} (hs : ExpansionStep search postpone g s ⟨run, stage⟩)
    (h : Stepwise search postpone g ⟨run, stage⟩ x run Q) : Stepwise search postpone g s x run Q :=
  h.after (.single hs)

/-- A computation ends within one step. -/
theorem stepwise_single {stage : ExpansionStage} (h : Ends x run a run')
    (hs : ExpansionStep search postpone g s ⟨run', stage⟩) (hq : Q a ⟨run', stage⟩) :
    Stepwise search postpone g s x run Q := ⟨⟨run', stage⟩, .single hs, .inl ⟨a, h, hq⟩⟩

theorem stepwise_return {stage : ExpansionStage}
    (hs : ExpansionStep search postpone g s ⟨run, stage⟩) (hq : Q a ⟨run, stage⟩) :
    Stepwise search postpone g s (pure a) run Q :=
  stepwise_single (ends_pure.2 ⟨rfl, rfl⟩) hs hq

theorem stepwise_of_error (h : x.run.run run = (.error e, run'))
    (hf : ExpansionFault search g s e run') : Stepwise search postpone g s x run Q :=
  ⟨s, .refl, .inr ⟨e, run', h, hf⟩⟩

theorem stepwise_bind_of_error (h : x.run.run run = (.error e, run'))
    (hf : ExpansionFault search g s e run') : Stepwise search postpone g s (x >>= f) run Q' :=
  stepwise_of_error (by rw [run_bind, h]) hf

/-- The first part of a computation may end within a step. -/
theorem stepwise_of_bind (hx : Ends x run a run')
    (hf : Stepwise search postpone g s (f a) run' Q') :
    Stepwise search postpone g s (x >>= f) run Q' := by
  obtain ⟨s', hsteps, ⟨b, hb, hq⟩ | ⟨e, u, he, hfault⟩⟩ := hf
  · exact ⟨s', hsteps, .inl ⟨b, ends_bind.2 ⟨a, run', hx, hb⟩, hq⟩⟩
  · refine ⟨s', hsteps, .inr ⟨e, u, ?_, hfault⟩⟩
    rw [run_bind, show x.run.run run = (.ok a, run') from hx]
    exact he

theorem stepwise_bind (hx : Stepwise search postpone g s x run Q)
    (hf : ∀ a s', Q a s' → Stepwise search postpone g s' (f a) s'.run Q') :
    Stepwise search postpone g s (x >>= f) run Q' := by
  obtain ⟨s', hsteps, ⟨a, ha, hq⟩ | ⟨e, u, he, hfault⟩⟩ := hx
  · exact (stepwise_of_bind ha (hf a s' hq)).after hsteps
  · exact (stepwise_bind_of_error he hfault).after hsteps

theorem stepwise_foldlM {I : α → Expansion → Prop} {f : α → β → SearchM α} {bs : List β} {a : α}
    (hI : I a s) (hf : ∀ a b s, I a s → Stepwise search postpone g s (f a b) s.run I) :
    Stepwise search postpone g s (bs.foldlM f a) s.run I := by
  induction bs generalizing a s with
  | nil => exact stepwise_pure hI
  | cons b bs ih =>
    rw [List.foldlM_cons]
    exact stepwise_bind (hf a b s hI) fun _ _ h => ih h

end

theorem run_getTree_bind {α : Type} (f : Tree → SearchM α) (run : Run) :
    (getTree >>= f).run.run run = (f run.tree).run.run run := rfl

/-! ## Running rules -/

/-- Running a rule is calling it and examining the result. -/
theorem runRule_cases (search : Search) (r : Rule) (input : RuleInput) (pre : Snapshot)
    (run : Run) : ∃ run', (run.afterRule r input pre).Agrees run' ∧
      ((∃ out, Ends (search.runRule r input pre) run out run' ∧
          search.ruleOutcome run r input pre = .ok out) ∨
        ∃ e, (search.runRule r input pre).run.run run = (.error e, run') ∧
          search.ruleOutcome run r input pre = .error e) := by
  let called : Run := { run.afterRule r input pre with
    journal := r.record input pre ((r.call input pre).run run.solver).1 :: run.journal }
  have hcall : (search.runRule r input pre).run.run run = (do
      let outcome ← orThrow (search.ruleOutcome run r input pre)
      modifyStats (·.recordRuleRun outcome.isSuccess)
      return outcome : SearchM RuleOutcome).run.run called := rfl
  cases hex : search.ruleOutcome run r input pre with
  | ok out =>
    refine ⟨{ called with stats := called.stats.recordRuleRun out.isSuccess },
      ⟨rfl, rfl, rfl, rfl⟩, .inl ⟨out, ?_, rfl⟩⟩
    rw [Ends, hcall, hex]
    rfl
  | error e =>
    refine ⟨called, ⟨rfl, rfl, rfl, rfl⟩, .inr ⟨e, ?_, rfl⟩⟩
    rw [hcall, hex]
    rfl

/-- Looking a goal up changes nothing, even if the goal is not declared. -/
theorem describeGoal_cases (x : Var) (run : Run) :
    (∃ target hyps, run.solver.state.Describes x target hyps ∧
      Ends (describeGoal x) run (target, hyps) run) ∨
    ∃ e, (describeGoal x).run.run run = (.error e, run) := by
  have hlook : (describeGoal x).run.run run = (do
      let target ← orThrow ((run.solver.context.goalType x).mapError .metavar)
      let hyps ← orThrow ((run.solver.context.goalHyps x).mapError .metavar)
      return (target, hyps) : SearchM (Term × LocalContext)).run.run run := by
    have htype : (onSolverM ((Solver.goalType x).adapt .metavar)).run.run run =
        ((run.solver.context.goalType x).mapError .metavar, run) := rfl
    rw [describeGoal, run_bind, htype, run_bind]
    cases run.solver.context.goalType x <;> rfl
  unfold Ends
  rw [hlook]
  cases htype : run.solver.context.goalType x with
  | error e => exact .inr ⟨_, rfl⟩
  | ok target =>
    cases hhyps : run.solver.context.goalHyps x with
    | error e => exact .inr ⟨_, rfl⟩
    | ok hyps => exact .inl ⟨target, hyps, ⟨htype, hhyps⟩, rfl⟩

/-! ## Normalization -/

theorem tryNormRules_cons (vars : VarSet) (x : Var) (branch : BranchState) (m : IndexMatch)
    (ms : List IndexMatch) : search.tryNormRules vars x branch (m :: ms) = (do
      let pre ← getState
      match ← search.runRule m.rule ⟨x, vars, m.locations, branch.get? m.rule.name⟩ pre with
      | .failed _ => search.tryNormRules vars x branch ms
      | .applied candidates value? =>
        let candidate ← orThrow (m.rule.checkNorm vars candidates)
        onSolver (Solver.restore candidate.post)
        let branch := branch.record m.rule.name value?
        match candidate.goals with
        | [] => return (.proven, branch)
        | next :: _ =>
          if next ≠ x then return (.changed next, branch)
          else search.tryNormRules vars x branch ms) := by
  rw [tryNormRules]
  rfl

/-- Norm rules are tried in a row.  All that changes is the solver and how far normalization has
come. -/
theorem stepwise_tryNormRules {t : Tree} {p : NormProgress} {target : Term} {hyps : LocalContext}
    {ms : List IndexMatch} (hms : ∀ m ∈ ms, m ∈ search.rules.norm target hyps)
    (hp : p.proven = false) (ht : run.tree = t) :
    Stepwise search postpone g ⟨run, .norm p⟩
      (search.tryNormRules (t.goal g).vars p.goal p.branch ms) run fun a s' =>
        s'.stage = .norm ({ p with branch := a.2 }.apply a.1) ∧ s'.run.tree = t := by
  induction ms generalizing p run with
  | nil => exact stepwise_pure ⟨rfl, ht⟩
  | cons m ms ih =>
    have hm := hms m List.mem_cons_self
    have hrest : ∀ k ∈ ms, k ∈ search.rules.norm target hyps :=
      fun k hk => hms k (List.mem_cons_of_mem m hk)
    subst ht
    rw [tryNormRules_cons]
    refine stepwise_of_bind (ends_getState.2 ⟨rfl, rfl⟩) ?_
    obtain ⟨run', hnext, ⟨out, hout, hex⟩ | ⟨e, he, hex⟩⟩ := runRule_cases search m.rule
      (p.ruleInput (run.tree.goal g).vars m) run.solver.state run
    · refine stepwise_of_bind hout ?_
      cases out with
      | failed e =>
        exact stepwise_step (.normFail hp hm rfl hex hnext) (ih hrest hp hnext.tree)
      | applied candidates value? =>
        cases hcheck : m.rule.checkNorm (run.tree.goal g).vars candidates with
        | error e =>
          exact stepwise_bind_of_error (by rw [hcheck]; rfl)
            (.normCheck hp hm rfl hex hcheck hnext)
        | ok c =>
          refine stepwise_of_bind (ends_orThrow.2 ⟨hcheck, rfl⟩) ?_
          refine stepwise_of_bind (ends_onSolver.2 ⟨rfl, rfl⟩) ?_
          refine stepwise_step (.rewrite hp hm rfl hex hcheck (hnext.moveTo c.post)) ?_
          generalize p.branch.record m.rule.name value? = branch
          cases hgoals : c.goals with
          | nil => exact stepwise_pure ⟨rfl, hnext.tree⟩
          | cons y ys =>
            dsimp only
            split
            · next hy => exact stepwise_pure ⟨by rw [NormStep.ofGoals, if_pos hy], hnext.tree⟩
            · next hy =>
              rw [NormStep.ofGoals, if_neg hy]
              exact ih (p := { p with branch }) hrest hp hnext.tree
    · exact stepwise_bind_of_error he (.normRule hp hm rfl hex hnext)

theorem stepwise_simplify {p : NormProgress} (hp : p.proven = false) :
    Stepwise search postpone g ⟨run, .norm p⟩ (search.simplify p.goal) run fun a s' =>
      s'.stage = .norm (p.apply a) ∧ s'.run.tree = run.tree := by
  unfold simplify
  split
  · exact stepwise_pure ⟨rfl, rfl⟩
  · next henabled =>
    have henabled : search.options.enableSimp = true := by simpa using henabled
    refine stepwise_of_bind (ends_getState.2 ⟨rfl, rfl⟩) ?_
    cases hsimp : (search.simplifier p.goal).run.run run.solver with
    | mk result s =>
      refine stepwise_of_bind (ends_onSolver.2 ⟨rfl, rfl⟩) ?_
      rw [show (search.simplifier p.goal).run.run run.solver = _ from hsimp]
      refine stepwise_of_bind (a := ()) (ends_record.2 rfl) ?_
      cases result with
      | error e =>
        exact stepwise_of_error rfl (.simplifier hp henabled hsimp ⟨rfl, rfl, rfl, rfl⟩)
      | ok result =>
        have hstep {run' : Run} (hnext : Run.Agrees
            { run with solver := if NormStep.ofSimp p.goal result = .unchanged
              then { s with state := run.solver.state } else s } run') :
            ExpansionStep search postpone g ⟨run, .norm p⟩
              ⟨run', .norm (p.apply (.ofSimp p.goal result))⟩ := .simplify hp henabled hsimp hnext
        cases result with
        | solved => exact stepwise_return (hstep ⟨rfl, rfl, rfl, rfl⟩) ⟨rfl, rfl⟩
        | simplified y =>
          dsimp only
          split
          · next hy =>
            rw [NormStep.ofSimp, if_pos hy] at hstep
            exact stepwise_return (hstep ⟨rfl, rfl, rfl, rfl⟩) ⟨rfl, rfl⟩
          · next hy =>
            rw [NormStep.ofSimp, if_neg hy] at hstep
            refine stepwise_of_bind (ends_onSolver.2 ⟨rfl, rfl⟩) ?_
            exact stepwise_return (hstep ⟨rfl, rfl, rfl, rfl⟩) ⟨rfl, rfl⟩
        | unchanged =>
          refine stepwise_of_bind (ends_onSolver.2 ⟨rfl, rfl⟩) ?_
          exact stepwise_return (hstep ⟨rfl, rfl, rfl, rfl⟩) ⟨rfl, rfl⟩

theorem stepwise_normPhase {t : Tree} {p : NormProgress} {phase : NormPhase}
    (hs : s.stage = .norm p) (ht : s.run.tree = t) :
    Stepwise search postpone g s (search.normPhase (t.goal g).vars p phase) s.run fun p' s' =>
      s'.stage = .norm p' ∧ s'.run.tree = t := by
  obtain ⟨run, _⟩ := s
  subst hs ht
  unfold normPhase
  split
  · exact stepwise_pure ⟨rfl, rfl⟩
  next hp =>
  have hp : p.proven = false := by simpa using hp
  split
  · exact stepwise_bind (stepwise_simplify hp) fun step s' h => stepwise_pure h
  · rcases describeGoal_cases p.goal run with ⟨target, hyps, -, hlook⟩ | ⟨e, he⟩
    · refine stepwise_of_bind hlook ?_
      refine stepwise_bind (stepwise_tryNormRules (fun m hm => (List.mem_filter.1 hm).1) hp rfl) ?_
      exact fun a s' h => stepwise_pure h
    · exact stepwise_bind_of_error he (.normGoal hp he)

theorem stepwise_normRounds {t : Tree} {n : Nat} {p : NormProgress} (hs : s.stage = .norm p)
    (ht : s.run.tree = t) (hp : p.proven = false) (hn : n = 0 → p.changed = true) :
    Stepwise search postpone g s
      (search.normRounds (t.goal g).vars search.normBudget.2 n p) s.run fun p' s' =>
        s'.stage = .norm p' ∧ s'.run.tree = t ∧ (p'.proven = true ∨ p'.changed = false) := by
  induction n generalizing p s with
  | zero =>
    obtain ⟨run, _⟩ := s
    subst hs
    exact stepwise_of_error rfl (.spent (hn rfl))
  | succ n ih =>
    obtain ⟨run, _⟩ := s
    subst hs
    rw [normRounds]
    refine stepwise_of_bind (a := ()) (ends_modifyStats.2 rfl) ?_
    refine stepwise_step (.round hp ⟨rfl, rfl, rfl, rfl⟩) ?_
    refine stepwise_bind (stepwise_foldlM (s := ⟨_, .norm { p with changed := false }⟩)
      (I := fun p s' => s'.stage = .norm p ∧ s'.run.tree = t) ⟨rfl, ht⟩
      fun p phase s' h => stepwise_normPhase h.1 h.2) fun p' s' h => ?_
    split
    · next hover => exact stepwise_pure ⟨h.1, h.2, by simpa using hover⟩
    · next hgoes =>
      simp only [Bool.or_eq_true, Bool.not_eq_true', not_or, Bool.not_eq_true,
        Bool.not_eq_false] at hgoes
      exact ih h.1 h.2 hgoes.1 fun _ => hgoes.2

/-- A normalization fails that cannot look up its goal. -/
theorem run_normRounds_of_error {vars : VarSet} {spent : Var → SearchError} {n : Nat}
    {p : NormProgress} {e : SearchError} (hp : p.proven = false)
    (hlook : (describeGoal p.goal).run.run run = (.error e, run))
    (hrun : Ends (modifyStats fun s => { s with normRounds := s.normRounds + 1 }) run' () run) :
    (search.normRounds vars spent (n + 1) p).run.run run' = (.error e, run) := by
  have hphase : (search.normPhase vars { p with changed := false } .before).run.run run =
      (.error e, run) := by
    rw [normPhase, if_neg (by simp [hp]), if_neg nofun, run_bind, hlook]
  rw [normRounds, run_bind, show (modifyStats _).run.run run' = (.ok (), run) from hrun]
  dsimp only
  rw [run_bind, List.foldlM_cons, run_bind, hphase]

/-- A normalization fails with the error of its rounds. -/
theorem run_normalizeGoal_of_error {last : Run} {e : SearchError}
    (hnorm : (run.tree.goal g).norm = .notNormal)
    (h : (search.normRounds (run.tree.goal g).vars search.normBudget.2 search.normBudget.1
      ⟨(run.tree.goal g).var, (run.tree.goal g).branch, false, false⟩).run.run
        { run with solver := ((Solver.restore (run.tree.preState g)).run run.solver).2 } =
          (.error e, last)) : (search.normalizeGoal g).run.run run = (.error e, last) := by
  have hrestore : (onSolver (Solver.restore (run.tree.preState g))).run.run run = (.ok (),
      { run with solver := ((Solver.restore (run.tree.preState g)).run run.solver).2 }) := rfl
  have hanew : (search.normalizeAnew g).run.run run = (.error e, last) := by
    rw [normalizeAnew, run_getTree_bind, run_bind, hrestore]
    dsimp only
    rw [run_bind, h]
  rw [normalizeGoal, run_getTree_bind, hnorm]
  exact hanew

theorem stepwise_normalizeGoal :
    Stepwise search postpone g ⟨run, .entered⟩ (search.normalizeGoal g) run fun result s' =>
      s'.stage = .ofNormalized result := by
  unfold normalizeGoal
  refine stepwise_of_bind (ends_getTree.2 ⟨rfl, rfl⟩) ?_
  split
  · next hnorm => exact stepwise_return (.known hnorm) rfl
  · next hnorm => exact stepwise_return (.leave hnorm) rfl
  · next hnorm =>
    unfold normalizeAnew
    refine stepwise_of_bind (ends_getTree.2 ⟨rfl, rfl⟩) ?_
    refine stepwise_of_bind (ends_onSolver.2 ⟨rfl, rfl⟩) ?_
    dsimp only
    cases hn : search.normBudget.1 with
    | zero => exact stepwise_bind_of_error rfl (.noRounds hnorm hn)
    | succ n =>
    -- the first round looks the goal up
    rcases describeGoal_cases (run.tree.goal g).var
      { run.moveTo (run.tree.preState g) with
        stats := { run.stats with normRounds := run.stats.normRounds + 1 } } with
      ⟨target, hyps, hdesc, -⟩ | ⟨e, he⟩
    rotate_left
    · exact stepwise_bind_of_error (run_normRounds_of_error rfl he (ends_modifyStats.2 rfl))
        (.firstGoal hnorm ⟨rfl, rfl, rfl, rfl⟩ he)
    refine stepwise_step (.begin hnorm hdesc) ?_
    refine stepwise_bind (stepwise_normRounds rfl rfl rfl nofun) ?_
    rintro p ⟨run', _⟩ ⟨rfl, ht, hover⟩
    dsimp only at ht hover
    rw [← ht] at hnorm
    refine stepwise_of_bind (ends_getState.2 ⟨rfl, rfl⟩) ?_
    split
    · next hp =>
      refine stepwise_of_bind (a := ()) (ends_modifyGoal.2 rfl) ?_
      refine stepwise_of_bind (a := ()) (ends_modifyStats.2 rfl) ?_
      refine stepwise_of_bind (a := ()) (ends_modifyTree.2 rfl) ?_
      exact stepwise_return (.close hnorm hp ⟨rfl, rfl, rfl, rfl⟩) rfl
    · next hp =>
      refine stepwise_of_bind (a := ()) (ends_modifyGoal.2 rfl) ?_
      exact stepwise_return (.normalize hnorm (by simpa using hp) (hover.resolve_left hp)) rfl

/-! ## Attaching candidates -/

/-- A candidate is attached as if its application were made in one go. -/
theorem attach_eq (g : GoalId) (rule : String) (kind : RuleKind) (c : Candidate)
    (probability : Percent) (value? : Option BranchValue) :
    attach g rule kind c probability value? = (do
      let run ← get
      let (added, tree) ← onSolverM
        (run.tree.addApplication (attachment run g rule kind c probability value?))
      modifyTree fun _ => tree
      pushGoals added.goals) := by
  funext run
  have hattach : attach g rule kind c probability value? run =
      (onSite (SiteM.addApplication (attachment run g rule kind c probability value?)) >>=
        fun added => pushGoals added.goals).run.run run := rfl
  have hget (f : Run → SearchM Unit) : (get >>= f) run = (f run).run.run run := rfl
  rw [hattach, hget, run_bind, run_bind]
  cases hadd : (run.tree.addApplication
      (attachment run g rule kind c probability value?)).run.run run.solver with
  | mk res solver =>
    cases res with
    | ok a =>
      rw [run_onSite (SiteM.ends_addApplication hadd), run_onSolverM hadd]
      rfl
    | error e =>
      rw [run_onSite (SiteM.run_addApplication_error hadd), run_onSolverM hadd]

/-- A candidate is attached if the tree takes it. -/
theorem attach_cases (run : Run) (g : GoalId) (rule : String) (kind : RuleKind) (c : Candidate)
    (probability : Percent) (value? : Option BranchValue) :
    (∃ added tree solver,
      Ends (run.tree.addApplication (attachment run g rule kind c probability value?)) run.solver
        (added, tree) solver ∧
      Ends (attach g rule kind c probability value?) run ()
        { run with solver, tree, queue := queueAdded run.queue tree added }) ∨
    ∃ e solver,
      (run.tree.addApplication (attachment run g rule kind c probability value?)).run.run
        run.solver = (.error e, solver) ∧
      (attach g rule kind c probability value?).run.run run = (.error e, { run with solver }) := by
  rw [attach_eq]
  cases hadd : (run.tree.addApplication
      (attachment run g rule kind c probability value?)).run.run run.solver with
  | mk res solver =>
    cases res with
    | ok a =>
      obtain ⟨added, tree⟩ := a
      refine .inl ⟨added, tree, solver, hadd, ?_⟩
      simp only [ends_bind, ends_get, ends_onSolverM, ends_modifyTree, ends_pushGoals]
      exact ⟨run, run, ⟨rfl, rfl⟩, _, _, ⟨solver, hadd, rfl⟩, (), _, rfl, rfl⟩
    | error e =>
      refine .inr ⟨e, solver, rfl, ?_⟩
      have hget (f : Run → SearchM Unit) : (get >>= f).run.run run = (f run).run.run run := rfl
      rw [hget, run_bind, run_onSolverM hadd]

/-! ## Safe rules -/

theorem stepwise_applySafe {m : IndexMatch} {c : Candidate} {value? : Option BranchValue} :
    Stepwise search postpone g ⟨run, .eager m c value?⟩ (applySafe g m.rule c value?) run
      fun _ s' => s'.stage = .done .committed := by
  unfold applySafe
  refine stepwise_of_bind (ends_getTree.2 ⟨rfl, rfl⟩) ?_
  rcases attach_cases run g m.rule.name m.rule.eagerKind c (run.tree.goal g).probability value? with
    ⟨added, tree, solver, hadd, hattach⟩ | ⟨e, solver, hadd, hattach⟩
  · exact stepwise_of_bind hattach
      (stepwise_single (a := ()) (ends_modifyGoal.2 rfl) (.commit hadd rfl) rfl)
  · exact stepwise_bind_of_error hattach (.commit hadd)

theorem stepwise_trySafeRules {x : Var} {state : Snapshot} {ms : List IndexMatch} :
    Stepwise search postpone g ⟨run, .safe x state ms⟩
      (search.trySafeRules g x state postpone ms) run fun applied s' =>
        s'.stage = if applied then .done .committed else .safe x state [] := by
  induction ms generalizing run with
  | nil => exact stepwise_pure rfl
  | cons m ms ih =>
    rw [trySafeRules, runOnGoal, bind_assoc]
    refine stepwise_of_bind (ends_getTree.2 ⟨rfl, rfl⟩) ?_
    obtain ⟨run', hnext, ⟨out, hout, hex⟩ | ⟨e, he, hex⟩⟩ := runRule_cases search m.rule
      ((run.tree.goal g).ruleInput x m.rule m.locations) state run
    · refine stepwise_of_bind hout ?_
      cases out with
      | failed e =>
        refine stepwise_of_bind (a := ()) (ends_modifyGoal.2 rfl) ?_
        exact stepwise_step (.fail rfl hex (hnext.modifyGoal g _)) ih
      | applied candidates value? =>
        refine stepwise_of_bind (ends_getTree.2 ⟨rfl, rfl⟩) ?_
        rw [hnext.tree]
        split
        · next c heager =>
          refine stepwise_step (.choose rfl hex heager hnext) ?_
          exact stepwise_bind stepwise_applySafe fun _ s' hs => stepwise_pure hs
        · next hlate =>
          split
          · next hset =>
            refine stepwise_of_bind (a := ()) (ends_bind.2 ⟨(), _, ends_modifyStats.2 rfl,
              ends_modifyGoal.2 rfl⟩) ?_
            have hagrees := hnext.modifyGoal g fun goal =>
              { goal with queue := goal.queue ++ [.postponed m] }
            exact stepwise_step (.postpone hset rfl hex hlate
              ⟨hagrees.solver, hagrees.tree, hagrees.queue, hagrees.iteration⟩) ih
          · next hset =>
            exact stepwise_step (.skip (by simpa using hset) rfl hex hlate hnext) ih
    · exact stepwise_bind_of_error he (.safeRule rfl hex hnext)

theorem stepwise_runSafeRules {x : Var} {state : Snapshot}
    (hfirst : postpone = true → (run.tree.goal g).selected = false) :
    Stepwise search postpone g ⟨run, .normal x state⟩
      (search.runSafeRules g x state postpone) run fun applied s' =>
        s'.stage = if applied then .done .committed else .safe x state [] := by
  unfold runSafeRules
  refine stepwise_of_bind (ends_onSolver.2 ⟨rfl, rfl⟩) ?_
  rcases describeGoal_cases x (run.moveTo state) with ⟨target, hyps, hdesc, hlook⟩ | ⟨e, he⟩
  · refine stepwise_of_bind hlook ?_
    exact stepwise_step (.pick hfirst hdesc) stepwise_trySafeRules
  · exact stepwise_bind_of_error he (.goal (.inl rfl) rfl he)

/-! ## Tentative rules -/

theorem stepwise_selectTentative {x : Var} {state : Snapshot} :
    Stepwise search true g ⟨run, .safe x state []⟩ (search.selectTentative g x state) run
      fun _ s' => s'.stage = .queued x state (s'.run.tree.goal g).queue := by
  unfold selectTentative
  refine stepwise_of_bind (ends_onSolver.2 ⟨rfl, rfl⟩) ?_
  rcases describeGoal_cases x (run.moveTo state) with ⟨target, hyps, hdesc, hlook⟩ | ⟨e, he⟩
  · refine stepwise_of_bind hlook ?_
    exact stepwise_single (a := ()) (ends_modifyGoal.2 rfl) (.select rfl hdesc rfl) rfl
  · exact stepwise_bind_of_error he (.goal (.inr rfl) rfl he)

theorem stepwise_attachAll {entry : QueuedRule} {probability : Percent}
    {value? : Option BranchValue} {candidates : List Candidate} :
    Stepwise search postpone g ⟨run, .offered entry probability value? candidates⟩
      (attachAll g entry probability value? candidates) run fun _ s' => s'.stage = .tried := by
  induction candidates generalizing run with
  | nil => exact stepwise_return (.finish (.inl rfl)) rfl
  | cons c rest ih =>
    rw [attachAll]
    refine stepwise_of_bind (ends_getTree.2 ⟨rfl, rfl⟩) ?_
    split
    · next hdecided => exact stepwise_return (.finish (.inr (by simpa using hdecided))) rfl
    · next hunknown =>
      have hunknown : (run.tree.goal g).state = .unknown := by simpa using hunknown
      rcases attach_cases run g entry.rule.name entry.kind c
        (probability * c.probability.getD entry.probability) value? with
        ⟨added, tree, solver, hadd, hattach⟩ | ⟨e, solver, hadd, hattach⟩
      · exact stepwise_of_bind hattach (stepwise_step (.attach hunknown hadd rfl) ih)
      · exact stepwise_bind_of_error hattach (.attach hunknown hadd)

theorem stepwise_tryQueued {x : Var} {state : Snapshot} {queue : List QueuedRule} :
    Stepwise search postpone g ⟨run, .queued x state queue⟩ (search.tryQueued g x state queue) run
      fun _ s' => s'.stage = .tried := by
  induction queue generalizing run with
  | nil => exact stepwise_return .exhaust rfl
  | cons entry rest ih =>
    rw [tryQueued]
    refine stepwise_of_bind (a := ()) (ends_modifyGoal.2 rfl) ?_
    refine stepwise_step .take ?_
    generalize ({ run with tree := run.tree.modifyGoal g _ } : Run) = run
    rw [runOnGoal, bind_assoc]
    refine stepwise_of_bind (ends_getTree.2 ⟨rfl, rfl⟩) ?_
    obtain ⟨run', hnext, ⟨out, hout, hex⟩ | ⟨e, he, hex⟩⟩ := runRule_cases search entry.rule
      ((run.tree.goal g).ruleInput x entry.rule entry.locations) state run
    · refine stepwise_of_bind hout ?_
      cases out with
      | failed e =>
        refine stepwise_of_bind (a := ()) (ends_modifyGoal.2 rfl) ?_
        exact stepwise_step (.reject rfl hex (hnext.modifyGoal g _)) ih
      | applied candidates value? =>
        refine stepwise_of_bind (ends_getTree.2 ⟨rfl, rfl⟩) ?_
        rw [hnext.tree]
        exact stepwise_step (.offer rfl hex hnext) stepwise_attachAll
    · exact stepwise_bind_of_error he (.queuedRule rfl hex hnext)

/-! ## Expansion -/

theorem stepwise_expandTentative {x : Var} {state : Snapshot}
    (hs : s.stage = .queued x state (s.run.tree.goal g).queue) :
    Stepwise search postpone g s (search.expandTentative g x state) s.run fun _ s' =>
      s'.stage.isDone = true := by
  obtain ⟨run, _⟩ := s
  dsimp only at hs
  subst hs
  unfold expandTentative
  refine stepwise_of_bind (ends_getTree.2 ⟨rfl, rfl⟩) ?_
  refine stepwise_bind stepwise_tryQueued ?_
  rintro _ ⟨run', _⟩ rfl
  refine stepwise_of_bind (ends_getTree.2 ⟨rfl, rfl⟩) ?_
  dsimp only
  cases hcheck : run'.tree.checkExhausted g with
  | mk unprovable tree =>
    refine stepwise_of_bind (a := ()) (ends_modifyTree.2 rfl) ?_
    split
    · next hmore =>
      simp only [Bool.and_eq_true, Bool.not_eq_true'] at hmore
      exact stepwise_single (a := ()) (ends_pushGoal.2 rfl)
        (.requeue (by rw [hcheck]) hmore.1.2 hmore.2) rfl
    · next hover =>
      exact stepwise_return (.retire (by rw [hcheck]) (by simpa [hcheck] using hover)) rfl

theorem stepwise_expandNormal {x : Var} {state : Snapshot} :
    Stepwise search true g ⟨run, .normal x state⟩ (search.expandNormal g x state) run
      fun _ s' => s'.stage.isDone = true := by
  unfold expandNormal
  refine stepwise_of_bind (ends_getTree.2 ⟨rfl, rfl⟩) ?_
  split
  · next hsel => exact stepwise_step (.resume hsel) (stepwise_expandTentative rfl)
  · next hsel =>
    have hsel : (run.tree.goal g).selected = false := by simpa using hsel
    refine stepwise_bind (stepwise_runSafeRules fun _ => hsel) fun applied s' hs => ?_
    cases applied with
    | true => exact stepwise_pure (ExpansionStage.isDone_iff.2 ⟨_, hs⟩)
    | false =>
      obtain ⟨run', _⟩ := s'
      subst hs
      exact stepwise_bind stepwise_selectTentative fun _ s' hs => stepwise_expandTentative hs

/-- Expanding a goal takes the steps of an expansion. -/
theorem stepwise_expandGoal :
    Stepwise search true g ⟨run, .waiting⟩ (search.expandGoal g) run fun _ s' =>
      s'.stage.isDone = true := by
  unfold expandGoal
  refine stepwise_of_bind (ends_get.2 ⟨rfl, rfl⟩) ?_
  refine stepwise_of_bind (a := ()) (ends_modifyGoal.2 rfl) ?_
  split
  · next hdeep =>
    refine stepwise_of_bind (a := ()) (ends_modifyTree.2 rfl) ?_
    exact stepwise_single (a := ()) (ends_modifyStats.2 rfl)
      (.giveUp hdeep ⟨rfl, rfl, rfl, rfl⟩) rfl
  · next hdeep =>
    refine stepwise_step (.enter (by simpa using hdeep)) ?_
    refine stepwise_bind stepwise_normalizeGoal ?_
    rintro result ⟨run', _⟩ rfl
    cases result with
    | proven => exact stepwise_pure rfl
    | normal x state => exact stepwise_expandNormal

/-! ## The safe prefix -/

/-- What expanding the safe prefix does at the goal `g`.  It returns how many applications are added
and which goals are to be seen next, unless no more applications may be added. -/
def prefixStep (search : Search) (limit applied : Nat) (g : GoalId) (rest : List GoalId) :
    SearchM (Option (Nat × List GoalId)) := do
  let t ← getTree
  let goal := t.goal g
  if goal.forced || goal.state.isProven then
    return some (applied, rest)
  else
    match t.safeApplication? g with
    | some r => return some (applied, t.subgoalIds r ++ rest)
    | none =>
      if goal.wasExpanded then
        return some (applied, rest)
      else if limit ≤ applied then
        return none
      else
        match ← search.normalizeGoal g with
        | .proven => return some (applied, rest)
        | .normal x state =>
          if ← search.runSafeRules g x state false then
            modifyStats fun s =>
              { s with safePrefixRuleApplications := s.safePrefixRuleApplications + 1 }
            let t ← getTree
            let new := match (t.goal g).applications.getLast? with
              | some r => t.subgoalIds r
              | none => []
            return some (applied + 1, new ++ rest)
          else
            return some (applied, rest)

/-- The safe prefix is expanded step by step. -/
theorem expandPrefix_cons (limit fuel applied : Nat) (g : GoalId) (rest : List GoalId) :
    search.expandPrefix limit (fuel + 1) applied (g :: rest) = (do
      match ← search.prefixStep limit applied g rest with
      | none => return
      | some (applied, gs) => search.expandPrefix limit fuel applied gs) := by
  rw [expandPrefix, prefixStep, bind_assoc]
  refine bind_congr fun t => ?_
  dsimp only
  split
  · rfl
  cases t.safeApplication? g with
  | some r => rfl
  | none =>
    dsimp only
    split
    · rfl
    split
    · rfl
    rw [bind_assoc]
    refine bind_congr fun result => ?_
    cases result with
    | proven => rfl
    | normal x state =>
      rw [bind_assoc]
      refine bind_congr fun found => ?_
      cases found <;> rfl

/-- At a goal that no rule was tried on, the expansion of the prefix fails if normalization does. -/
theorem run_prefixStep_of_error {limit applied : Nat} {rest : List GoalId} {last : Run}
    {e : SearchError} (hforced : (run.tree.goal g).forced = false)
    (hproven : (run.tree.goal g).state.isProven = false)
    (hsafe : run.tree.safeApplication? g = none)
    (hfresh : (run.tree.goal g).wasExpanded = false) (hlimit : applied < limit)
    (h : (search.normalizeGoal g).run.run run = (.error e, last)) :
    (search.prefixStep limit applied g rest).run.run run = (.error e, last) := by
  rw [prefixStep, run_getTree_bind]
  dsimp only
  rw [if_neg (by simp [hforced, hproven]), hsafe]
  dsimp only
  rw [if_neg (by simp [hfresh]), if_neg (Nat.not_le.2 hlimit), run_bind, h]

/-- What a step of expanding the safe prefix comes to at the goal `g`: its result and the run that
it leaves. -/
inductive PrefixOutcome (search : Search) (limit applied : Nat) (g : GoalId) (rest : List GoalId)
    (run : Run) : Except SearchError (Option (Nat × List GoalId)) → Run → Prop
  /-- The goal needs no safe rule, or rules were tried on it before. -/
  | skip : PrefixOutcome search limit applied g rest run (.ok (some (applied, rest))) run
  | descend {r : ApplicationId} (safe : run.tree.safeApplication? g = some r) :
      PrefixOutcome search limit applied g rest run
        (.ok (some (applied, run.tree.subgoalIds r ++ rest))) run
  /-- No more applications may be added. -/
  | full : PrefixOutcome search limit applied g rest run (.ok none) run
  /-- Normalization proves the goal, or no safe rule applies. -/
  | leave {s : Expansion} (fresh : (run.tree.goal g).wasExpanded = false)
      (steps : ExpansionSteps search false g ⟨run, .entered⟩ s)
      (ended : s.stage = .done .closed ∨ ∃ x state, s.stage = .safe x state []) :
      PrefixOutcome search limit applied g rest run (.ok (some (applied, rest))) s.run
  /-- A safe rule is applied, and the goals of the last application are seen next. -/
  | grow {s : Expansion} {run' : Run} {new : List GoalId}
      (fresh : (run.tree.goal g).wasExpanded = false) (allowed : applied < limit)
      (steps : ExpansionSteps search false g ⟨run, .entered⟩ s)
      (ended : s.stage = .done .committed) (next : s.run.Agrees run')
      (added : new = (run'.tree.goal g).applications.getLast?.elim [] run'.tree.subgoalIds) :
      PrefixOutcome search limit applied g rest run (.ok (some (applied + 1, new ++ rest))) run'
  | fail {s : Expansion} {e : SearchError} {run' : Run}
      (fresh : (run.tree.goal g).wasExpanded = false)
      (steps : ExpansionSteps search false g ⟨run, .entered⟩ s)
      (fault : ExpansionFault search g s e run') :
      PrefixOutcome search limit applied g rest run (.error e) run'

theorem prefixStep_outcome {limit applied : Nat} {rest : List GoalId}
    {result : Except SearchError (Option (Nat × List GoalId))}
    (h : (search.prefixStep limit applied g rest).run.run run = (result, run')) :
    PrefixOutcome search limit applied g rest run result run' := by
  suffices houtcome : PrefixOutcome search limit applied g rest run
      ((search.prefixStep limit applied g rest).run.run run).1
      ((search.prefixStep limit applied g rest).run.run run).2 by
    rwa [h] at houtcome
  rw [prefixStep, run_getTree_bind]
  dsimp only
  split
  · exact .skip
  split
  · next r hr => exact .descend hr
  split
  · exact .skip
  next hexpanded =>
  split
  · exact .full
  next hlimit =>
  have hfresh : (run.tree.goal g).wasExpanded = false := by simpa using hexpanded
  have hlimit := Nat.not_le.1 hlimit
  have hnormalize : Stepwise search false g ⟨run, .entered⟩ (search.normalizeGoal g) run
      fun result s' => s'.stage = .ofNormalized result := stepwise_normalizeGoal
  obtain ⟨⟨run₁, _⟩, hs₁, ⟨result, hends, rfl⟩ | ⟨e, run', he, hfault⟩⟩ := hnormalize
  rotate_left
  · rw [run_bind, he]
    exact .fail hfresh hs₁ hfault
  rw [run_bind, show (search.normalizeGoal g).run.run run = (.ok result, run₁) from hends]
  cases result with
  | proven => exact .leave hfresh hs₁ (.inl rfl)
  | normal x state =>
    dsimp only
    have hrules : Stepwise search false g ⟨run₁, .normal x state⟩
        (search.runSafeRules g x state false) run₁ fun applied s' =>
          s'.stage = if applied then .done .committed else .safe x state [] :=
      stepwise_runSafeRules nofun
    obtain ⟨⟨run₂, _⟩, hs₂, ⟨found, hends, rfl⟩ | ⟨e, run', he, hfault⟩⟩ := hrules
    rotate_left
    · rw [run_bind, he]
      exact .fail hfresh (hs₁.trans hs₂) hfault
    rw [run_bind, show (search.runSafeRules g x state false).run.run run₁ = (.ok found, run₂) from
      hends]
    cases found with
    | false => exact .leave hfresh (hs₁.trans hs₂) (.inr ⟨x, state, rfl⟩)
    | true =>
      refine .grow hfresh hlimit (hs₁.trans hs₂) rfl ⟨rfl, rfl, rfl, rfl⟩ ?_
      change _ = (run₂.tree.goal g).applications.getLast?.elim [] run₂.tree.subgoalIds
      cases (run₂.tree.goal g).applications.getLast? <;> rfl

end Search

end ProofSearch
