import ProofSearch.Proofs.Metavar.Operations
import ProofSearch.Proofs.Search.SearchSteps

/-!
# The steps of a search, summed up

What becomes of marks, counters and queues is left open here, and so is what happens between two
runs of rules.  The steps that are left lead through every search, whether it returns a result or
ends with an error.

1. `Scene`: a run with the work in hand, which is the normalization of a goal or the candidates that
   a rule has made.
2. `Step`: what can happen next.  Only `Step.normal` and `Step.attach` change what a tree records.
3. `Step.norm_eq`, `Steps.stocked`: normalizations stay, and the queues name goals of the tree and
   rules of the search.
4. `SearchSteps.steps`: searches are made of these steps, if there is no simplifier.
5. `exists_steps_runAll`, `runAll_failed`: the last tree of a search, and the tree that its safe
   prefix is extracted from, are reached by steps.
-/

namespace ProofSearch

open Solver

/-! ## Scenes -/

/-- What a search is at work on. -/
inductive Focus where
  | idle
  /-- The goal `g` is being normalized.  What is left of it is the goal `x`, or nothing once it is
  closed. -/
  | norm (g : GoalId) (x : Option Var)
  /-- A rule was run on the normalized goal `g`, and these candidates are not added yet. -/
  | offers (g : GoalId) (candidates : List Candidate)

/-- A search in progress. -/
structure Scene where
  run : Run
  focus : Focus

/-- How a goal is recorded whose normalization has left the given goal. -/
def NormState.ofRest (post : Snapshot) : Option Var → NormState
  | some x => .normal x post
  | none => .proven post

/-- What normalization has left so far. -/
def NormProgress.rest (p : NormProgress) : Option Var := if p.proven then none else some p.goal

/-- What is left of the expansion of the goal `g`. -/
def Focus.ofStage (g : GoalId) : ExpansionStage → Focus
  | .norm p => .norm g p.rest
  | .eager _ c _ => .offers g [c]
  | .offered _ _ _ candidates => .offers g candidates
  | _ => .idle

/-- A moment of a search, summed up. -/
def Scene.ofMoment (m : Moment) : Scene :=
  ⟨m.run, match m.activity with
    | .idle => .idle
    | .expanding _ g stage => .ofStage g stage⟩

namespace Search

open SearchM

/-- One step of a search. -/
inductive Step (search : Search) : Scene → Scene → Prop
  /-- Marks, counters and queues change, and the work in hand is finished or dropped. -/
  | note {run run' : Run} {focus : Focus} (tree : run.tree.Noted run'.tree)
      (last : run.solver.lastId ≤ run'.solver.lastId)
      (goals : ∀ e ∈ run'.queue.pending, e ∈ run.queue.pending ∨ run.tree.HasGoal e.goal)
      (rules : ∀ g, ∀ e ∈ (run'.tree.goal g).queue, e ∈ (run.tree.goal g).queue ∨
        search.Queues e) :
      Step search ⟨run, focus⟩ ⟨run', .idle⟩
  /-- A rule fails or does not apply, or goals are queued, while work is in hand. -/
  | wait {run run' : Run} {focus : Focus} (tree : run'.tree = run.tree)
      (state : run'.solver.state = run.solver.state)
      (last : run.solver.lastId ≤ run'.solver.lastId)
      (goals : ∀ e ∈ run'.queue.pending, e ∈ run.queue.pending ∨ run.tree.HasGoal e.goal) :
      Step search ⟨run, focus⟩ ⟨run', focus⟩
  /-- The normalization of a goal begins in the state in which the goal was made. -/
  | begin {run run' : Run} {focus : Focus} {g : GoalId} (has : run.tree.HasGoal g)
      (norm : (run.tree.goal g).norm = .notNormal) (tree : run'.tree = run.tree)
      (queue : run'.queue = run.queue) (state : run'.solver.state = run.tree.preState g)
      (last : run'.solver.lastId = run.solver.lastId) :
      Step search ⟨run, focus⟩ ⟨run', .norm g (some (run.tree.goal g).var)⟩
  /-- A norm rule replaces or closes what is left of the goal. -/
  | rewrite {run run' : Run} {g : GoalId} {r : Rule} {input : RuleInput} {effects : Bool}
      {candidates : List Candidate} {value? : Option BranchValue} {c : Candidate}
      (knows : search.Knows r)
      (applied : r.examine run.solver.state effects
        ((r.call input run.solver.state).run run.solver).1 = .ok (.applied candidates value?))
      (check : r.checkNorm (run.tree.goal g).vars candidates = .ok c)
      (tree : run'.tree = run.tree) (queue : run'.queue = run.queue)
      (solver : run'.solver =
        { ((r.call input run.solver.state).run run.solver).2 with state := c.post }) :
      Step search ⟨run, .norm g (some input.goal)⟩ ⟨run', .norm g c.goals.head?⟩
  /-- The result of a normalization is recorded. -/
  | normal {run run' : Run} {g : GoalId} {rest : Option Var} {branch : BranchState}
      (norm : (run.tree.goal g).norm = .notNormal)
      (tree : run'.tree = run.tree.recordNorm g branch (.ofRest run.solver.state rest))
      (queue : run'.queue = run.queue) (solver : run'.solver = run.solver) :
      Step search ⟨run, .norm g rest⟩ ⟨run', .idle⟩
  /-- A rule makes candidates for a normalized goal. -/
  | offer {run run' : Run} {focus : Focus} {g : GoalId} {r : Rule} {input : RuleInput}
      {state : Snapshot} {effects : Bool} {candidates : List Candidate}
      {value? : Option BranchValue} (norm : (run.tree.goal g).norm = .normal input.goal state)
      (knows : search.Knows r)
      (applied : r.examine state effects ((r.call input state).run run.solver).1 =
        .ok (.applied candidates value?))
      (tree : run'.tree = run.tree) (queue : run'.queue = run.queue)
      (solver : run'.solver = ((r.call input state).run run.solver).2) :
      Step search ⟨run, focus⟩ ⟨run', .offers g candidates⟩
  /-- The next candidate becomes an application.  An eager one assigns no variable that the goal
  depends on. -/
  | attach {run : Run} {g : GoalId} {x : Var} {state : Snapshot} {c : Candidate}
      {rest : List Candidate} {rule : String} {kind : RuleKind} {probability : Percent}
      {value? : Option BranchValue} {added : AddedApplication} {tree : Tree} {solver : Solver}
      (norm : (run.tree.goal g).norm = .normal x state)
      (eager : kind.isEager = true → c.assigned.disjoint (run.tree.goal g).vars = true)
      (ends : Ends (run.tree.addApplication (attachment run g rule kind c probability value?))
        run.solver (added, tree) solver) :
      Step search ⟨run, .offers g (c :: rest)⟩ ⟨{ run with tree, solver }, .offers g rest⟩

/-- Several steps. -/
abbrev Steps (search : Search) : Scene → Scene → Prop := Relation.ReflTransGen (Step search)

/-! ## What every step keeps -/

variable {search : Search} {sc sc' : Scene} {g : GoalId} {x : Var} {state : Snapshot}

namespace Step

/-- Nodes are settled. -/
theorem settle {run run' : Run} {focus : Focus} (tree : run.tree.Settling run'.tree)
    (last : run.solver.lastId ≤ run'.solver.lastId)
    (goals : ∀ e ∈ run'.queue.pending, e ∈ run.queue.pending ∨ run.tree.HasGoal e.goal) :
    Step search ⟨run, focus⟩ ⟨run', .idle⟩ :=
  .note tree.noted last goals fun g e he => .inl (by rwa [(tree.goal g).eq] at he)

/-- A goal is normalized once. -/
theorem norm_eq (h : Step search sc sc') (hx : (sc.run.tree.goal g).norm = .normal x state) :
    (sc'.run.tree.goal g).norm = .normal x state := by
  cases h with
  | note tree => exact (tree.norm g).trans hx
  | wait tree | begin _ _ tree | rewrite _ _ _ tree | offer _ _ _ tree => exact tree ▸ hx
  | @normal run run' k rest branch norm tree =>
    have hne : g ≠ k := by
      rintro rfl
      exact nomatch norm.symm.trans hx
    rw [tree, Tree.goal_recordNorm_of_ne hne]
    exact hx
  | attach norm _ ends =>
    exact ((Tree.addApplication_goal ends (Tree.hasGoal_of_normal norm)).1 g
      (Tree.hasGoal_of_normal hx)).2.trans hx

theorem stocked (h : Step search sc sc') (hs : search.Stocked sc.run) :
    search.Stocked sc'.run := by
  have hpending {run run' : Run} (hs : search.Stocked run)
      (hq : ∀ e ∈ run'.queue.pending, e ∈ run.queue.pending ∨ run.tree.HasGoal e.goal)
      (e : QueueEntry) (he : e ∈ run'.queue.pending) : run.tree.HasGoal e.goal :=
    (hq e he).elim (hs.goals e) id
  cases h with
  | note tree _ goals rules =>
    exact ⟨tree.linked hs.linked, fun e he => tree.hasGoal.2 (hpending hs goals e he),
      fun k e he => (rules k e he).elim (hs.rules k e) id⟩
  | wait tree _ _ goals =>
    exact ⟨tree ▸ hs.linked, fun e he => tree ▸ hpending hs goals e he, fun k => tree ▸ hs.rules k⟩
  | begin _ _ tree queue | rewrite _ _ _ tree queue | offer _ _ _ tree queue =>
    exact ⟨tree ▸ hs.linked, fun e he => tree ▸ hs.goals e (queue ▸ he),
      fun k => tree ▸ hs.rules k⟩
  | @normal run run' k rest branch _ tree queue =>
    have hlinks : run.tree.SameLinks run'.tree := tree ▸ Tree.sameLinks_recordNorm ..
    refine ⟨hlinks.linked hs.linked, fun e he => hlinks.hasGoal.2 (hs.goals e (queue ▸ he)),
      fun j e he => hs.rules j e ?_⟩
    obtain ⟨_, _, hj⟩ := run.tree.exists_goal_recordNorm k j branch (.ofRest run.solver.state rest)
    rwa [tree, hj] at he
  | attach norm _ ends =>
    have hp := Tree.hasGoal_of_normal norm
    obtain ⟨hold, hqueue⟩ := Tree.addApplication_goal ends hp
    exact ⟨hs.linked.addApplication ends hp, fun e he => (hold _ (hs.goals e he)).1,
      fun k e he => hs.rules k e (hqueue k e he)⟩

end Step

namespace Steps

theorem stocked (h : Steps search sc sc') (hs : search.Stocked sc.run) :
    search.Stocked sc'.run := by
  induction h with
  | refl => exact hs
  | tail _ hstep ih => exact hstep.stocked ih

end Steps

/-! ## Searches are made of steps -/

/-- There is no simplifier, and no rule takes the number of the latest variable back. -/
structure Regular (search : Search) : Prop where
  simplifier : search.simplifier = .none
  ages : ∀ r, search.Knows r → ∀ input, Ages (r.procedure input).run

theorem ages_call {r : Rule} {input : RuleInput} (h : Ages (r.procedure input).run)
    (pre : Snapshot) : Ages (r.call input pre) := fun s => h { s with state := pre }

theorem ages_copyGoals (t : Tree) (gs : List GoalId) : Ages (t.copyGoals gs).run := by
  induction gs with
  | nil => exact ages_run_pure _
  | cons g gs ih =>
    rw [Tree.copyGoals]
    exact ages_run_bind (ages_goalType _) fun _ => ages_run_bind (ages_goalHyps _) fun _ =>
      ages_run_bind (ages_run_lift (ages_mkGoal _ _)) fun _ =>
      ages_run_bind (ages_updateContext _) fun _ => ages_run_bind ih fun _ => ages_run_pure _

theorem ages_addApplication (t : Tree) (new : NewApplication) :
    Ages (t.addApplication new).run := by
  refine ages_run_bind ?_ fun _ => ages_run_bind (fun _ => le_rfl) fun _ => ages_run_pure _
  exact ages_run_ite (ages_run_pure _) (ages_run_bind (ages_run_lift (ages_restore _)) fun _ =>
    ages_run_bind (ages_run_adapt _ (ages_copyGoals t _)) fun _ =>
    ages_run_bind ages_run_get fun _ => ages_run_pure _)

section

variable {postpone : Bool} {s s' : Expansion} {m m' : Moment} {run : Run}

theorem Regular.simplify_eq (h : search.Regular) {result : SimpResult} {u u' : Solver}
    (hends : Ends (search.simplifier x) u result u') : result = .unchanged ∧ u' = u := by
  rw [h.simplifier] at hends
  exact ends_pure.1 hends

theorem ExpansionStep.lastId_le (h : ExpansionStep search postpone g s s') (hreg : search.Regular)
    (hk : search.KnowsStage s.stage) : s.run.solver.lastId ≤ s'.run.solver.lastId := by
  have hcall {r : Rule} (hr : search.Knows r) (input : RuleInput) (pre : Snapshot) (u : Solver) :
      u.lastId ≤ ((r.call input pre).run u).2.lastId := ages_call (hreg.ages r hr input) pre u
  have hadd {t : Tree} {new : NewApplication} {added : AddedApplication} {t' : Tree}
      {u u' : Solver} (ends : Ends (t.addApplication new) u (added, t') u') :
      u.lastId ≤ u'.lastId := by
    have hage := ages_addApplication t new u
    rwa [show (t.addApplication new).run.run u = _ from ends] at hage
  cases h with
  | enter | known | leave | begin | normalize | pick | resume | take | finish | exhaust | retire
  | requeue => exact le_rfl
  | giveUp _ next | round _ next | close _ _ next => rw [next.solver]
  | select _ _ next => rw [next]
  | @normFail run run' p target hyps m _ _ _ mem _ _ next
  | @rewrite run run' p target hyps m _ _ _ _ _ mem _ _ _ next =>
    rw [next.solver]
    exact hcall ⟨target, hyps, m, rfl, .inl mem⟩ ..
  | simplify _ _ ends next =>
    obtain ⟨rfl, rfl⟩ := hreg.simplify_eq ends
    rw [next.solver]
    exact le_rfl
  | fail _ _ next | postpone _ _ _ _ next | skip _ _ _ _ next | choose _ _ _ next =>
    rw [next.solver]
    exact hcall (hk _ List.mem_cons_self) ..
  | reject _ _ next | offer _ _ next =>
    rw [next.solver]
    exact hcall hk.1.1 ..
  | commit ends next | attach _ ends next =>
    rw [next]
    exact hadd ends

theorem rest_unproven {p : NormProgress} (h : p.proven = false) : p.rest = some p.goal := by
  rw [NormProgress.rest, h]
  rfl

/-- A norm rule leaves the first goal of its candidate. -/
theorem rest_apply_ofGoals {p : NormProgress} (h : p.proven = false) (hx : p.goal = x)
    (goals : List Var) : (p.apply (.ofGoals x goals)).rest = goals.head? := by
  cases goals with
  | nil => rfl
  | cons y ys =>
    rw [NormStep.ofGoals]
    split
    · exact rest_unproven h
    · next hxy =>
      obtain rfl : y = x := by simpa using hxy
      exact hx ▸ rest_unproven h

/-- The steps of an expansion, if there is no simplifier. -/
theorem ExpansionStep.steps (h : ExpansionStep search postpone g s s') (hreg : search.Regular)
    (hc : Consistent g s) (hk : search.KnowsStage s.stage) :
    Steps search ⟨s.run, .ofStage g s.stage⟩ ⟨s'.run, .ofStage g s'.stage⟩ := by
  have hlast := h.lastId_le hreg hk
  have hpending (ht : s.run.tree.Noted s'.run.tree) (e : QueueEntry)
      (he : e ∈ s'.run.queue.pending) : e ∈ s.run.queue.pending ∨ s.run.tree.HasGoal e.goal :=
    (h.pending_cases hc.has he).imp_right ht.hasGoal.1
  have hnote (ht : s.run.tree.Noted s'.run.tree) (focus : Focus) :
      Steps search ⟨s.run, focus⟩ ⟨s'.run, .idle⟩ :=
    .single (.note ht hlast (hpending ht) fun _ _ he => h.queue_cases hc.has hk he)
  have hwait (ht : s'.run.tree = s.run.tree) (hs : s'.run.solver.state = s.run.solver.state)
      (focus : Focus) : Steps search ⟨s.run, focus⟩ ⟨s'.run, focus⟩ :=
    .single (.wait ht hs hlast (hpending (ht ▸ .refl _)))
  have hnoted := h.noted
  cases h with
  | known | leave | resume | exhaust => exact .refl
  | enter | giveUp | pick | fail | postpone | skip | select | take | reject | retire | requeue =>
    exact hnote (hnoted nofun id) _
  | finish => exact hnote (.refl _) _
  | begin norm => exact .single (.begin hc.has norm rfl rfl rfl rfl)
  | round unproven next =>
    exact hwait next.tree (by rw [next.solver]) _
  | normFail _ _ _ _ next => exact hwait next.tree (by rw [next.solver]; rfl) _
  | @rewrite run run' p target hyps m input candidates value? c unproven mem asked applied check
      next =>
    have hstep : Step search ⟨run, .norm g (some input.goal)⟩ ⟨run', .norm g c.goals.head?⟩ :=
      .rewrite ⟨target, hyps, m, rfl, .inl mem⟩ applied check next.tree next.queue next.solver
    have hrest := rest_apply_ofGoals (p := { p with branch := p.branch.record m.rule.name value? })
      (x := p.goal) unproven rfl c.goals
    rw [asked, ← rest_unproven unproven, ← hrest] at hstep
    exact .single hstep
  | simplify unproven _ ends next =>
    obtain ⟨rfl, rfl⟩ := hreg.simplify_eq ends
    exact hwait next.tree (by rw [next.solver]; rfl) _
  | @normalize run p norm unproven =>
    exact .single (.normal norm (by rw [rest_unproven unproven]; rfl) rfl rfl)
  | @close run run' p norm proven next =>
    have hrecord : Step search ⟨run, .norm g p.rest⟩
        ⟨{ run with tree := run.tree.recordNorm g p.branch (.proven run.solver.state) }, .idle⟩ :=
      .normal norm (by rw [NormProgress.rest, if_pos proven]; rfl) rfl rfl
    refine .tail (.single hrecord) (.settle ?_ hlast fun e he => ?_)
    · rw [next.tree]
      exact Tree.settling_markProvenByNorm _ g
    · rw [next.queue] at he
      exact .inl he
  | @choose run run' x state m ms input candidates value? c asked applied eager next =>
    obtain ⟨rfl, -⟩ := eagerCandidate?_eq_some eager
    exact .single (.offer (asked ▸ hc.fits) (hk m List.mem_cons_self) applied next.tree next.queue
      next.solver)
  | @commit run run' m c value? added tree u ends next =>
    obtain ⟨⟨x, state, hnorm⟩, hdisjoint⟩ := hc.fits
    subst next
    refine .tail (.single (.attach hnorm (fun _ => hdisjoint) ends)) (.note ?_ le_rfl
      (fun e he => Tree.mem_queueAdded ends hc.has he) fun k e he => .inl ?_)
    · exact Tree.noted_modifyGoal _ g fun _ => ⟨rfl, rfl, rfl, rfl, rfl, rfl⟩
    · rcases Tree.mem_queue_modifyGoal he with he | ⟨-, he⟩
      · exact he
      · cases he
  | @offer run run' x state entry rest input candidates value? asked applied next =>
    exact .single (.offer (asked ▸ hc.fits.1) hk.1.1 applied next.tree next.queue next.solver)
  | @attach run run' entry probability value? c rest added tree u unknown ends next =>
    obtain ⟨x, state, hnorm⟩ := hc.fits
    subst next
    exact .tail (.single (.attach hnorm (fun h => nomatch h.symm.trans hk.2) ends))
      (.wait rfl rfl le_rfl fun e he => Tree.mem_queueAdded ends hc.has he)

theorem SearchStep.steps (h : SearchStep search m m') (hreg : search.Regular)
    (hm : search.Valid m) : Steps search (.ofMoment m) (.ofMoment m') := by
  cases h with
  | next _ first =>
    exact .single (.wait rfl rfl le_rfl fun e he => .inl ((firstActive?_some first).2.2.1 e he))
  | @drain run rest first =>
    refine .single (.wait rfl rfl le_rfl fun e he => .inl (mem_of_firstActive? (t := run.tree) ?_))
    rwa [first]
  | visit => exact .refl
  | expand step => exact step.steps hreg hm.activity.1 hm.activity.2
  | @leave run run' postpone g stage ended next =>
    have hidle : Focus.ofStage g stage = .idle := by
      rcases ended with hdone | ⟨-, x, state, rfl⟩
      · obtain ⟨ending, rfl⟩ := ExpansionStage.isDone_iff.1 hdone
        rfl
      · rfl
    have hwait : Step search ⟨run, .ofStage g stage⟩ ⟨run', .ofStage g stage⟩ :=
      .wait next.tree (by rw [next.solver]) (by rw [next.solver]) fun e he => .inl (next.queue ▸ he)
    nth_rewrite 2 [hidle] at hwait
    exact .single hwait

theorem SearchSteps.steps (h : SearchSteps search m m') (hreg : search.Regular)
    (hm : search.Valid m) : Steps search (.ofMoment m) (.ofMoment m') := by
  induction h with
  | refl => exact .refl
  | tail hsteps hstep ih => exact ih.trans (hstep.steps hreg (SearchSteps.valid hsteps hm))

/-- The tree with which a search ends is reached by steps, whatever its result. -/
theorem exists_steps_runAll (hreg : search.Regular) (hv : search.Valid ⟨run, .idle⟩) :
    ∃ sc, Steps search ⟨run, .idle⟩ sc ∧ sc.run.tree = (search.runAll.run.run run).2.tree := by
  obtain ⟨m, -, hsteps, htree, -⟩ := exists_steps_treeAfter (Nat.le_refl search.loopBudget.1)
    (Nat.le_refl search.fuel) hv
  rw [tree_runAll]
  exact ⟨_, hsteps.steps hreg hv, htree⟩

/-- A safe prefix is extracted from a tree that is reached by steps. -/
theorem runAll_failed {last : Run} {safePrefix : SafePrefix} {reason : FailureReason}
    {message : String} {stats : Stats} (hreg : search.Regular) (hv : search.Valid ⟨run, .idle⟩)
    (h : Ends search.runAll run (.failed safePrefix reason message stats) last) :
    ∃ sc, Steps search ⟨run, .idle⟩ sc ∧ last.tree = sc.run.tree ∧
      Ends (sc.run.tree.extractSafePrefix search.options.maxRecursionDepth) sc.run.solver safePrefix
        last.solver := by
  rw [runAll_eq, ends_bind] at h
  obtain ⟨verdict, u, hloop, hfinish⟩ := h
  obtain rfl := finish_reason hfinish
  have hsteps := ((continues_loop le_rfl hv).steps hloop).1
  simp only [finish, ends_bind, ends_get] at hfinish
  obtain ⟨_, _, ⟨rfl, rfl⟩, hfinish⟩ := hfinish
  split at hfinish
  · exact (ends_throw hfinish).elim
  · simp only [ends_bind, ends_getTree, ends_onSolverM, ends_get, ends_pure] at hfinish
    obtain ⟨⟨⟩, v, hexpand, t, _, ⟨rfl, rfl⟩, found, w, ⟨s, hextract, rfl⟩, _, _, ⟨rfl, rfl⟩, hres,
      rfl⟩ := hfinish
    cases hres
    have hsteps' := ((continues_expandPrefixSteps le_rfl (SearchSteps.valid hsteps hv)).steps
      hexpand).1
    exact ⟨_, SearchSteps.steps (hsteps.trans hsteps') hreg hv, rfl, hextract⟩

end

end Search

end ProofSearch
