import ProofSearch.Proofs.Search.Stepwise

/-!
# What the expansion of an active goal does

The steps of an expansion are grouped by what they do to the tree and the queue of goals, with what
is known of an active goal at that time.

1. `Move`: one change during the expansion of a goal.
2. `Outcome`: how an expansion ends.
3. `Tending`: what is known of the goal at each stage.  `ExpansionStep.move`: every step is a move
   or an outcome.
4. `expandGoal_moves`: every expansion is a list of moves and an outcome.
-/

namespace ProofSearch

namespace Search

variable {search : Search} {run run' : Run}

/-! ## Moves -/

/-- A normalized goal that is handed to the rules, and may be decided meanwhile. -/
structure Tended (search : Search) (t : Tree) (g : GoalId) (x : Var) (state : Snapshot) : Prop where
  has : t.HasGoal g
  forced : (t.goal g).forced = false
  norm : (t.goal g).norm = .normal x state
  shallow : search.tooDeep (t.goal g).depth = false

/-- A normalized goal that is handed to the rules and still undecided. -/
structure Ready (search : Search) (t : Tree) (g : GoalId) (x : Var) (state : Snapshot) : Prop
    extends Tended search t g x state where
  unknown : (t.goal g).state = .unknown

/-- One change during the expansion of the goal `g`. -/
inductive Move (search : Search) (g : GoalId) : Run → Run → Prop
  /-- The solver, the counters or the journal change. -/
  | solve {run run' : Run} : run'.tree = run.tree → run'.queue = run.queue → Move search g run run'
  /-- The goal is marked as expanded, or a failed rule is noted. -/
  | note {run run' : Run} {f : Goal → Goal} :
      (∀ a, f a = { a with expandedIn := (f a).expandedIn, failedRules := (f a).failedRules }) →
      run'.tree = run.tree.modifyGoal g f → run'.queue = run.queue → Move search g run run'
  | normalize {run run' : Run} {x : Var} {post : Snapshot} {branch : BranchState} :
      (run.tree.goal g).norm = .notNormal → run'.tree = run.tree.modifyGoal g (fun goal =>
        { goal with branch := branch, norm := .normal x post }) →
      run'.queue = run.queue → Move search g run run'
  /-- A safe rule is put off. -/
  | postpone {run run' : Run} {x : Var} {state : Snapshot} {entry : QueuedRule} :
      Ready search run.tree g x state → (run.tree.goal g).selected = false →
      run'.tree = run.tree.modifyGoal g (fun goal =>
        { goal with queue := goal.queue ++ [entry] }) →
      run'.queue = run.queue → Move search g run run'
  /-- The tentative rules of the goal are queued. -/
  | select {run run' : Run} {x : Var} {state : Snapshot} {entries : List QueuedRule} :
      Ready search run.tree g x state → (run.tree.goal g).selected = false →
      run'.tree = run.tree.modifyGoal g (fun goal => { goal with
        queue := sortOrdered QueuedRule.le (goal.queue ++ entries), selected := true }) →
      run'.queue = run.queue → Move search g run run'
  /-- A queued rule is taken. -/
  | take {run run' : Run} {x : Var} {state : Snapshot} {rest : List QueuedRule} :
      Ready search run.tree g x state → (run.tree.goal g).selected = true →
      run'.tree = run.tree.modifyGoal g (fun goal => { goal with queue := rest }) →
      run'.queue = run.queue → Move search g run run'
  | attach {run run' : Run} {x : Var} {state : Snapshot} {new : NewApplication}
      {added : AddedApplication} {t : Tree} {s : Solver} :
      Ready search run.tree g x state → new.parent = g →
      Ends (run.tree.addApplication new) run.solver (added, t) s → run'.tree = t →
      run'.queue = queueAdded run.queue t added → Move search g run run'

/-- How the expansion of the goal `g` ends. -/
inductive Outcome (search : Search) (g : GoalId) : Run → Run → Prop
  /-- The goal lies too deep. -/
  | giveUp {run run' : Run} : (run.tree.goal g).state = .unknown →
      search.tooDeep (run.tree.goal g).depth = true →
      run'.tree = run.tree.markForcedUnprovable g → run'.queue = run.queue →
      Outcome search g run run'
  /-- Normalization closes the goal. -/
  | close {run run' : Run} {post : Snapshot} {branch : BranchState} :
      (run.tree.goal g).state = .unknown → (run.tree.goal g).forced = false →
      (run.tree.goal g).norm = .notNormal → run'.tree = (run.tree.modifyGoal g fun goal =>
        { goal with branch := branch, norm := .proven post }).markProvenByNorm g →
      run'.queue = run.queue → Outcome search g run run'
  /-- A safe rule is applied, and no other rule is tried. -/
  | commit {run run' : Run} {x : Var} {state : Snapshot} {new : NewApplication}
      {added : AddedApplication} {t : Tree} {s : Solver} :
      Ready search run.tree g x state → new.parent = g →
      Ends (run.tree.addApplication new) run.solver (added, t) s →
      run'.tree = t.modifyGoal g Goal.withoutRules → run'.queue = queueAdded run.queue t added →
      Outcome search g run run'
  /-- The rules tried so far may settle the goal; otherwise it is queued again. -/
  | check {run run' : Run} {x : Var} {state : Snapshot} : Tended search run.tree g x state →
      run'.tree = (run.tree.checkExhausted g).2 →
      (run'.queue = run.queue ∧ ((run.tree.checkExhausted g).1 = false →
        run'.tree.isActive g = true → (run'.tree.goal g).isExhausted = true) ∨
        run'.queue = run.queue.push (.ofGoal g (run'.tree.goal g))) → Outcome search g run run'

/-- Several moves. -/
abbrev Moves (search : Search) (g : GoalId) : Run → Run → Prop :=
  Relation.ReflTransGen (Move search g)

section

variable {t t' : Tree} {g : GoalId} {x : Var} {state : Snapshot}

theorem Tended.settle (h : Tended search t g x state) (hs : t.Settling t') :
    Tended search t' g x state := by
  have he := (hs.goal g).eq
  exact ⟨hs.hasGoal.2 h.has, by rw [he]; exact h.forced, by rw [he]; exact h.norm,
    by rw [he]; exact h.shallow⟩

theorem Tended.modifyGoal (h : Tended search t g x state) {f : Goal → Goal}
    (hforced : ∀ a, (f a).forced = a.forced) (hnorm : ∀ a, (f a).norm = a.norm)
    (hdepth : ∀ a, (f a).depth = a.depth) : Tended search (t.modifyGoal g f) g x state := by
  have he : (t.modifyGoal g f).goal g = f (t.goal g) := by
    rw [Tree.goal_modifyGoal, if_pos ⟨rfl, h.has⟩]
  exact ⟨by simpa [Tree.HasGoal, Tree.modifyGoal] using h.has, by rw [he, hforced]; exact h.forced,
    by rw [he, hnorm]; exact h.norm, by rw [he, hdepth]; exact h.shallow⟩

theorem Ready.modifyGoal (h : Ready search t g x state) {f : Goal → Goal}
    (hforced : ∀ a, (f a).forced = a.forced) (hnorm : ∀ a, (f a).norm = a.norm)
    (hdepth : ∀ a, (f a).depth = a.depth) (hstate : ∀ a, (f a).state = a.state) :
    Ready search (t.modifyGoal g f) g x state := by
  refine ⟨h.toTended.modifyGoal hforced hnorm hdepth, ?_⟩
  rw [Tree.goal_modifyGoal, if_pos ⟨rfl, h.has⟩, hstate]
  exact h.unknown

theorem Tended.addApplication (h : Tended search t g x state) {new : NewApplication}
    {added : AddedApplication} {s s' : Solver} (hp : new.parent = g)
    (hadd : Ends (t.addApplication new) s (added, t') s') : Tended search t' g x state := by
  obtain ⟨new', copies, groups, u, -, -, hparent, hgrow, -, -, ht⟩ :=
    Tree.addApplication_growth hadd (hp ▸ h.has)
  have he := hgrow.goal_parent
  rw [hparent, hp] at he
  have hu : Tended search u g x state :=
    ⟨hgrow.hasGoal h.has, by rw [he]; exact h.forced, by rw [he]; exact h.norm,
      by rw [he]; exact h.shallow⟩
  rcases ht with ⟨-, rfl⟩ | ⟨-, rfl⟩
  · exact hu.settle (Tree.settling_markApplicationProven u _)
  · exact hu

end

/-! ## Expansions are made of moves -/

section

variable {g : GoalId} {x : Var} {state : Snapshot} {s s' : Expansion}

/-- An undecided goal that is about to be normalized. -/
structure Awake (search : Search) (t : Tree) (g : GoalId) : Prop where
  has : t.HasGoal g
  forced : (t.goal g).forced = false
  shallow : search.tooDeep (t.goal g).depth = false
  unknown : (t.goal g).state = .unknown

theorem Awake.ready {t : Tree} (h : Awake search t g) (hn : (t.goal g).norm = .normal x state) :
    Ready search t g x state := ⟨⟨h.has, h.forced, hn, h.shallow⟩, h.unknown⟩

theorem Awake.modifyGoal {t : Tree} (h : Awake search t g) {f : Goal → Goal}
    (hforced : ∀ a, (f a).forced = a.forced) (hdepth : ∀ a, (f a).depth = a.depth)
    (hstate : ∀ a, (f a).state = a.state) : Awake search (t.modifyGoal g f) g := by
  have he : (t.modifyGoal g f).goal g = f (t.goal g) := by
    rw [Tree.goal_modifyGoal, if_pos ⟨rfl, h.has⟩]
  exact ⟨by simpa [Tree.HasGoal, Tree.modifyGoal] using h.has, by rw [he, hforced]; exact h.forced,
    by rw [he, hdepth]; exact h.shallow, by rw [he, hstate]; exact h.unknown⟩

/-- What is known of an active goal at each stage of its expansion. -/
abbrev Tending (search : Search) (g : GoalId) (s : Expansion) : Prop :=
  match s.stage with
  | .waiting => s.run.tree.HasGoal g ∧ s.run.tree.isActive g = true ∧
      ∀ post, (s.run.tree.goal g).norm ≠ .proven post
  | .entered => Awake search s.run.tree g ∧ ∀ post, (s.run.tree.goal g).norm ≠ .proven post
  | .norm _ => Awake search s.run.tree g ∧ (s.run.tree.goal g).norm = .notNormal
  | .normal x state => Ready search s.run.tree g x state
  | .safe x state _ => Ready search s.run.tree g x state ∧ (s.run.tree.goal g).selected = false
  | .eager .. => ∃ x state, Ready search s.run.tree g x state
  | .queued x state _ | .taken x state .. =>
    Ready search s.run.tree g x state ∧ (s.run.tree.goal g).selected = true
  | .offered .. | .tried => ∃ x state, Tended search s.run.tree g x state
  | .done _ => True

/-- Every step is a move, or ends the expansion. -/
theorem ExpansionStep.move (h : ExpansionStep search true g s s') (ht : Tending search g s) :
    s'.stage.isDone = false ∧ Move search g s.run s'.run ∧ Tending search g s' ∨
      s'.stage.isDone = true ∧ ∃ mid, Moves search g s.run mid ∧ Outcome search g mid s'.run := by
  have hselected {t : Tree} {f : Goal → Goal} {b : Bool} (hg : t.HasGoal g)
      (hf : ∀ a, (f a).selected = a.selected) (hb : (t.goal g).selected = b) :
      ((t.modifyGoal g f).goal g).selected = b := by
    rw [Tree.goal_modifyGoal_self hg, hf, hb]
  cases h with
  | @enter run shallow =>
    obtain ⟨hg, ha, hn⟩ := ht
    simp only [Tree.isActive, Goal.isActive, Bool.and_eq_true, Bool.not_eq_true',
      GoalState.isUnknown_iff] at ha
    have hawake : Awake search run.tree g := ⟨hg, ha.2, shallow, ha.1.1⟩
    refine .inl ⟨rfl, .note (fun _ => rfl) rfl rfl,
      hawake.modifyGoal (fun _ => rfl) (fun _ => rfl) fun _ => rfl, ?_⟩
    rw [Tree.goal_modifyGoal_self hg]
    exact hn
  | @giveUp run run' deep next =>
    obtain ⟨hg, ha, -⟩ := ht
    simp only [Tree.isActive, Goal.isActive, Bool.and_eq_true, Bool.not_eq_true',
      GoalState.isUnknown_iff] at ha
    have hnote : Move search g run (run.modifyGoal g fun goal =>
        { goal with expandedIn := run.iteration }) := .note (fun _ => rfl) rfl rfl
    refine .inr ⟨rfl, _, .single hnote, .giveUp ?_ ?_ next.tree next.queue⟩ <;>
      rw [Tree.goal_modifyGoal_self hg]
    · exact ha.1.1
    · exact deep
  | known norm => exact .inl ⟨rfl, .solve rfl rfl, ht.1.ready norm⟩
  | leave norm => exact (ht.2 _ norm).elim
  | begin norm => exact .inl ⟨rfl, .solve rfl rfl, ht.1, norm⟩
  | round _ next | normFail _ _ _ _ next | rewrite _ _ _ _ _ next | simplify _ _ _ next =>
    refine .inl ⟨rfl, .solve next.tree next.queue, ?_⟩
    rwa [Tending, next.tree]
  | @normalize run p norm =>
    have hawake := ht.1.modifyGoal (f := fun goal => { goal with
      branch := p.branch, norm := .normal p.goal run.solver.state }) (fun _ => rfl) (fun _ => rfl)
      fun _ => rfl
    refine .inl ⟨rfl, .normalize norm rfl rfl, hawake.ready ?_⟩
    rw [Tree.goal_modifyGoal_self ht.1.has]
  | close norm proven next =>
    exact .inr ⟨rfl, _, .refl, .close ht.1.unknown ht.1.forced norm next.tree next.queue⟩
  | pick first => exact .inl ⟨rfl, .solve rfl rfl, ht, first rfl⟩
  | fail _ _ next =>
    refine .inl ⟨rfl, .note (fun _ => rfl) next.tree next.queue, ?_⟩
    rw [Tending, next.tree]
    exact ⟨ht.1.modifyGoal (fun _ => rfl) (fun _ => rfl) (fun _ => rfl) fun _ => rfl,
      hselected ht.1.has (fun _ => rfl) ht.2⟩
  | postpone _ _ _ _ next =>
    refine .inl ⟨rfl, .postpone ht.1 ht.2 next.tree next.queue, ?_⟩
    rw [Tending, next.tree]
    exact ⟨ht.1.modifyGoal (fun _ => rfl) (fun _ => rfl) (fun _ => rfl) fun _ => rfl,
      hselected ht.1.has (fun _ => rfl) ht.2⟩
  | skip unset => cases unset
  | choose _ _ _ next =>
    refine .inl ⟨rfl, .solve next.tree next.queue, ?_⟩
    rw [Tending, next.tree]
    exact ⟨_, _, ht.1⟩
  | commit ends next =>
    obtain ⟨x, state, hr⟩ := ht
    subst next
    exact .inr ⟨rfl, _, .refl, .commit hr rfl ends rfl rfl⟩
  | select _ _ next =>
    subst next
    refine .inl ⟨rfl, .select ht.1 ht.2 rfl rfl, ht.1.modifyGoal (fun _ => rfl) (fun _ => rfl)
      (fun _ => rfl) fun _ => rfl, ?_⟩
    rw [Tree.goal_modifyGoal_self ht.1.has]
  | resume selected => exact .inl ⟨rfl, .solve rfl rfl, ht, selected⟩
  | take =>
    exact .inl ⟨rfl, .take ht.1 ht.2 rfl rfl, ht.1.modifyGoal (fun _ => rfl) (fun _ => rfl)
      (fun _ => rfl) fun _ => rfl, hselected ht.1.has (fun _ => rfl) ht.2⟩
  | reject _ _ next =>
    refine .inl ⟨rfl, .note (fun _ => rfl) next.tree next.queue, ?_⟩
    rw [Tending, next.tree]
    exact ⟨ht.1.modifyGoal (fun _ => rfl) (fun _ => rfl) (fun _ => rfl) fun _ => rfl,
      hselected ht.1.has (fun _ => rfl) ht.2⟩
  | offer _ _ next =>
    refine .inl ⟨rfl, .solve next.tree next.queue, ?_⟩
    rw [Tending, next.tree]
    exact ⟨_, _, ht.1.toTended⟩
  | attach unknown ends next =>
    obtain ⟨x, state, hr⟩ := ht
    subst next
    exact .inl ⟨rfl, .attach ⟨hr, unknown⟩ rfl ends rfl rfl, x, state,
      hr.addApplication rfl ends⟩
  | finish => exact .inl ⟨rfl, .solve rfl rfl, ht⟩
  | exhaust => exact .inl ⟨rfl, .solve rfl rfl, _, _, ht.1.toTended⟩
  | retire next ended =>
    obtain ⟨x, state, hr⟩ := ht
    exact .inr ⟨rfl, _, .refl, .check hr next (.inl ⟨rfl, ended⟩)⟩
  | requeue next =>
    obtain ⟨x, state, hr⟩ := ht
    exact .inr ⟨rfl, _, .refl, .check hr next (.inr rfl)⟩

theorem ExpansionStep.tending (h : ExpansionStep search true g s s') (ht : Tending search g s) :
    Tending search g s' := by
  rcases h.move ht with ⟨-, -, ht'⟩ | ⟨hdone, -⟩
  · exact ht'
  · obtain ⟨ending, hending⟩ := ExpansionStage.isDone_iff.1 hdone
    rw [Tending, hending]
    trivial

/-- No step follows when an expansion is done. -/
theorem ExpansionStep.not_done {postpone : Bool} (h : ExpansionStep search postpone g s s') :
    s.stage.isDone = false := by
  cases h <;> rfl

theorem ExpansionSteps.moves (h : ExpansionSteps search true g s s') (ht : Tending search g s)
    (hs : s.stage.isDone = false) :
    s'.stage.isDone = false ∧ Moves search g s.run s'.run ∧ Tending search g s' ∨
      s'.stage.isDone = true ∧ ∃ mid, Moves search g s.run mid ∧ Outcome search g mid s'.run := by
  induction h with
  | refl => exact .inl ⟨hs, .refl, ht⟩
  | tail _ hstep ih =>
    rcases ih with ⟨-, hm, ht⟩ | ⟨hdone, -⟩
    · rcases hstep.move ht with ⟨hs, hmove, ht⟩ | ⟨hs, mid, hmid, hout⟩
      · exact .inl ⟨hs, hm.tail hmove, ht⟩
      · exact .inr ⟨hs, mid, hm.trans hmid, hout⟩
    · exact nomatch hstep.not_done.symm.trans hdone

/-- Every expansion of an active goal is a list of moves and an outcome. -/
theorem expandGoal_moves (h : Ends (search.expandGoal g) run () run') (hg : run.tree.HasGoal g)
    (ha : run.tree.isActive g = true) (hnp : ∀ post, (run.tree.goal g).norm ≠ .proven post) :
    ∃ mid, Moves search g run mid ∧ Outcome search g mid run' := by
  obtain ⟨s', hsteps, rfl, hdone⟩ := Stepwise.of_ends stepwise_expandGoal h
  rcases hsteps.moves ⟨hg, ha, hnp⟩ rfl with ⟨hne, -⟩ | ⟨-, hmoves⟩
  · exact nomatch hne.symm.trans hdone
  · exact hmoves

end

end Search

end ProofSearch
