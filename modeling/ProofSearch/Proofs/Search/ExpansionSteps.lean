import ProofSearch.Proofs.AndOr.Relevance
import ProofSearch.Proofs.AndOr.Retaining
import ProofSearch.Proofs.Rule.Candidates
import ProofSearch.Search.Loop

/-!
# The steps of an expansion

A goal is expanded in small steps, each of which changes one thing: it runs one rule, settles one
candidate or updates the goal.  What holds of expansions is proved from these steps, without looking
at the functions that take them.

1. `ExpansionStage`: how far an expansion has come, with the rules and candidates it has in hand.
2. `ExpansionStep`: what can happen next, with what becomes of the solver, the tree and the queue.
3. `ExpansionFault`: what makes an expansion fail.  A fault leaves the tree as it is.
-/

namespace ProofSearch

/-- The runs agree but for the counters and the journal. -/
structure Run.Agrees (run run' : Run) : Prop where
  solver : run'.solver = run.solver
  tree : run'.tree = run.tree
  queue : run'.queue = run.queue
  iteration : run'.iteration = run.iteration

theorem Run.Agrees.refl (run : Run) : run.Agrees run := ⟨rfl, rfl, rfl, rfl⟩

/-- The goal `x` has the given type and hypotheses. -/
def Snapshot.Describes (state : Snapshot) (x : Var) (target : Term) (hyps : LocalContext) : Prop :=
  state.context.goalType x = .ok target ∧ state.context.goalHyps x = .ok hyps

theorem Snapshot.Describes.unique {state : Snapshot} {x : Var} {A B : Term} {H K : LocalContext}
    (h : state.Describes x A H) (h' : state.Describes x B K) : A = B ∧ H = K :=
  ⟨Except.ok.inj (h.1.symm.trans h'.1), Except.ok.inj (h.2.symm.trans h'.2)⟩

/-- The tree with the result of a goal's normalization. -/
def Tree.recordNorm (t : Tree) (g : GoalId) (branch : BranchState) (norm : NormState) : Tree :=
  t.modifyGoal g fun goal => { goal with branch, norm }

namespace Tree

variable {t t' : Tree}

theorem goal_recordNorm (t : Tree) (g k : GoalId) (branch : BranchState) (norm : NormState) :
    (t.recordNorm g branch norm).goal k =
      if k = g ∧ t.HasGoal g then { t.goal k with branch, norm } else t.goal k :=
  goal_modifyGoal ..

theorem goal_recordNorm_self {g : GoalId} (hg : t.HasGoal g) (branch : BranchState)
    (norm : NormState) : (t.recordNorm g branch norm).goal g = { t.goal g with branch, norm } :=
  goal_modifyGoal_self hg _

theorem goal_recordNorm_of_ne {g k : GoalId} (h : k ≠ g) (branch : BranchState)
    (norm : NormState) : (t.recordNorm g branch norm).goal k = t.goal k := by
  rw [goal_recordNorm, if_neg fun hc => h hc.1]

/-- Nothing else changes in a goal. -/
theorem exists_goal_recordNorm (t : Tree) (g k : GoalId) (branch : BranchState)
    (norm : NormState) : ∃ branch' norm',
      (t.recordNorm g branch norm).goal k = { t.goal k with branch := branch', norm := norm' } := by
  rw [goal_recordNorm]
  split
  · exact ⟨branch, norm, rfl⟩
  · exact ⟨_, _, rfl⟩

theorem sameLinks_recordNorm (t : Tree) (g : GoalId) (branch : BranchState) (norm : NormState) :
    t.SameLinks (t.recordNorm g branch norm) :=
  sameLinks_modifyGoal t g (fun _ => rfl) fun _ => rfl

theorem preState_recordNorm (t : Tree) (g k : GoalId) (branch : BranchState) (norm : NormState) :
    (t.recordNorm g branch norm).preState k = t.preState k :=
  (sameLinks_recordNorm t g branch norm).preState_eq rfl (fun _ => rfl) k

theorem hasGoal_of_normal {g : GoalId} {x : Var} {state : Snapshot}
    (h : (t.goal g).norm = .normal x state) : t.HasGoal g := by
  by_contra hg
  rw [goal_of_not_has hg] at h
  cases h

theorem noted_markForcedUnprovable (t : Tree) (g : GoalId) :
    t.Noted (t.markForcedUnprovable g) := by
  unfold markForcedUnprovable
  split
  · exact .refl t
  · refine Noted.trans ?_ (settling_markUnprovable _ g).noted
    exact noted_modifyGoal t g fun _ => ⟨rfl, rfl, rfl, rfl, rfl, rfl⟩

/-- Only the links of an old goal change when an application is added, and a new goal has no rules
yet. -/
theorem addApplication_goal {new : NewApplication} {added : AddedApplication} {s s' : Solver}
    (h : Ends (t.addApplication new) s (added, t') s') (hp : t.HasGoal new.parent) :
    (∀ g, t.HasGoal g → t'.HasGoal g ∧ (t'.goal g).norm = (t.goal g).norm) ∧
      ∀ g, ∀ e ∈ (t'.goal g).queue, e ∈ (t.goal g).queue := by
  obtain ⟨new', copies, groups, u, -, -, hparent, hgrow, -, -, ht⟩ := addApplication_growth h hp
  have hsettle : u.Settling t' := by
    rcases ht with ⟨-, rfl⟩ | ⟨-, rfl⟩
    · exact settling_markApplicationProven u _
    · exact .refl _
  refine ⟨fun g hg => ⟨hsettle.hasGoal.2 (hgrow.hasGoal hg), ?_⟩, fun g e he => ?_⟩
  · rw [(hsettle.goal g).eq]
    obtain ⟨rs, heq⟩ := hgrow.exists_goal_eq hg
    rw [heq]
  · rw [(hsettle.goal g).eq] at he
    change e ∈ (u.goal g).queue at he
    rcases hgrow.goal_cases g with ⟨-, heq⟩ | heq | ⟨-, c, s, -, heq⟩ <;> rw [heq] at he
    · exact he
    · exact he
    · cases he

end Tree

/-- What a rule is run on that is tried on a goal with the variable `x`. -/
abbrev Goal.ruleInput (goal : Goal) (x : Var) (r : Rule) (locations : List MatchLocation) :
    RuleInput := ⟨x, goal.vars, locations, goal.branch.get? r.name⟩

/-- What a norm rule is run on when normalization has come to `p`. -/
abbrev NormProgress.ruleInput (p : NormProgress) (vars : VarSet) (m : IndexMatch) : RuleInput :=
  ⟨p.goal, vars, m.locations, p.branch.get? m.rule.name⟩

namespace Run

/-- The solver is moved to another state. -/
abbrev moveTo (run : Run) (state : Snapshot) : Run :=
  { run with solver := { run.solver with state } }

/-- A rule is run from the state `pre`. -/
abbrev afterRule (run : Run) (r : Rule) (input : RuleInput) (pre : Snapshot) : Run :=
  { run with solver := ((r.call input pre).run run.solver).2 }

abbrev modifyGoal (run : Run) (g : GoalId) (f : Goal → Goal) : Run :=
  { run with tree := run.tree.modifyGoal g f }

theorem Agrees.modifyGoal {run run' : Run} (h : run.Agrees run') (g : GoalId) (f : Goal → Goal) :
    (run.modifyGoal g f).Agrees (run'.modifyGoal g f) :=
  ⟨h.solver, congrArg (Tree.modifyGoal · g f) h.tree, h.queue, h.iteration⟩

theorem Agrees.moveTo {run run' : Run} (h : run.Agrees run') (state : Snapshot) :
    (run.moveTo state).Agrees (run'.moveTo state) :=
  ⟨congrArg (fun s : Solver => { s with state }) h.solver, h.tree, h.queue, h.iteration⟩

abbrev noteFailed (run : Run) (g : GoalId) (r : Rule) : Run :=
  run.modifyGoal g fun goal => { goal with failedRules := goal.failedRules ++ [r.name] }

end Run

/-- What the goals of a norm rule's candidate make of the goal `x`. -/
def NormStep.ofGoals (x : Var) : List Var → NormStep
  | [] => .proven
  | next :: _ => if next ≠ x then .changed next else .unchanged

/-- What the result of the simplifier makes of the goal `x`. -/
def NormStep.ofSimp (x : Var) : SimpResult → NormStep
  | .solved => .proven
  | .simplified next => if next ≠ x then .changed next else .unchanged
  | .unchanged => .unchanged

/-- The branch state with the value that a rule has returned. -/
def BranchState.record (branch : BranchState) (rule : String) : Option BranchValue → BranchState
  | some value => branch.update rule value
  | none => branch

/-- What an attached candidate brings to the tree. -/
def attachment (run : Run) (g : GoalId) (rule : String) (kind : RuleKind) (candidate : Candidate)
    (probability : Percent) (value? : Option BranchValue) : NewApplication where
  parent := g
  rule := ⟨rule, kind⟩
  post := candidate.post
  goals := candidate.goals
  introduced := candidate.introduced
  assigned := candidate.assigned
  probability := probability
  branch := (run.tree.goal g).branch.record rule value?
  iteration := run.iteration

/-- The queue with the goals of an added application, which belong to the tree `t`. -/
def queueAdded (q : GoalQueue) (t : Tree) (added : AddedApplication) : GoalQueue :=
  q.pushAll (added.goals.map fun g => .ofGoal g (t.goal g))

/-- How the expansion of a goal ends. -/
inductive Ending where
  /-- The goal lies too deep. -/
  | givenUp
  /-- Normalization has closed the goal. -/
  | closed
  /-- A safe rule is applied. -/
  | committed
  /-- Queued rules are tried. -/
  | tried

/-- How far the expansion of a goal has come. -/
inductive ExpansionStage where
  /-- The goal is about to be expanded. -/
  | waiting
  /-- The goal is about to be normalized. -/
  | entered
  | norm (progress : NormProgress)
  /-- The goal has become the goal `x` of the given state and is handed to the rules. -/
  | normal (x : Var) (state : Snapshot)
  /-- These safe rules are left to be tried. -/
  | safe (x : Var) (state : Snapshot) (rules : List IndexMatch)
  /-- The candidate of a safe rule is applied at once. -/
  | eager (rule : IndexMatch) (candidate : Candidate) (value? : Option BranchValue)
  /-- These queued rules are left to be tried. -/
  | queued (x : Var) (state : Snapshot) (queue : List QueuedRule)
  /-- A rule is taken off the queue. -/
  | taken (x : Var) (state : Snapshot) (entry : QueuedRule) (rest : List QueuedRule)
  /-- These candidates of a queued rule are left to be attached. -/
  | offered (entry : QueuedRule) (probability : Percent) (value? : Option BranchValue)
      (candidates : List Candidate)
  /-- The rules of this expansion are tried. -/
  | tried
  | done (ending : Ending)

def ExpansionStage.isDone : ExpansionStage → Bool
  | .done _ => true
  | _ => false

theorem ExpansionStage.isDone_iff {stage : ExpansionStage} :
    stage.isDone = true ↔ ∃ ending, stage = .done ending := by
  cases stage <;> simp [isDone]

/-- An application is about to be added. -/
def ExpansionStage.Attaching : ExpansionStage → Prop
  | .eager .. | .offered .. => True
  | _ => False

/-- The stage that a normalization leads to. -/
def ExpansionStage.ofNormalized : Normalized → ExpansionStage
  | .proven => .done .closed
  | .normal x state => .normal x state

/-- The expansion of a goal in progress. -/
structure Expansion where
  run : Run
  stage : ExpansionStage

namespace Search

/-- What a rule comes to that is run from the state `pre`. -/
abbrev ruleOutcome (search : Search) (run : Run) (r : Rule) (input : RuleInput) (pre : Snapshot) :
    Except SearchError RuleOutcome :=
  r.examine pre search.options.checkRuleEffects ((r.call input pre).run run.solver).1

/-- One step in the expansion of the goal `g`.  Safe rules that are not applied at once are put off
if `postpone` is set, and left out otherwise. -/
inductive ExpansionStep (search : Search) (postpone : Bool) (g : GoalId) :
    Expansion → Expansion → Prop
  | enter {run : Run} (shallow : search.tooDeep (run.tree.goal g).depth = false) :
      ExpansionStep search postpone g ⟨run, .waiting⟩
        ⟨run.modifyGoal g fun goal => { goal with expandedIn := run.iteration }, .entered⟩
  /-- The goal lies too deep. -/
  | giveUp {run run' : Run} (deep : search.tooDeep (run.tree.goal g).depth = true)
      (next : Run.Agrees { run with tree := (run.tree.modifyGoal g fun goal =>
        { goal with expandedIn := run.iteration }).markForcedUnprovable g } run') :
      ExpansionStep search postpone g ⟨run, .waiting⟩ ⟨run', .done .givenUp⟩
  /-- The goal is normal already. -/
  | known {run : Run} {x : Var} {state : Snapshot}
      (norm : (run.tree.goal g).norm = .normal x state) :
      ExpansionStep search postpone g ⟨run, .entered⟩ ⟨run, .normal x state⟩
  /-- The goal was closed by its normalization. -/
  | leave {run : Run} {post : Snapshot} (norm : (run.tree.goal g).norm = .proven post) :
      ExpansionStep search postpone g ⟨run, .entered⟩ ⟨run, .done .closed⟩
  /-- Normalization begins in the state in which the goal was made. -/
  | begin {run : Run} {target : Term} {hyps : LocalContext}
      (norm : (run.tree.goal g).norm = .notNormal)
      (described : (run.tree.preState g).Describes (run.tree.goal g).var target hyps) :
      ExpansionStep search postpone g ⟨run, .entered⟩ ⟨run.moveTo (run.tree.preState g),
        .norm ⟨(run.tree.goal g).var, (run.tree.goal g).branch, false, false⟩⟩
  /-- A round of normalization begins. -/
  | round {run run' : Run} {p : NormProgress} (unproven : p.proven = false)
      (next : run.Agrees run') :
      ExpansionStep search postpone g ⟨run, .norm p⟩ ⟨run', .norm { p with changed := false }⟩
  | normFail {run run' : Run} {p : NormProgress} {target : Term} {hyps : LocalContext}
      {m : IndexMatch} {input : RuleInput} {e : RuleError} (unproven : p.proven = false)
      (mem : m ∈ search.rules.norm target hyps)
      (asked : input = p.ruleInput (run.tree.goal g).vars m)
      (failed : search.ruleOutcome run m.rule input run.solver.state = .ok (.failed e))
      (next : (run.afterRule m.rule input run.solver.state).Agrees run') :
      ExpansionStep search postpone g ⟨run, .norm p⟩ ⟨run', .norm p⟩
  /-- A norm rule replaces the goal, closes it or leaves it in place. -/
  | rewrite {run run' : Run} {p : NormProgress} {target : Term} {hyps : LocalContext}
      {m : IndexMatch} {input : RuleInput} {candidates : List Candidate}
      {value? : Option BranchValue} {c : Candidate} (unproven : p.proven = false)
      (mem : m ∈ search.rules.norm target hyps)
      (asked : input = p.ruleInput (run.tree.goal g).vars m)
      (applied : search.ruleOutcome run m.rule input run.solver.state =
        .ok (.applied candidates value?))
      (check : m.rule.checkNorm (run.tree.goal g).vars candidates = .ok c)
      (next : ((run.afterRule m.rule input run.solver.state).moveTo c.post).Agrees run') :
      ExpansionStep search postpone g ⟨run, .norm p⟩
        ⟨run', .norm ({ p with branch := p.branch.record m.rule.name value? }.apply
          (.ofGoals p.goal c.goals))⟩
  | simplify {run run' : Run} {p : NormProgress} {result : SimpResult} {s : Solver}
      (unproven : p.proven = false) (enabled : search.options.enableSimp = true)
      (ends : Ends (search.simplifier p.goal) run.solver result s)
      (next : Run.Agrees { run with solver := if NormStep.ofSimp p.goal result = .unchanged
        then { s with state := run.solver.state } else s } run') :
      ExpansionStep search postpone g ⟨run, .norm p⟩
        ⟨run', .norm (p.apply (.ofSimp p.goal result))⟩
  /-- The last round has changed nothing. -/
  | normalize {run : Run} {p : NormProgress} (norm : (run.tree.goal g).norm = .notNormal)
      (unproven : p.proven = false) (settled : p.changed = false) :
      ExpansionStep search postpone g ⟨run, .norm p⟩
        ⟨{ run with tree := run.tree.recordNorm g p.branch (.normal p.goal run.solver.state) },
          .normal p.goal run.solver.state⟩
  /-- Normalization closes the goal. -/
  | close {run run' : Run} {p : NormProgress} (norm : (run.tree.goal g).norm = .notNormal)
      (proven : p.proven = true)
      (next : Run.Agrees { run with tree := (run.tree.recordNorm g p.branch
        (.proven run.solver.state)).markProvenByNorm g } run') :
      ExpansionStep search postpone g ⟨run, .norm p⟩ ⟨run', .done .closed⟩
  /-- The safe rules are selected. -/
  | pick {run : Run} {x : Var} {state : Snapshot} {target : Term} {hyps : LocalContext}
      (first : postpone = true → (run.tree.goal g).selected = false)
      (described : state.Describes x target hyps) :
      ExpansionStep search postpone g ⟨run, .normal x state⟩
        ⟨run.moveTo state, .safe x state (search.rules.safe target hyps)⟩
  | fail {run run' : Run} {x : Var} {state : Snapshot} {m : IndexMatch} {ms : List IndexMatch}
      {input : RuleInput} {e : RuleError}
      (asked : input = (run.tree.goal g).ruleInput x m.rule m.locations)
      (failed : search.ruleOutcome run m.rule input state = .ok (.failed e))
      (next : ((run.afterRule m.rule input state).noteFailed g m.rule).Agrees run') :
      ExpansionStep search postpone g ⟨run, .safe x state (m :: ms)⟩ ⟨run', .safe x state ms⟩
  | postpone {run run' : Run} {x : Var} {state : Snapshot} {m : IndexMatch} {ms : List IndexMatch}
      {input : RuleInput} {candidates : List Candidate} {value? : Option BranchValue}
      (set : postpone = true) (asked : input = (run.tree.goal g).ruleInput x m.rule m.locations)
      (applied : search.ruleOutcome run m.rule input state = .ok (.applied candidates value?))
      (late : eagerCandidate? (run.tree.goal g).vars candidates = none)
      (next : ((run.afterRule m.rule input state).modifyGoal g fun goal =>
        { goal with queue := goal.queue ++ [.postponed m] }).Agrees run') :
      ExpansionStep search postpone g ⟨run, .safe x state (m :: ms)⟩ ⟨run', .safe x state ms⟩
  | skip {run run' : Run} {x : Var} {state : Snapshot} {m : IndexMatch} {ms : List IndexMatch}
      {input : RuleInput} {candidates : List Candidate} {value? : Option BranchValue}
      (unset : postpone = false) (asked : input = (run.tree.goal g).ruleInput x m.rule m.locations)
      (applied : search.ruleOutcome run m.rule input state = .ok (.applied candidates value?))
      (late : eagerCandidate? (run.tree.goal g).vars candidates = none)
      (next : (run.afterRule m.rule input state).Agrees run') :
      ExpansionStep search postpone g ⟨run, .safe x state (m :: ms)⟩ ⟨run', .safe x state ms⟩
  /-- A safe rule is to be applied at once. -/
  | choose {run run' : Run} {x : Var} {state : Snapshot} {m : IndexMatch} {ms : List IndexMatch}
      {input : RuleInput} {candidates : List Candidate} {value? : Option BranchValue}
      {c : Candidate} (asked : input = (run.tree.goal g).ruleInput x m.rule m.locations)
      (applied : search.ruleOutcome run m.rule input state = .ok (.applied candidates value?))
      (eager : eagerCandidate? (run.tree.goal g).vars candidates = some c)
      (next : (run.afterRule m.rule input state).Agrees run') :
      ExpansionStep search postpone g ⟨run, .safe x state (m :: ms)⟩ ⟨run', .eager m c value?⟩
  /-- No other rule is tried on the goal. -/
  | commit {run run' : Run} {m : IndexMatch} {c : Candidate} {value? : Option BranchValue}
      {added : AddedApplication} {tree : Tree} {s : Solver}
      (ends : Ends (run.tree.addApplication (attachment run g m.rule.name m.rule.eagerKind c
        (run.tree.goal g).probability value?)) run.solver (added, tree) s)
      (next : run' = { run with
        solver := s
        tree := tree.modifyGoal g fun goal => { goal with selected := true, queue := [] }
        queue := queueAdded run.queue tree added }) :
      ExpansionStep search postpone g ⟨run, .eager m c value?⟩ ⟨run', .done .committed⟩
  /-- The tentative rules are queued. -/
  | select {run run' : Run} {x : Var} {state : Snapshot} {target : Term} {hyps : LocalContext}
      (set : postpone = true) (described : state.Describes x target hyps)
      (next : run' = (run.moveTo state).modifyGoal g fun goal => { goal with
        queue := sortOrdered QueuedRule.le
          (goal.queue ++ (search.rules.tentative target hyps).map .ofMatch)
        selected := true }) :
      ExpansionStep search postpone g ⟨run, .safe x state []⟩
        ⟨run', .queued x state (run'.tree.goal g).queue⟩
  /-- The goal has queued its rules before. -/
  | resume {run : Run} {x : Var} {state : Snapshot}
      (selected : (run.tree.goal g).selected = true) :
      ExpansionStep search postpone g ⟨run, .normal x state⟩
        ⟨run, .queued x state (run.tree.goal g).queue⟩
  | take {run : Run} {x : Var} {state : Snapshot} {entry : QueuedRule} {rest : List QueuedRule} :
      ExpansionStep search postpone g ⟨run, .queued x state (entry :: rest)⟩
        ⟨run.modifyGoal g fun goal => { goal with queue := rest }, .taken x state entry rest⟩
  | reject {run run' : Run} {x : Var} {state : Snapshot} {entry : QueuedRule}
      {rest : List QueuedRule} {input : RuleInput} {e : RuleError}
      (asked : input = (run.tree.goal g).ruleInput x entry.rule entry.locations)
      (failed : search.ruleOutcome run entry.rule input state = .ok (.failed e))
      (next : ((run.afterRule entry.rule input state).noteFailed g entry.rule).Agrees run') :
      ExpansionStep search postpone g ⟨run, .taken x state entry rest⟩ ⟨run', .queued x state rest⟩
  | offer {run run' : Run} {x : Var} {state : Snapshot} {entry : QueuedRule}
      {rest : List QueuedRule} {input : RuleInput} {candidates : List Candidate}
      {value? : Option BranchValue}
      (asked : input = (run.tree.goal g).ruleInput x entry.rule entry.locations)
      (applied : search.ruleOutcome run entry.rule input state = .ok (.applied candidates value?))
      (next : (run.afterRule entry.rule input state).Agrees run') :
      ExpansionStep search postpone g ⟨run, .taken x state entry rest⟩
        ⟨run', .offered entry (run.tree.goal g).probability value? candidates⟩
  | attach {run run' : Run} {entry : QueuedRule} {probability : Percent}
      {value? : Option BranchValue} {c : Candidate} {rest : List Candidate}
      {added : AddedApplication} {tree : Tree} {s : Solver}
      (unknown : (run.tree.goal g).state = .unknown)
      (ends : Ends (run.tree.addApplication (attachment run g entry.rule.name entry.kind c
        (probability * c.probability.getD entry.probability) value?)) run.solver (added, tree) s)
      (next : run' = { run with
        solver := s
        tree := tree
        queue := queueAdded run.queue tree added }) :
      ExpansionStep search postpone g ⟨run, .offered entry probability value? (c :: rest)⟩
        ⟨run', .offered entry probability value? rest⟩
  /-- The candidates are attached or the goal is decided. -/
  | finish {run : Run} {entry : QueuedRule} {probability : Percent} {value? : Option BranchValue}
      {candidates : List Candidate}
      (ended : candidates = [] ∨ (run.tree.goal g).state ≠ .unknown) :
      ExpansionStep search postpone g ⟨run, .offered entry probability value? candidates⟩
        ⟨run, .tried⟩
  /-- No rule is left. -/
  | exhaust {run : Run} {x : Var} {state : Snapshot} :
      ExpansionStep search postpone g ⟨run, .queued x state []⟩ ⟨run, .tried⟩
  /-- The rules tried so far settle the goal, or no other rule is left. -/
  | retire {run : Run} {tree : Tree} (next : tree = (run.tree.checkExhausted g).2)
      (ended : (run.tree.checkExhausted g).1 = false → tree.isActive g = true →
        (tree.goal g).isExhausted = true) :
      ExpansionStep search postpone g ⟨run, .tried⟩ ⟨{ run with tree }, .done .tried⟩
  /-- The goal is queued again for its other rules. -/
  | requeue {run : Run} {tree : Tree} (next : tree = (run.tree.checkExhausted g).2)
      (active : tree.isActive g = true) (more : (tree.goal g).isExhausted = false) :
      ExpansionStep search postpone g ⟨run, .tried⟩
        ⟨{ run with tree, queue := run.queue.push (.ofGoal g (tree.goal g)) }, .done .tried⟩

/-- Several steps. -/
abbrev ExpansionSteps (search : Search) (postpone : Bool) (g : GoalId) :
    Expansion → Expansion → Prop := Relation.ReflTransGen (ExpansionStep search postpone g)

/-- The expansion of the goal `g` fails with the error `e` and leaves the given run. -/
inductive ExpansionFault (search : Search) (g : GoalId) : Expansion → SearchError → Run → Prop
  /-- Normalization is given no rounds. -/
  | noRounds {run : Run} (norm : (run.tree.goal g).norm = .notNormal)
      (none : search.normBudget.1 = 0) :
      ExpansionFault search g ⟨run, .entered⟩ (search.normBudget.2 (run.tree.goal g).var)
        (run.moveTo (run.tree.preState g))
  /-- The goal is unknown to the solver when its normalization begins. -/
  | firstGoal {run run' : Run} {e : SearchError} (norm : (run.tree.goal g).norm = .notNormal)
      (next : (run.moveTo (run.tree.preState g)).Agrees run')
      (error : (describeGoal (run.tree.goal g).var).run.run run' = (.error e, run')) :
      ExpansionFault search g ⟨run, .entered⟩ e run'
  | normRule {run run' : Run} {p : NormProgress} {target : Term} {hyps : LocalContext}
      {m : IndexMatch} {input : RuleInput} {e : SearchError} (unproven : p.proven = false)
      (mem : m ∈ search.rules.norm target hyps)
      (asked : input = p.ruleInput (run.tree.goal g).vars m)
      (error : search.ruleOutcome run m.rule input run.solver.state = .error e)
      (next : (run.afterRule m.rule input run.solver.state).Agrees run') :
      ExpansionFault search g ⟨run, .norm p⟩ e run'
  /-- A norm rule breaks its contract. -/
  | normCheck {run run' : Run} {p : NormProgress} {target : Term} {hyps : LocalContext}
      {m : IndexMatch} {input : RuleInput} {candidates : List Candidate}
      {value? : Option BranchValue} {e : SearchError} (unproven : p.proven = false)
      (mem : m ∈ search.rules.norm target hyps)
      (asked : input = p.ruleInput (run.tree.goal g).vars m)
      (applied : search.ruleOutcome run m.rule input run.solver.state =
        .ok (.applied candidates value?))
      (error : m.rule.checkNorm (run.tree.goal g).vars candidates = .error e)
      (next : (run.afterRule m.rule input run.solver.state).Agrees run') :
      ExpansionFault search g ⟨run, .norm p⟩ e run'
  | simplifier {run run' : Run} {p : NormProgress} {e : RuleError} {s : Solver}
      (unproven : p.proven = false) (enabled : search.options.enableSimp = true)
      (error : (search.simplifier p.goal).run.run run.solver = (.error e, s))
      (next : Run.Agrees { run with solver := s } run') :
      ExpansionFault search g ⟨run, .norm p⟩ (.simplifier p.goal e) run'
  /-- Normalization has used up its rounds. -/
  | spent {run : Run} {p : NormProgress} (changed : p.changed = true) :
      ExpansionFault search g ⟨run, .norm p⟩ (search.normBudget.2 p.goal) run
  /-- The goal that is normalized is unknown to the solver. -/
  | normGoal {run : Run} {p : NormProgress} {e : SearchError} (unproven : p.proven = false)
      (error : (describeGoal p.goal).run.run run = (.error e, run)) :
      ExpansionFault search g ⟨run, .norm p⟩ e run
  /-- The normalized goal is unknown to the solver. -/
  | goal {run run' : Run} {stage : ExpansionStage} {x : Var} {state : Snapshot} {e : SearchError}
      (place : stage = .normal x state ∨ stage = .safe x state [])
      (next : run' = run.moveTo state)
      (error : (describeGoal x).run.run run' = (.error e, run')) :
      ExpansionFault search g ⟨run, stage⟩ e run'
  | safeRule {run run' : Run} {x : Var} {state : Snapshot} {m : IndexMatch} {ms : List IndexMatch}
      {input : RuleInput} {e : SearchError}
      (asked : input = (run.tree.goal g).ruleInput x m.rule m.locations)
      (error : search.ruleOutcome run m.rule input state = .error e)
      (next : (run.afterRule m.rule input state).Agrees run') :
      ExpansionFault search g ⟨run, .safe x state (m :: ms)⟩ e run'
  | queuedRule {run run' : Run} {x : Var} {state : Snapshot} {entry : QueuedRule}
      {rest : List QueuedRule} {input : RuleInput} {e : SearchError}
      (asked : input = (run.tree.goal g).ruleInput x entry.rule entry.locations)
      (error : search.ruleOutcome run entry.rule input state = .error e)
      (next : (run.afterRule entry.rule input state).Agrees run') :
      ExpansionFault search g ⟨run, .taken x state entry rest⟩ e run'
  /-- The tree does not take the candidate of a safe rule. -/
  | commit {run : Run} {m : IndexMatch} {c : Candidate} {value? : Option BranchValue}
      {e : SearchError} {s : Solver}
      (error : (run.tree.addApplication (attachment run g m.rule.name m.rule.eagerKind c
        (run.tree.goal g).probability value?)).run.run run.solver = (.error e, s)) :
      ExpansionFault search g ⟨run, .eager m c value?⟩ e { run with solver := s }
  /-- The tree does not take a candidate of a queued rule. -/
  | attach {run : Run} {entry : QueuedRule} {probability : Percent} {value? : Option BranchValue}
      {c : Candidate} {rest : List Candidate} {e : SearchError} {s : Solver}
      (unknown : (run.tree.goal g).state = .unknown)
      (error : (run.tree.addApplication (attachment run g entry.rule.name entry.kind c
        (probability * c.probability.getD entry.probability) value?)).run.run run.solver =
          (.error e, s)) :
      ExpansionFault search g ⟨run, .offered entry probability value? (c :: rest)⟩ e
        { run with solver := s }

/-! ## What every step keeps -/

section

variable {search : Search} {postpone : Bool} {g k : GoalId} {s s' : Expansion} {x : Var}
  {state : Snapshot}

/-- A step changes marks, counters and queues, records a normalization or adds an application. -/
theorem ExpansionStep.tree_cases (h : ExpansionStep search postpone g s s') :
    s.run.tree.Noted s'.run.tree ∨
      (∃ p branch norm, s.stage = .norm p ∧ (s.run.tree.goal g).norm = .notNormal ∧
        (s.run.tree.recordNorm g branch norm).Noted s'.run.tree) ∨
      ∃ new added t solver, s.stage.Attaching ∧ new.parent = g ∧
        Ends (s.run.tree.addApplication new) s.run.solver (added, t) solver ∧
        t.Noted s'.run.tree := by
  have hmodify {t : Tree} (f : Goal → Goal) (hf : ∀ a, (f a).cluster = a.cluster ∧
      (f a).applications = a.applications ∧ (f a).var = a.var ∧ (f a).norm = a.norm ∧
      (f a).vars = a.vars ∧ (f a).origin = a.origin) : t.Noted (t.modifyGoal g f) :=
    Tree.noted_modifyGoal t g hf
  cases h with
  | enter => exact .inl (hmodify _ fun _ => ⟨rfl, rfl, rfl, rfl, rfl, rfl⟩)
  | giveUp _ next =>
    rw [next.tree]
    refine .inl (.trans ?_ (Tree.noted_markForcedUnprovable _ g))
    exact hmodify _ fun _ => ⟨rfl, rfl, rfl, rfl, rfl, rfl⟩
  | known | leave | begin | pick | resume | finish | exhaust => exact .inl (.refl _)
  | round _ next | normFail _ _ _ _ next | rewrite _ _ _ _ _ next | simplify _ _ _ next
  | skip _ _ _ _ next | choose _ _ _ next | offer _ _ next =>
    rw [next.tree]
    exact .inl (.refl _)
  | normalize norm => exact .inr (.inl ⟨_, _, _, rfl, norm, .refl _⟩)
  | close norm _ next =>
    rw [next.tree]
    exact .inr (.inl ⟨_, _, _, rfl, norm, (Tree.settling_markProvenByNorm _ g).noted⟩)
  | fail _ _ next | postpone _ _ _ _ next | reject _ _ next =>
    rw [next.tree]
    exact .inl (hmodify _ fun _ => ⟨rfl, rfl, rfl, rfl, rfl, rfl⟩)
  | select _ _ next =>
    rw [next]
    exact .inl (hmodify _ fun _ => ⟨rfl, rfl, rfl, rfl, rfl, rfl⟩)
  | take => exact .inl (hmodify _ fun _ => ⟨rfl, rfl, rfl, rfl, rfl, rfl⟩)
  | commit ends next =>
    rw [next]
    exact .inr (.inr ⟨_, _, _, _, trivial, rfl, ends,
      hmodify _ fun _ => ⟨rfl, rfl, rfl, rfl, rfl, rfl⟩⟩)
  | attach _ ends next =>
    rw [next]
    exact .inr (.inr ⟨_, _, _, _, trivial, rfl, ends, .refl _⟩)
  | retire next | requeue next =>
    rw [next]
    exact .inl (Tree.settling_checkExhausted _ g).noted

/-- Most steps change nothing that a tree records of states and applications. -/
theorem ExpansionStep.noted (h : ExpansionStep search postpone g s s')
    (hn : ∀ p, s.stage ≠ .norm p) (ha : ¬ s.stage.Attaching) : s.run.tree.Noted s'.run.tree := by
  rcases h.tree_cases with hnoted | ⟨p, -, -, hp, -⟩ | ⟨-, -, -, -, ha', -⟩
  · exact hnoted
  · exact (hn p hp).elim
  · exact (ha ha').elim

theorem ExpansionStep.hasGoal (h : ExpansionStep search postpone g s s')
    (hg : s.run.tree.HasGoal g) (hk : s.run.tree.HasGoal k) : s'.run.tree.HasGoal k := by
  rcases h.tree_cases with
    hn | ⟨-, branch, norm, -, -, hn⟩ | ⟨new, added, t, solver, -, rfl, hadd, hn⟩
  · exact hn.hasGoal.2 hk
  · exact hn.hasGoal.2 (Tree.hasGoal_modifyGoal _ hk)
  · exact hn.hasGoal.2 ((Tree.addApplication_goal hadd hg).1 k hk).1

/-- A goal is normalized once. -/
theorem ExpansionStep.norm_eq (h : ExpansionStep search postpone g s s')
    (hg : s.run.tree.HasGoal g) (hx : (s.run.tree.goal k).norm = .normal x state) :
    (s'.run.tree.goal k).norm = .normal x state := by
  rcases h.tree_cases with
    hn | ⟨-, branch, norm, -, hnot, hn⟩ | ⟨new, added, t, solver, -, rfl, hadd, hn⟩
  · exact (hn.norm k).trans hx
  · have hne : k ≠ g := by
      rintro rfl
      exact nomatch hnot.symm.trans hx
    rw [hn.norm k, Tree.goal_recordNorm_of_ne hne]
    exact hx
  · exact (hn.norm k).trans (((Tree.addApplication_goal hadd hg).1 k
      (Tree.hasGoal_of_normal hx)).2.trans hx)

theorem ExpansionStep.linked (h : ExpansionStep search postpone g s s')
    (hg : s.run.tree.HasGoal g) (hl : s.run.tree.Linked) : s'.run.tree.Linked := by
  rcases h.tree_cases with
    hn | ⟨-, branch, norm, -, -, hn⟩ | ⟨new, added, t, solver, -, rfl, hadd, hn⟩
  · exact hn.linked hl
  · exact hn.linked ((Tree.sameLinks_recordNorm ..).linked hl)
  · exact hn.linked (hl.addApplication hadd hg)

theorem ExpansionFault.tree_eq {e : SearchError} {run : Run}
    (h : ExpansionFault search g s e run) : run.tree = s.run.tree := by
  cases h with
  | noRounds | spent | normGoal | commit | attach => rfl
  | firstGoal _ next => exact next.tree
  | normRule _ _ _ _ next | normCheck _ _ _ _ _ next | simplifier _ _ _ next | safeRule _ _ next
  | queuedRule _ _ next => exact next.tree
  | goal _ next => rw [next]

theorem ExpansionFault.not_done {e : SearchError} {run : Run}
    (h : ExpansionFault search g s e run) : ¬ s.stage.isDone = true := by
  cases h with
  | goal place => rcases place with rfl | rfl <;> exact nofun
  | noRounds | firstGoal | normRule | normCheck | simplifier | spent | normGoal | safeRule
  | queuedRule | commit | attach => exact nofun

/-- What the tree records of the goal `g` at each stage of its expansion. -/
abbrev Fits (g : GoalId) (t : Tree) : ExpansionStage → Prop
  | .waiting | .entered | .done _ => True
  | .norm _ => (t.goal g).norm = .notNormal
  | .normal x state | .safe x state _ => (t.goal g).norm = .normal x state
  | .eager _ c _ => (∃ x state, (t.goal g).norm = .normal x state) ∧
      c.assigned.disjoint (t.goal g).vars = true
  | .offered .. | .tried => ∃ x state, (t.goal g).norm = .normal x state
  | .queued x state queue => (t.goal g).norm = .normal x state ∧ (t.goal g).queue = queue
  | .taken x state _ rest => (t.goal g).norm = .normal x state ∧ (t.goal g).queue = rest

/-- The goal is in the tree, which is as the stage says. -/
structure Consistent (g : GoalId) (s : Expansion) : Prop where
  has : s.run.tree.HasGoal g
  fits : Fits g s.run.tree s.stage

theorem ExpansionStep.consistent (h : ExpansionStep search postpone g s s')
    (hc : Consistent g s) : Consistent g s' := by
  have hnorm {y : Var} {post : Snapshot} (hy : (s.run.tree.goal g).norm = .normal y post) :
      (s'.run.tree.goal g).norm = .normal y post := h.norm_eq hc.has hy
  refine ⟨h.hasGoal hc.has hc.has, ?_⟩
  obtain ⟨has, hc⟩ := hc
  cases h with
  | enter | giveUp | leave | close | commit | retire | requeue => trivial
  | known norm | begin norm => exact norm
  | round _ next | normFail _ _ _ _ next | rewrite _ _ _ _ _ next | simplify _ _ _ next =>
    rwa [Fits, next.tree]
  | normalize => rw [Fits, Tree.goal_recordNorm_self has]
  | pick => exact hc
  | fail | postpone | skip => exact hnorm hc
  | choose _ _ eager next =>
    refine ⟨⟨_, _, hnorm hc⟩, ?_⟩
    rw [next.tree]
    exact (eagerCandidate?_eq_some eager).2
  | select => exact ⟨hnorm hc, rfl⟩
  | resume => exact ⟨hc, rfl⟩
  | take => exact ⟨hnorm hc.1, by rw [Tree.goal_modifyGoal_self has]⟩
  | reject _ _ next =>
    refine ⟨hnorm hc.1, ?_⟩
    rw [next.tree, Tree.goal_modifyGoal_self has]
    exact hc.2
  | offer => exact ⟨_, _, hnorm hc.1⟩
  | attach =>
    obtain ⟨x, state, hx⟩ := hc
    exact ⟨x, state, hnorm hx⟩
  | finish => exact hc
  | exhaust => exact ⟨_, _, hc.1⟩

end

end Search

end ProofSearch
