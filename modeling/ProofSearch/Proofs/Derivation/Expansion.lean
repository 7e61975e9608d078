import ProofSearch.Proofs.Derivation.Exploration
import ProofSearch.Proofs.Derivation.Soundness

/-!
# Expanding goals by determined rules

A search whose rules are all tentative, determined and selected for every goal keeps its tree
explored.  Nothing in it fails, except that loops without limits are cut off when they are out of
fuel.

1. `Unrestricted`: such a search; `unrestricted_ofRules`: given by its rules and options.
2. `exists_ruleOutcome`: a rule that fails offers no way, and otherwise its candidates are the only
   one.
3. `Facing`: a goal of an explored tree that is being expanded; `StageExplored`: how much of it is
   explored at each stage.
4. `ExpansionStep.explored`, `ExpansionFault.eq_outOfFuel`: the steps keep this, and nothing fails
   but for want of fuel.
5. `Exploring.yields_expandGoal`, `Exploring.yields_loop`: the tree is explored after a goal has
   been expanded, and when the loop ends.
-/

namespace ProofSearch

/-! ## Searches -/

/-- The search tries its rules, which are determined, on every goal. -/
structure Search.Unrestricted (rules : List RuleSpec) (search : Search) : Prop where
  simplifier : search.simplifier = .none
  depth : search.options.maxRuleApplicationDepth = 0
  norm : ∀ A hyps, search.rules.norm A hyps = []
  safe : ∀ A hyps, search.rules.safe A hyps = []
  tentative : ∀ A hyps q, (∃ m ∈ search.rules.tentative A hyps, m.rule = q) ↔
    ∃ r ∈ rules, r.rule = q
  determined : ∀ r ∈ rules, r.body.isDetermined = true

section

variable {rules : List RuleSpec}

/-- Tentative rules are kept as such. -/
theorem RuleSet.ofList_tentative {qs : List Rule}
    (h : ∀ q ∈ qs, ∃ p, q.priority = .tentative p) : (ofList qs).norm = [] ∧ (ofList qs).safe = [] ∧
      ∀ q, q ∈ (ofList qs).tentative ↔ q ∈ qs := by
  have hfold (rs : RuleSet) : (qs.foldl add rs).norm = rs.norm ∧ (qs.foldl add rs).safe = rs.safe ∧
      ∀ q, q ∈ (qs.foldl add rs).tentative ↔ q ∈ rs.tentative ∨ q ∈ qs := by
    induction qs generalizing rs with
    | nil => simp
    | cons r qs ih =>
      obtain ⟨p, hp⟩ := h r List.mem_cons_self
      obtain ⟨hnorm, hsafe, hmem⟩ := ih (fun q hq => h q (List.mem_cons_of_mem r hq)) (rs.add r)
      have hadd : rs.add r =
          { rs with tentative := sortOrdered Rule.probabilityLE (rs.tentative ++ [r]) } := by
        rw [add, hp]
      rw [List.foldl_cons, hnorm, hsafe, hadd]
      refine ⟨rfl, rfl, fun q => ?_⟩
      rw [← hadd, hmem, hadd, (sortOrdered_perm Rule.probabilityLE _).mem_iff, List.mem_append,
        List.mem_singleton, List.mem_cons, or_assoc]
  obtain ⟨hnorm, hsafe, hmem⟩ := hfold empty
  exact ⟨hnorm, hsafe, fun q => (hmem q).trans (by simp [empty])⟩

theorem RuleSpec.isUnrestricted_iff {r : RuleSpec} : r.isUnrestricted = true ↔
    (∃ p, r.rule.priority = .tentative p) ∧ r.rule.index = [] ∧ r.body.isDetermined = true := by
  obtain ⟨name, priority, index, body⟩ := r
  cases priority <;> simp [isUnrestricted, rule]

theorem RuleSpec.isClosed_of_isUnrestricted (h : ∀ r ∈ rules, r.isUnrestricted = true) :
    ∀ c ∈ clauses rules, c.isClosed = true := by
  intro c hc
  obtain ⟨r, hr, hbody⟩ := exists_of_mem_clauses hc
  have hdetermined := (isUnrestricted_iff.1 (h r hr)).2.2
  rw [hbody] at hdetermined
  exact (Clause.isDetermined_iff.1 hdetermined).1

/-- Rules without index keys are selected for every goal. -/
theorem mem_selectRules {qs : List Rule} (h : ∀ q ∈ qs, q.index = []) {A : Term}
    {hyps : LocalContext} {q : Rule} : (∃ m ∈ selectRules qs A hyps, m.rule = q) ↔ q ∈ qs := by
  constructor
  · rintro ⟨m, hm, rfl⟩
    exact mem_of_mem_selectRules hm
  · intro hq
    refine ⟨⟨q, []⟩, List.mem_filterMap.2 ⟨q, hq, ?_⟩, rfl⟩
    simp [Rule.locations?, h q hq]

theorem Search.unrestricted_ofRules {options : Options}
    (hrules : ∀ r ∈ rules, r.isUnrestricted = true)
    (hdepth : options.maxRuleApplicationDepth = 0) (fuel : Nat) :
    (ofRules rules options fuel).Unrestricted rules := by
  have hrule (r : RuleSpec) (hr : r ∈ rules) := RuleSpec.isUnrestricted_iff.1 (hrules r hr)
  have hpriority : ∀ q ∈ rules.map RuleSpec.rule, ∃ p, q.priority = .tentative p := by
    intro q hq
    obtain ⟨r, hr, rfl⟩ := List.mem_map.1 hq
    exact (hrule r hr).1
  obtain ⟨hnorm, hsafe, htentative⟩ := RuleSet.ofList_tentative hpriority
  refine ⟨rfl, hdepth, fun A hyps => ?_, fun A hyps => ?_, fun A hyps q => ?_,
    fun r hr => (hrule r hr).2.2⟩
  · simp [ofRules, RuleSet.query, hnorm, selectRules]
  · simp [ofRules, RuleSet.query, hsafe, selectRules]
  · refine (mem_selectRules fun q hq => ?_).trans ((htentative q).trans List.mem_map)
    obtain ⟨r, hr, rfl⟩ := List.mem_map.1 ((htentative q).1 hq)
    exact (hrule r hr).2.1

end

/-! ## Rules -/

/-- The outcome is a failure if there is no way in `W`, and otherwise gives the only one. -/
def Reports (P : Problem) (σ : Valuation) (m : Context) (x : Var) (W : List Term → Prop) :
    RuleOutcome → Prop
  | .failed _ => ∀ premises, ¬ W premises
  | .applied candidates _ => candidates ≠ [] ∧ ∀ c ∈ candidates, ∃ premises,
      (∀ ts, W ts ↔ ts = premises) ∧ Reduces P σ m x premises c.post.context c.goals

section

variable {P : Problem} {σ : Valuation} {x : Var} {W : List Term → Prop}

theorem exists_mapM_eq_ok {ε α β : Type} {f : α → Except ε β} {R : β → Prop} {as : List α}
    (h : ∀ a ∈ as, ∃ b, f a = .ok b ∧ R b) :
    ∃ bs, as.mapM f = .ok bs ∧ bs.length = as.length ∧ ∀ b ∈ bs, R b := by
  induction as with
  | nil => exact ⟨[], rfl, rfl, nofun⟩
  | cons a as ih =>
    obtain ⟨b, hb, hr⟩ := h a List.mem_cons_self
    obtain ⟨bs, hbs, hlen, hall⟩ := ih fun a' ha' => h a' (List.mem_cons_of_mem a ha')
    refine ⟨b :: bs, by rw [List.mapM_cons, hb, hbs]; rfl, by simp [hlen], fun b' hb' => ?_⟩
    rcases List.mem_cons.1 hb' with rfl | hb'
    · exact hr
    · exact hall b' hb'

/-- What a proposal reports passes the check, and all its goals are open. -/
theorem ProposesWay.check {pre : Snapshot} {p : Proposal} (h : ProposesWay P σ pre.context x W p)
    (rule : String) (b : Bool) : ∃ c, p.check rule pre b = .ok c ∧ ∃ premises,
      (∀ ts, W ts ↔ ts = premises) ∧ Reduces P σ pre.context x premises c.post.context c.goals := by
  obtain ⟨premises, hway, hreduces⟩ := h.way
  have hopen : (p.goals.filter fun y => !p.post.context.isAssigned y) = p.goals := by
    refine List.filter_eq_self.2 fun y hy => ?_
    obtain ⟨B, -, -, -, hopen, -⟩ := exists_right_of_mem hreduces.goals hy
    rw [hopen]
    rfl
  refine ⟨⟨p.goals.filter fun y => !p.post.context.isAssigned y, p.post, p.probability,
    p.post.context.declaredSince pre.context, p.post.context.assignedSince pre.context⟩, ?_,
    premises, hway, hopen.symm ▸ hreduces⟩
  unfold Proposal.check
  rw [h.introduced, h.assigned]
  cases b with
  | true =>
    simp [checkEffect]
    rfl
  | false => rfl

/-- The goals that a reduction leaves depend on no variable. -/
theorem Reduces.dependencies {m n : Context} {premises : List Term} {goals : List Var} {y : Var}
    (h : Reduces P σ m x premises n goals) (hy : y ∈ goals) : n.dependencies y = .ok ∅ := by
  obtain ⟨B, -, hown, -, -, htype⟩ := exists_right_of_mem h.goals hy
  obtain ⟨d, hd, rfl⟩ := Context.exists_decl?_of_goalType htype
  refine Context.dependencies_closed hd (h.tidy.goalType_closed hown htype) fun k hk => ?_
  rw [(h.tidy.decl y d hown hd).hyps] at hk
  have hclosed := P.hyps_closed k hk
  rwa [Context.instantiate_closed hclosed]

/-- The effects of a determined rule are those that it reports. -/
theorem exists_examine_eq_ok {pre : Snapshot} {out : RuleOutput} (hne : out.proposals ≠ [])
    (hps : ∀ p ∈ out.proposals, ProposesWay P σ pre.context x W p) (q : Rule) (b : Bool) :
    ∃ outcome, q.examine pre b (.ok out) = .ok outcome ∧ Reports P σ pre.context x W outcome := by
  obtain ⟨proposals, branch⟩ := out
  obtain ⟨cs, hcs, hlen, hall⟩ := exists_mapM_eq_ok fun p hp => (hps p hp).check q.name b
  refine ⟨.applied cs branch, ?_, ?_, hall⟩
  · unfold Rule.examine
    split
    · next h => cases h
    · next h =>
      cases h
      exact (hne rfl).elim
    · next h =>
      cases h
      rw [hcs]
      rfl
  · rintro rfl
    exact hne (List.eq_nil_of_length_eq_zero hlen.symm)

end

namespace Search

open SearchM

variable {P : Problem} {σ σ' : Valuation} {rules : List RuleSpec} {search : Search} {run run' : Run}

/-- A determined rule runs without an error of the search and reports the only way that it
offers. -/
theorem exists_ruleOutcome {q : Rule} {input : RuleInput} {pre : Snapshot} {d : VarDecl}
    (hu : search.Unrestricted rules) (hq : ∃ r ∈ rules, r.rule = q)
    (h : Poised P σ { run.solver with state := pre } input.goal d) :
    ∃ outcome σ', search.ruleOutcome run q input pre = .ok outcome ∧ σ.Grows σ' ∧
      σ'.last = (run.afterRule q input pre).solver.lastId ∧
      Reports P σ' pre.context input.goal
        (RuleSpec.Offers rules P.hyps (pre.context.instantiate d.type) q) outcome := by
  have hresponds := responds_rules h hu.determined hq rfl
  have hcall : (q.call input pre).run run.solver =
      let (result, s) := (q.procedure input).run.run { run.solver with state := pre }
      (result, { s with state := pre }) := rfl
  simp only [ruleOutcome, hcall]
  rcases hresponds.cases with ⟨out, u, hx, hne, σ', hgrows, hlast, hps⟩ | ⟨e, u, hx, hnone⟩
  · rw [show (q.procedure input).run.run { run.solver with state := pre } = (.ok out, u) from hx]
    obtain ⟨outcome, hexamine, hreports⟩ := exists_examine_eq_ok hne hps q
      search.options.checkRuleEffects
    exact ⟨outcome, σ', hexamine, hgrows, hlast, hreports⟩
  · rw [hx]
    obtain ⟨r, -, rfl⟩ := hq
    have hage := r.ages_rule input { run.solver with state := pre }
    rw [hx] at hage
    exact ⟨_, σ.raise (h.last.trans_le hage), rfl, σ.grows_raise _, rfl, hnone⟩

/-! ## Goals -/

/-- The goal `g` of an explored tree is to be proven as `x` from the given state. -/
structure Facing (P : Problem) (σ : Valuation) (rules : List RuleSpec)
    (exempt : GoalId → Rule → Prop) (g : GoalId) (x : Var) (state : Snapshot) (run : Run) :
    Prop where
  last : σ.last = run.solver.lastId
  explored : Explored P σ rules exempt run.tree
  has : run.tree.HasGoal g
  var : (run.tree.goal g).var = x
  pre : run.tree.preState g = state

variable {exempt exempt' : GoalId → Rule → Prop} {g : GoalId} {x : Var} {state : Snapshot}

namespace Facing

theorem exists_poised (h : Facing P σ rules exempt g x state run) : ∃ d,
    Poised P σ { run.solver with state := state } x d ∧
      run.tree.HasType g (state.context.instantiate d.type) := by
  obtain ⟨htidy, hopen⟩ := h.explored.state h.has
  rw [h.var, h.pre] at hopen
  rw [h.pre] at htidy
  obtain ⟨d, hd⟩ := Context.exists_decl? hopen.declared
  refine ⟨d, ⟨htidy, h.last, hopen.own, hopen.proof, hd, hopen.unbound⟩, ?_⟩
  rw [Tree.HasType, h.var, h.pre, Context.goalType, show state.context.decl? x = some d from hd]

/-- The goal stays in place in a tree that retains it. -/
theorem follow (h : Facing P σ rules exempt g x state run) (hlast : σ'.last = run'.solver.lastId)
    (he : Explored P σ' rules exempt' run'.tree) (hr : run.tree.Retains run'.tree) :
    Facing P σ' rules exempt' g x state run' :=
  ⟨hlast, he, hr.hasGoal g h.has, (hr.var g h.has).trans h.var,
    (hr.preState_eq h.explored.linked h.has).trans h.pre⟩

theorem wait (h : Facing P σ rules exempt g x state run) (htree : run'.tree = run.tree)
    (hgrows : σ.Grows σ') (hlast : σ'.last = run'.solver.lastId) :
    Facing P σ' rules exempt g x state run' :=
  h.follow hlast (htree ▸ h.explored.grow hgrows) (htree ▸ (Tree.Settling.refl run.tree).retains)

/-- A rule that is run on the goal reports the only way that it offers. -/
theorem exists_outcome {q : Rule} {input : RuleInput} (h : Facing P σ rules exempt g x state run)
    (hx : input.goal = x) (hu : search.Unrestricted rules) (hq : ∃ r ∈ rules, r.rule = q) :
    ∃ A outcome σ', run.tree.HasType g A ∧ search.ruleOutcome run q input state = .ok outcome ∧
      Reports P σ' state.context x (RuleSpec.Offers rules P.hyps A q) outcome ∧
      ∀ run', (run.afterRule q input state).Agrees run' →
        Facing P σ' rules exempt g x state run' := by
  subst hx
  obtain ⟨d, hpoised, htype⟩ := h.exists_poised
  obtain ⟨outcome, σ', houtcome, hgrows, hlast, hreports⟩ := exists_ruleOutcome hu hq hpoised
  refine ⟨_, outcome, σ', htype, houtcome, hreports, fun run' hnext => ?_⟩
  exact h.wait hnext.tree hgrows (by rw [hnext.solver]; exact hlast)

/-- A candidate for a way that a rule offers is attached. -/
theorem attached {c : Candidate} {A : Term} {q : Rule} {premises : List Term} (name : String)
    (probability : Percent) (value? : Option BranchValue)
    (h : Facing P σ rules exempt g x state run) (hA : run.tree.HasType g A)
    (ho : RuleSpec.Offers rules P.hyps A q premises)
    (hreduces : Reduces P σ state.context x premises c.post.context c.goals) :
    ∃ added t, Ends (run.tree.addApplication
        (attachment run g name .tentative c probability value?)) run.solver (added, t) run.solver ∧
      Explored P σ rules exempt t ∧ run.tree.Retains t ∧ t.Realizes g premises := by
  obtain ⟨spec, hspec, -, ho⟩ := ho
  obtain ⟨added, t, hends, hsettling⟩ := Tree.ends_addApplication
    (attachment run g name .tentative c probability value?) run.solver h.explored.vars
    hreduces.nodup fun y hy => hreduces.dependencies hy
  obtain ⟨hexplored, hretains, hrealizes⟩ := h.explored.addNodes
    (attachment run g name .tentative c probability value?) h.has rfl hspec hA ho
    (by rw [← h.pre, ← h.var] at hreduces; exact hreduces) rfl
  exact ⟨added, t, hends, hexplored.settle hsettling, hretains.trans hsettling.retains,
    hsettling.retains.realizes hexplored.linked (hretains.hasGoal g h.has) hrealizes⟩

/-- A change of the goal's own data that accounts for its rules. -/
theorem modifyGoal (h : Facing P σ rules exempt g x state run) {f : Goal → Goal}
    (hf : ∀ a, (f a).var = a.var ∧ (f a).cluster = a.cluster ∧ (f a).applications = a.applications)
    (hgoal : Undisturbed rules state (f (run.tree.goal g)))
    (htried : (f (run.tree.goal g)).selected = true → ∀ q, (∃ r ∈ rules, r.rule = q) →
      exempt' g q ∨ Tried P rules run.tree g (f (run.tree.goal g)).queue q)
    (hother : ∀ k q, k ≠ g → exempt k q → exempt' k q) :
    Facing P σ rules exempt' g x state { run with tree := run.tree.modifyGoal g f } :=
  h.follow h.last (h.explored.modifyGoal hf (h.pre ▸ hgoal) htried hother)
    (Tree.retains_modifyGoal run.tree g (hf _).1 (hf _).2.1 (hf _).2.2)

/-- Notes about the goal that do not touch its rules. -/
theorem note (h : Facing P σ rules exempt g x state run) {f : Goal → Goal}
    (hf : ∀ a, f a = { a with
      branch := (f a).branch, failedRules := (f a).failedRules, expandedIn := (f a).expandedIn }) :
    Facing P σ rules exempt g x state { run with tree := run.tree.modifyGoal g f } := by
  obtain ⟨hvars, hforced, hnorm, hqueue⟩ := h.explored.goal g h.has
  rw [h.pre] at hnorm
  refine h.modifyGoal (fun a => ?_) ?_ (fun hsel q hq => ?_) fun _ _ _ => id
  · rw [hf]
    exact ⟨rfl, rfl, rfl⟩
  · rw [hf]
    exact ⟨hvars, hforced, hnorm, hqueue⟩
  · rw [hf] at hsel ⊢
    exact h.explored.tried g h.has hsel q hq

/-- A rule that is taken off the queue is exempt until it has been tried. -/
theorem take {entry : QueuedRule} {rest : List QueuedRule}
    (h : Facing P σ rules nothing g x state run)
    (hqueue : (run.tree.goal g).queue = entry :: rest) :
    Facing P σ rules (only g entry.rule) g x state
      { run with tree := run.tree.modifyGoal g fun goal => { goal with queue := rest } } := by
  obtain ⟨hvars, hforced, hnorm, hentries⟩ := h.explored.goal g h.has
  rw [hqueue] at hentries
  refine h.modifyGoal (fun _ => ⟨rfl, rfl, rfl⟩) ⟨hvars, hforced, h.pre ▸ hnorm, fun e he =>
    hentries e (List.mem_cons_of_mem entry he)⟩ (fun hsel q hq => ?_) fun _ _ _ => False.elim
  rcases (h.explored.tried g h.has hsel q hq).resolve_left id with ⟨e, he, rfl⟩ | hways
  · rw [hqueue] at he
    rcases List.mem_cons.1 he with rfl | he
    · exact .inl ⟨rfl, rfl⟩
    · exact .inr (.inl ⟨e, he, rfl⟩)
  · exact .inr (.inr hways)

/-- A rule whose ways are all realized has been tried. -/
theorem discharge {q : Rule} {A : Term} (h : Facing P σ rules (only g q) g x state run)
    (hA : run.tree.HasType g A)
    (hways : ∀ ts, RuleSpec.Offers rules P.hyps A q ts → run.tree.Realizes g ts) :
    Facing P σ rules nothing g x state run := by
  refine { h with explored := h.explored.discharge ?_ }
  rintro k p - ⟨rfl, rfl⟩
  refine .inr fun B ts hB => ?_
  obtain rfl := Except.ok.inj (hB.symm.trans hA)
  exact hways ts

/-- All rules are queued. -/
theorem select {A : Term} {hyps : LocalContext} (h : Facing P σ rules nothing g x state run)
    (hu : search.Unrestricted rules) :
    Facing P σ rules nothing g x state { run with
      tree := run.tree.modifyGoal g fun goal => { goal with
        queue := sortOrdered QueuedRule.le
          (goal.queue ++ (search.rules.tentative A hyps).map .ofMatch)
        selected := true } } := by
  obtain ⟨hvars, hforced, hnorm, hqueue⟩ := h.explored.goal g h.has
  have hmem {e : QueuedRule} : e ∈ sortOrdered QueuedRule.le ((run.tree.goal g).queue ++
      (search.rules.tentative A hyps).map .ofMatch) ↔
        e ∈ (run.tree.goal g).queue ∨ ∃ m ∈ search.rules.tentative A hyps, .ofMatch m = e := by
    rw [(sortOrdered_perm QueuedRule.le _).mem_iff, List.mem_append, List.mem_map]
  refine h.modifyGoal (fun _ => ⟨rfl, rfl, rfl⟩) ⟨hvars, hforced, h.pre ▸ hnorm, fun e he => ?_⟩
    (fun _ q hq => .inr (.inl ?_)) fun _ _ _ => id
  · rcases hmem.1 he with he | ⟨m, hm, rfl⟩
    · exact hqueue e he
    · exact ⟨rfl, (hu.tentative A hyps m.rule).1 ⟨m, hm, rfl⟩⟩
  · obtain ⟨m, hm, rfl⟩ := (hu.tentative A hyps q).2 hq
    exact ⟨_, hmem.2 (.inr ⟨m, hm, rfl⟩), rfl⟩

/-- The goal is recorded as normal as it is. -/
theorem recordNorm (h : Facing P σ rules exempt g x state run) (branch : BranchState) :
    Facing P σ rules exempt g x state
      { run with tree := run.tree.recordNorm g branch (.normal x state) } := by
  obtain ⟨hvars, hforced, -, hqueue⟩ := h.explored.goal g h.has
  exact h.modifyGoal (fun _ => ⟨rfl, rfl, rfl⟩) ⟨hvars, hforced, .inr (by rw [h.var]), hqueue⟩
    (h.explored.tried g h.has) fun _ _ _ => id

theorem not_proven {post : Snapshot} (h : Facing P σ rules exempt g x state run) :
    (run.tree.goal g).norm ≠ .proven post := by
  rcases (h.explored.goal g h.has).norm with hnorm | hnorm <;> rw [hnorm] <;> exact nofun

theorem normal_eq {y : Var} {post : Snapshot} (h : Facing P σ rules exempt g x state run)
    (hy : (run.tree.goal g).norm = .normal y post) : x = y ∧ state = post := by
  rcases (h.explored.goal g h.has).norm with hnorm | hnorm <;> rw [hnorm] at hy <;> cases hy
  exact ⟨h.var.symm, h.pre.symm⟩

/-- The goal can be looked up in its state. -/
theorem describeGoal_ne {e : SearchError} (h : Facing P σ rules exempt g x state run)
    (hs : run'.solver.state = state) : (describeGoal x).run.run run' ≠ (.error e, run') := by
  obtain ⟨d, hpoised, -⟩ := h.exists_poised
  have hd : run'.solver.context.decl? x = some d := by
    subst hs
    exact hpoised.decl
  have hends : Ends (describeGoal x) run' (run'.solver.context.instantiate d.type,
      d.hyps.map fun h => { h with type := run'.solver.context.instantiate h.type }) run' := by
    simp only [describeGoal, ends_bind, ends_onSolverM, ends_adapt, Solver.ends_goalType,
      Solver.ends_goalHyps, ends_pure]
    exact ⟨_, run', ⟨_, ⟨d, hd, rfl, rfl⟩, rfl⟩, _, run', ⟨_, ⟨d, hd, rfl, rfl⟩, rfl⟩, rfl, rfl⟩
  intro he
  cases he.symm.trans hends

end Facing

theorem normBudget_spent (search : Search) (h : search.normBudget.1 = 0) (y : Var) :
    search.normBudget.2 y = .outOfFuel := by
  cases hlimit : search.options.maxNormIterations with
  | zero => simp [normBudget, hlimit]
  | succ limit => simp [normBudget, hlimit] at h

/-! ## Steps -/

/-- The tree is explored. -/
def Exploring (P : Problem) (rules : List RuleSpec) (run : Run) : Prop :=
  ∃ σ : Valuation, σ.last = run.solver.lastId ∧ Explored P σ rules nothing run.tree

/-- All but one of the rules are accounted for, and the goal is not decided. -/
def Undecided (P : Problem) (rules : List RuleSpec) (exempt : GoalId → Rule → Prop) (g : GoalId)
    (x : Var) (state : Snapshot) (run : Run) : Prop :=
  (∃ σ, Facing P σ rules exempt g x state run) ∧ (run.tree.goal g).state = .unknown

/-- The candidates of the rule `q` are the only way that it offers for the goal.  The goal is not
decided until one of them is attached. -/
def Attaching (P : Problem) (rules : List RuleSpec) (g : GoalId) (q : Rule) (run : Run)
    (candidates : List Candidate) : Prop :=
  ∃ σ x state A, Facing P σ rules (only g q) g x state run ∧ run.tree.HasType g A ∧
    (∀ c ∈ candidates, ∃ premises, (∀ ts, RuleSpec.Offers rules P.hyps A q ts ↔ ts = premises) ∧
      Reduces P σ state.context x premises c.post.context c.goals) ∧
    (candidates ≠ [] ∧ (run.tree.goal g).state = .unknown ∨
      ∀ ts, RuleSpec.Offers rules P.hyps A q ts → run.tree.Realizes g ts)

/-- How much is explored at each stage of the expansion of the goal `g`. -/
abbrev StageExplored (P : Problem) (rules : List RuleSpec) (g : GoalId) (run : Run) :
    ExpansionStage → Prop
  | .waiting | .entered => ∃ x state, Undecided P rules nothing g x state run
  | .norm p => Undecided P rules nothing g p.goal run.solver.state run ∧ p.proven = false ∧
      p.changed = false
  | .normal x state | .safe x state [] => Undecided P rules nothing g x state run
  | .safe _ _ (_ :: _) | .eager .. => False
  | .queued x state _ => Undecided P rules nothing g x state run
  | .taken x state entry _ => entry.kind = .tentative ∧ (∃ r ∈ rules, r.rule = entry.rule) ∧
      Undecided P rules (only g entry.rule) g x state run
  | .offered entry _ _ candidates =>
      entry.kind = .tentative ∧ Attaching P rules g entry.rule run candidates
  | .tried | .done _ => Exploring P rules run

section

variable {postpone : Bool} {s s' : Expansion}

theorem Undecided.wait (h : Undecided P rules exempt g x state run) (htree : run'.tree = run.tree)
    (hlast : run'.solver.lastId = run.solver.lastId) :
    Undecided P rules exempt g x state run' := by
  obtain ⟨⟨σ, hf⟩, hun⟩ := h
  exact ⟨⟨σ, hf.wait htree (.refl σ) (hf.last.trans hlast.symm)⟩, htree ▸ hun⟩

theorem Undecided.exploring (h : Undecided P rules nothing g x state run) :
    Exploring P rules run := by
  obtain ⟨⟨σ, hf⟩, -⟩ := h
  exact ⟨σ, hf.last, hf.explored⟩

/-- The next candidate is attached, and so the only way is realized. -/
theorem Attaching.attach {q : Rule} {c : Candidate} {rest : List Candidate} {name : String}
    {probability : Percent} {value? : Option BranchValue} {added : AddedApplication} {tree : Tree}
    {u : Solver} (h : Attaching P rules g q run (c :: rest))
    (ends : Ends (run.tree.addApplication
      (attachment run g name .tentative c probability value?)) run.solver (added, tree) u)
    (htree : run'.tree = tree) (hsolver : run'.solver = u) : Attaching P rules g q run' rest := by
  obtain ⟨σ, x, state, A, hf, hA, hways, -⟩ := h
  obtain ⟨premises, hway, hreduces⟩ := hways c List.mem_cons_self
  obtain ⟨added', t, hends, hexplored, hretains, hrealizes⟩ :=
    hf.attached name probability value? hA
      ((hway premises).2 rfl) hreduces
  cases (show _ = _ from hends).symm.trans ends
  subst htree
  refine ⟨σ, x, state, A, hf.follow (hsolver ▸ hf.last) hexplored hretains,
    (hretains.hasType_iff hf.explored.linked hf.has).2 hA,
    fun c' hc' => hways c' (List.mem_cons_of_mem c hc'), .inr fun ts hts => ?_⟩
  rw [(hway ts).1 hts]
  exact hrealizes

theorem ExpansionStep.explored (h : ExpansionStep search postpone g s s')
    (hu : search.Unrestricted rules) (hc : Consistent g s)
    (he : StageExplored P rules g s.run s.stage) : StageExplored P rules g s'.run s'.stage := by
  have hg := hc.has
  cases h with
  | enter =>
    obtain ⟨x, state, ⟨σ, hf⟩, hun⟩ := he
    refine ⟨x, state, ⟨σ, hf.note fun _ => rfl⟩, ?_⟩
    rw [Tree.goal_modifyGoal_self hg]
    exact hun
  | giveUp deep => simp [tooDeep, hu.depth] at deep
  | known norm =>
    obtain ⟨x, state, ⟨σ, hf⟩, hun⟩ := he
    obtain ⟨rfl, rfl⟩ := hf.normal_eq norm
    exact ⟨⟨σ, hf⟩, hun⟩
  | leave norm =>
    obtain ⟨x, state, ⟨σ, hf⟩, -⟩ := he
    exact (hf.not_proven norm).elim
  | begin =>
    obtain ⟨x, state, ⟨σ, hf⟩, hun⟩ := he
    obtain ⟨rfl, rfl⟩ := And.intro hf.var hf.pre
    exact ⟨⟨⟨σ, hf.wait rfl (.refl σ) hf.last⟩, hun⟩, rfl, rfl⟩
  | round _ next =>
    obtain ⟨hd, hproven, -⟩ := he
    exact ⟨next.solver ▸ hd.wait next.tree (by rw [next.solver]), hproven, rfl⟩
  | normFail _ mem | rewrite _ mem =>
    rw [hu.norm] at mem
    cases mem
  | simplify _ _ ends next =>
    rw [hu.simplifier] at ends
    obtain ⟨rfl, rfl⟩ := ends_pure.1 ends
    obtain ⟨hd, hproven, hchanged⟩ := he
    exact ⟨next.solver ▸ hd.wait next.tree (by rw [next.solver]; rfl), hproven, hchanged⟩
  | normalize =>
    obtain ⟨⟨⟨σ, hf⟩, hun⟩, -⟩ := he
    refine ⟨⟨σ, hf.recordNorm _⟩, ?_⟩
    rw [Tree.goal_recordNorm_self hg]
    exact hun
  | close _ proven => cases he.2.1.symm.trans proven
  | pick =>
    rw [hu.safe]
    exact Undecided.wait he rfl rfl
  | fail | postpone | skip | choose | commit => exact he.elim
  | @select run run' x state target hyps _ _ next =>
    obtain ⟨⟨σ, hf⟩, hun⟩ := he
    have hmoved : Facing P σ rules nothing g x state (run.moveTo state) :=
      hf.wait rfl (.refl σ) hf.last
    rw [next]
    refine ⟨⟨σ, hmoved.select hu⟩, ?_⟩
    rw [Tree.goal_modifyGoal_self hg]
    exact hun
  | resume => exact he
  | @take run x state entry rest =>
    obtain ⟨⟨σ, hf⟩, hun⟩ := he
    have hqueue : (run.tree.goal g).queue = entry :: rest := hc.fits.2
    obtain ⟨hkind, hrule⟩ := (hf.explored.goal g hg).queue entry (by simp [hqueue])
    refine ⟨hkind, hrule, ⟨σ, hf.take hqueue⟩, ?_⟩
    rw [Tree.goal_modifyGoal_self hg]
    exact hun
  | @reject run run' x state entry rest input e asked failed next =>
    obtain ⟨-, hrule, ⟨σ, hf⟩, hun⟩ := he
    have hx : input.goal = x := by rw [asked]
    obtain ⟨A, outcome, σ', hA, houtcome, hreports, hnext⟩ := hf.exists_outcome hx hu hrule
    cases houtcome.symm.trans failed
    have hfacing := ((hnext _ (.refl _)).discharge hA fun ts hts => (hreports ts hts).elim).note
      (f := fun goal => { goal with failedRules := goal.failedRules ++ [entry.rule.name] })
      fun _ => rfl
    refine ⟨⟨σ', hfacing.wait next.tree (.refl σ') ?_⟩, ?_⟩
    · rw [next.solver]
      exact hfacing.last
    · rw [next.tree, Tree.goal_modifyGoal_self hg]
      exact hun
  | @offer run run' x state entry rest input candidates value? asked applied next =>
    obtain ⟨hkind, hrule, ⟨σ, hf⟩, hun⟩ := he
    have hx : input.goal = x := by rw [asked]
    obtain ⟨A, outcome, σ', hA, houtcome, hreports, hnext⟩ := hf.exists_outcome hx hu hrule
    cases houtcome.symm.trans applied
    refine ⟨hkind, σ', _, _, A, hnext _ next, ?_, hreports.2, .inl ⟨hreports.1, ?_⟩⟩
    · rw [next.tree]
      exact hA
    · rw [next.tree]
      exact hun
  | attach _ ends next =>
    obtain ⟨hkind, hattaching⟩ := he
    rw [hkind] at ends
    exact ⟨hkind, hattaching.attach ends (by rw [next]) (by rw [next])⟩
  | finish ended =>
    obtain ⟨-, σ, x, state, A, hf, hA, -, hways⟩ := he
    have hfacing := hf.discharge hA (hways.resolve_left fun hun => ended.elim hun.1 (· hun.2))
    exact ⟨σ, hfacing.last, hfacing.explored⟩
  | exhaust => exact Undecided.exploring he
  | retire next | requeue next =>
    obtain ⟨σ, hlast, hexplored⟩ := he
    exact ⟨σ, hlast, next ▸ hexplored.settle (Tree.settling_checkExhausted _ g)⟩

/-- An expansion fails only if it is out of fuel. -/
theorem ExpansionFault.eq_outOfFuel {e : SearchError} (h : ExpansionFault search g s e run)
    (hu : search.Unrestricted rules) (he : StageExplored P rules g s.run s.stage) :
    e = .outOfFuel := by
  cases h with
  | noRounds _ none => exact normBudget_spent search none _
  | firstGoal _ next error =>
    obtain ⟨x, state, ⟨σ, hf⟩, -⟩ := he
    obtain ⟨rfl, rfl⟩ := And.intro hf.var hf.pre
    exact (hf.describeGoal_ne (by rw [next.solver]) error).elim
  | normRule _ mem | normCheck _ mem =>
    rw [hu.norm] at mem
    cases mem
  | simplifier _ _ error =>
    rw [hu.simplifier] at error
    cases error
  | spent changed => cases he.2.2.symm.trans changed
  | normGoal _ error =>
    obtain ⟨⟨⟨σ, hf⟩, -⟩, -⟩ := he
    exact (hf.describeGoal_ne rfl error).elim
  | goal place next error =>
    rcases place with rfl | rfl <;> obtain ⟨⟨σ, hf⟩, -⟩ := he <;>
      exact (hf.describeGoal_ne (by rw [next]) error).elim
  | safeRule | commit => exact he.elim
  | @queuedRule run run' x state entry rest input e asked error =>
    obtain ⟨-, hrule, ⟨σ, hf⟩, -⟩ := he
    have hx : input.goal = x := by rw [asked]
    obtain ⟨A, outcome, σ', -, houtcome, -⟩ := hf.exists_outcome hx hu hrule
    cases houtcome.symm.trans error
  | @attach run entry probability value? c rest e u unknown error =>
    obtain ⟨hkind, σ, x, state, A, hf, hA, hways, -⟩ := he
    obtain ⟨premises, hway, hreduces⟩ := hways c List.mem_cons_self
    obtain ⟨added, t, hends, -⟩ := hf.attached _ _ _ hA ((hway premises).2 rfl) hreduces
    rw [hkind] at error
    cases error.symm.trans hends

theorem ExpansionSteps.explored (h : ExpansionSteps search postpone g s s')
    (hu : search.Unrestricted rules) (hc : Consistent g s)
    (he : StageExplored P rules g s.run s.stage) : StageExplored P rules g s'.run s'.stage := by
  suffices hboth : Consistent g s' ∧ StageExplored P rules g s'.run s'.stage from hboth.2
  induction h with
  | refl => exact ⟨hc, he⟩
  | tail _ hstep ih => exact ⟨hstep.consistent ih.1, hstep.explored hu ih.1 ih.2⟩

end

/-! ## The loop -/

/-- The tree is still explored after a goal has been expanded. -/
theorem Exploring.yields_expandGoal (h : Exploring P rules run) (hu : search.Unrestricted rules)
    (hg : run.tree.HasGoal g) (hun : (run.tree.goal g).state = .unknown) :
    Yields (search.expandGoal g) run (· = .outOfFuel) fun _ run' => Exploring P rules run' := by
  obtain ⟨σ, hlast, hexplored⟩ := h
  have hstart : StageExplored P rules g run .waiting :=
    ⟨_, _, ⟨σ, hlast, hexplored, hg, rfl, rfl⟩, hun⟩
  have hstepwise : Stepwise search true g ⟨run, .waiting⟩ (search.expandGoal g) run fun _ s' =>
      s'.stage.isDone = true := stepwise_expandGoal
  obtain ⟨s, hsteps, ⟨a, hends, hdone⟩ | ⟨e, u, herror, hfault⟩⟩ := hstepwise
  · have hend := ExpansionSteps.explored hsteps hu ⟨hg, trivial⟩ hstart
    obtain ⟨ending, hstage⟩ := ExpansionStage.isDone_iff.1 hdone
    rw [hstage] at hend
    exact hends.yields hend
  · have hend := ExpansionSteps.explored hsteps hu ⟨hg, trivial⟩ hstart
    exact yields_of_error herror (hfault.eq_outOfFuel hu hend)

/-- The loop ends with a verdict and an explored tree. -/
theorem Exploring.yields_loop {first : Run} (h : Exploring P rules run)
    (hu : search.Unrestricted rules) (hf : Steady search Tree.nowhere first.tree first.queue)
    (hr : Reached search first run) (n : Nat) :
    Yields (search.loop .outOfFuel n) run (· = .outOfFuel) fun verdict last =>
      Reached search first last ∧ search.verdict? last.tree = some verdict ∧
        Exploring P rules last := by
  induction n generalizing run with
  | zero => exact yields_throw rfl
  | succ n ih =>
    refine (ends_getTree.2 ⟨rfl, rfl⟩).bind ?_
    cases hv : search.verdict? run.tree with
    | some verdict => exact yields_pure ⟨hr, hv, h⟩
    | none =>
      have hsteady := hr.steady hf
      obtain ⟨g, rest, hfirst⟩ := exists_firstActive? (hsteady.exists_queued (verdict?_none hv))
      have hnext := ends_nextActiveGoal?.2 ⟨rest, hfirst, rfl⟩
      obtain ⟨-, hg⟩ := hsteady.take hfirst
      have hactive := (firstActive?_some hfirst).1
      simp only [Tree.isActive, Goal.isActive, Bool.and_eq_true, GoalState.isUnknown_iff] at hactive
      refine hnext.bind (((ends_modify (a := ())).2 rfl).bind ?_)
      have hcounted : Exploring P rules (countIteration
        { run with queue := { run.queue with pending := rest } }) := h
      refine yields_bind (hcounted.yields_expandGoal hu hg hactive.1.1).ends ?_
      rintro ⟨⟩ u ⟨hends, hexploring⟩
      exact ih hexploring (hr.pass hv hnext hends)

/-- The tree of an open closed goal is explored. -/
theorem explored_ofGoal {s : Solver} {d : VarDecl} (hn : Solver.NumberedTo s.lastId s.context)
    (hbase : P.base = s.lastId) (hd : s.context.decl? P.root = some d)
    (hb : s.context.binding? P.root = none) (htype : d.type = P.type) (hhyps : d.hyps = P.hyps) :
    Explored P (.blank s.lastId) rules nothing (.ofGoal P.root ∅ s.state) := by
  have hroot {x : Var} (ho : P.Own x) (hx : s.context.isDeclared x = true) : x = P.root :=
    ho.resolve_right (by have := hn x hx; omega)
  have hclear (x : Var) (ho : P.Own x) : s.context.binding? x = none := by
    cases hx : s.context.binding? x with
    | none => rfl
    | some b =>
      obtain ⟨e, he⟩ := Context.exists_decl?_of_binding? hx
      obtain rfl := hroot ho (Context.isDeclared_of_decl? he)
      exact hx.symm.trans hb
  refine ⟨Tree.linked_ofGoal _ _ _,
    ⟨hbase.le, fun x e ho he => ?_, by rintro _ _ _ _ ⟨⟩, fun x b ho _ hx => ?_⟩, hclear,
    ⟨.inl rfl, rfl, Context.isDeclared_of_decl? hd, hb⟩, ?_,
    fun r hr => (Tree.not_hasApplication_ofGoal hr).elim, fun g hg => ?_, fun g hg hsel => ?_⟩
  · have hx := Context.isDeclared_of_decl? he
    obtain rfl := hroot ho hx
    obtain rfl := Option.some.inj (hd.symm.trans he)
    refine ⟨hn _ hx, hhyps, fun y hy => ?_⟩
    rw [htype, Term.hasVar_eq_false.1 P.type_closed y] at hy
    cases hy
  · cases (hclear x ho).symm.trans hx
  · show s.context.goalType P.root = .ok P.type
    simp only [Context.goalType, hd, htype, Context.instantiate_closed P.type_closed]
  · obtain rfl := Tree.hasGoal_ofGoal.1 hg
    exact ⟨rfl, rfl, .inl rfl, List.forall_mem_nil _⟩
  · obtain rfl := Tree.hasGoal_ofGoal.1 hg
    cases hsel

end Search

end ProofSearch
