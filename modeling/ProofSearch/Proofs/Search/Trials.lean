import ProofSearch.Proofs.Search.SearchSteps

/-!
# What becomes of the rules of a goal

The rules that match a goal are tried as safe rules, put off, queued, taken off the queue, and in
the end noted as failed or applied.  This goes on over several expansions of the goal, and a search
has some rules in hand meanwhile.

1. `QueuedRule.Precedes`: the order of a queue.
2. `Fair`: the queue of a goal is in order, a goal with an eager application has nothing else, and
   no rule of another goal gets lost.
3. `Trying`: what holds of the rules that an expansion has in hand.
4. `ExpansionStep.fair`, `SearchSteps.fair`: every step keeps this.
5. `SearchSteps.committed`: a goal with an eager application keeps it as its only one.
-/

namespace ProofSearch

open Solver

/-- Greater probabilities come first, and equal ones in the order of the names. -/
def QueuedRule.Precedes (a b : QueuedRule) : Prop :=
  compare b.probability a.probability = .lt ∨
    a.probability = b.probability ∧ (compare a.rule.name b.rule.name).isLE = true

theorem QueuedRule.le_iff {a b : QueuedRule} : a.le b = true ↔ a.Precedes b := by
  have heq : compare b.probability a.probability = .eq ↔ a.probability = b.probability := by
    refine Nat.compare_eq_eq.trans ⟨fun h => (Percent.rank_injective h).symm, fun h => by rw [h]⟩
  rw [QueuedRule.le, QueuedRule.Precedes]
  cases hc : compare b.probability a.probability with
  | lt => simp [Ordering.then]
  | eq => simp [Ordering.then, heq.1 hc]
  | gt =>
    have hne : a.probability ≠ b.probability := fun h => nomatch hc.symm.trans (heq.2 h)
    simp [Ordering.then, hne]

theorem QueuedRule.le_total (a b : QueuedRule) : a.le b = true ∨ b.le a = true := by
  simp only [QueuedRule.le_iff, QueuedRule.Precedes]
  rcases Nat.lt_trichotomy a.probability.rank b.probability.rank with h | h | h
  · exact .inr (.inl (Nat.compare_eq_lt.2 h))
  · have hp := Percent.rank_injective h
    have hswap : compare b.rule.name a.rule.name = (compare a.rule.name b.rule.name).swap :=
      Std.OrientedCmp.eq_swap
    cases hc : compare a.rule.name b.rule.name with
    | lt | eq => exact .inl (.inr ⟨hp, rfl⟩)
    | gt => exact .inr (.inr ⟨hp.symm, by rw [hswap, hc]; rfl⟩)
  · exact .inl (.inl (Nat.compare_eq_lt.2 h))

theorem QueuedRule.le_trans (a b c : QueuedRule) (h : a.le b = true) (h' : b.le c = true) :
    a.le c = true := by
  simp only [QueuedRule.le_iff, QueuedRule.Precedes] at h h' ⊢
  rcases h with h | ⟨hp, h⟩ <;> rcases h' with h' | ⟨hp', h'⟩
  · exact .inl (Nat.compare_eq_lt.2 ((Nat.compare_eq_lt.1 h').trans (Nat.compare_eq_lt.1 h)))
  · exact .inl (hp' ▸ h)
  · exact .inl (hp ▸ h')
  · exact .inr ⟨hp.trans hp', Std.TransCmp.isLE_trans h h'⟩

/-- No rule is in hand. -/
def noneHeld : GoalId → String → Prop := fun _ _ => False

/-- The rule in hand was taken off the queue of the goal `g`. -/
def QueuedRule.HeldFor (entry : QueuedRule) (g : GoalId) : GoalId → String → Prop :=
  fun k name => k = g ∧ entry.rule.name = name

/-- The rules that are neither tried nor on record at a stage in the expansion of the goal `g`. -/
def ExpansionStage.Holds (g : GoalId) : ExpansionStage → GoalId → String → Prop
  | .taken _ _ entry _ | .offered entry .. => entry.HeldFor g
  | _ => noneHeld

namespace Search

variable {search : Search} {postpone : Bool} {t t' : Tree} {held held' : GoalId → String → Prop}
  {g k : GoalId} {x : Var} {state : Snapshot} {s s' : Expansion}

/-! ## Fair trees -/

/-- Run on the normalized goal `g`, the rule has returned a single proposal, which comes to the
candidate `c`.  A variable that the goal depends on and that is assigned afterwards was assigned
before the run, or it was not declared then. -/
def OnlyCandidate (search : Search) (t : Tree) (g : GoalId) (m : IndexMatch) (c : Candidate) :
    Prop :=
  ∃ x state s p value?, (t.goal g).norm = .normal x state ∧
    ((m.rule.call ⟨x, (t.goal g).vars, m.locations, (t.goal g).branch.get? m.rule.name⟩
      state).run s).1 = .ok ⟨[p], value?⟩ ∧
    p.check m.rule.name state search.options.checkRuleEffects = .ok c ∧
    ∀ y ∈ (t.goal g).vars, c.post.context.isAssigned y = true →
      state.context.isAssigned y = true ∨ state.context.isDeclared y = false

/-- An eager application comes from the only candidate of a safe rule that matches the goal. -/
def Committed (search : Search) (t : Tree) (g : GoalId) (r : ApplicationId) : Prop :=
  ∃ x state target hyps m c, (t.goal g).norm = .normal x state ∧
    state.Describes x target hyps ∧ m ∈ search.rules.safe target hyps ∧
    (t.application r).rule = ⟨m.rule.name, m.rule.eagerKind⟩ ∧ t.MadeFrom r c ∧
    search.OnlyCandidate t g m c

/-- What holds of a goal while its rules are tried, if a search has the rules `held` in hand. -/
structure GoalFair (search : Search) (t : Tree) (held : GoalId → String → Prop) (g : GoalId) :
    Prop where
  ordered : (t.goal g).selected = true → (t.goal g).queue.Pairwise fun e e' => e.le e' = true
  patient : ∀ e ∈ (t.goal g).queue, e.kind.isEager = false
  unused : (t.goal g).selected = false → (t.goal g).applications = []
  committed : ∀ r ∈ (t.goal g).applications, (t.application r).rule.kind.isEager = true →
    (t.goal g).applications = [r] ∧ (t.goal g).selected = true ∧ (t.goal g).queue = [] ∧
      search.Committed t g r
  covered : (t.goal g).selected = true → t.Uncommitted g → ∃ x state target hyps,
    (t.goal g).norm = .normal x state ∧ state.Describes x target hyps ∧
      ∀ m ∈ search.rules.safe target hyps ++ search.rules.tentative target hyps,
        t.Tried g m.rule.name ∨ t.Waits g m.rule.name ∨ held g m.rule.name

/-- No rule is lost, and eager applications stand alone. -/
structure Fair (search : Search) (t : Tree) (held : GoalId → String → Prop) : Prop where
  linked : t.Linked
  goals : ∀ g, GoalFair search t held g

theorem OnlyCandidate.congr {m : IndexMatch} {c : Candidate} (h : search.OnlyCandidate t g m c)
    (hs : t.SameRecord t' g) : search.OnlyCandidate t' g m c := by
  rwa [OnlyCandidate, hs.norm, hs.vars, hs.branch]

theorem Committed.congr {r : ApplicationId} (h : search.Committed t g r) (hs : t.SameRecord t' g)
    (hr : r ∈ (t.goal g).applications) : search.Committed t' g r := by
  obtain ⟨x, state, target, hyps, m, c, hnorm, hdesc, hm, hrule, hmade, honly⟩ := h
  exact ⟨x, state, target, hyps, m, c, hs.norm.trans hnorm, hdesc, hm, (hs.rule hr).trans hrule,
    (hs.madeFrom hr).2 hmade, honly.congr hs⟩

theorem GoalFair.congr (h : GoalFair search t held g) (hs : t.SameRecord t' g)
    (hh : ∀ name, held g name → t'.Tried g name ∨ held' g name) :
    GoalFair search t' held' g where
  ordered hsel := hs.queue ▸ h.ordered (hs.selected.symm.trans hsel)
  patient := hs.queue ▸ h.patient
  unused hsel := hs.applications.trans (h.unused (hs.selected.symm.trans hsel))
  committed r hr he := by
    have hr : r ∈ (t.goal g).applications := hs.applications ▸ hr
    obtain ⟨happs, hsel, hqueue, hc⟩ := h.committed r hr (hs.rule hr ▸ he)
    exact ⟨hs.applications.trans happs, hs.selected.trans hsel, hs.queue.trans hqueue,
      hc.congr hs hr⟩
  covered hsel hun := by
    obtain ⟨x, state, target, hyps, hnorm, hdesc, hall⟩ :=
      h.covered (hs.selected.symm.trans hsel) (hs.uncommitted.1 hun)
    refine ⟨x, state, target, hyps, hs.norm.trans hnorm, hdesc, fun m hm => ?_⟩
    rcases hall m hm with htried | hwaits | hheld
    · exact .inl (hs.tried.2 htried)
    · exact .inr (.inl (hs.waits.2 hwaits))
    · exact (hh _ hheld).imp_right .inr

/-- A goal whose rules are not selected has nothing that could get lost. -/
theorem goalFair_of_unselected (happs : (t.goal g).applications = [])
    (hsel : (t.goal g).selected = false)
    (hqueue : ∀ e ∈ (t.goal g).queue, e.kind.isEager = false) : GoalFair search t held g where
  ordered h := nomatch hsel.symm.trans h
  patient := hqueue
  unused _ := happs
  committed r hr := by
    rw [happs] at hr
    cases hr
  covered h := nomatch hsel.symm.trans h

theorem goalFair_of_blank (h : (t.goal g).Blank) : GoalFair search t held g :=
  goalFair_of_unselected h.applications h.selected fun e he => by
    rw [h.queue] at he
    cases he

theorem fair_ofGoal (goal : Var) (vars : VarSet) (state : Snapshot) :
    Fair search (.ofGoal goal vars state) noneHeld where
  linked := Tree.linked_ofGoal goal vars state
  goals g := by
    refine goalFair_of_blank ?_
    by_cases hg : (Tree.ofGoal goal vars state).HasGoal g
    · rw [Tree.hasGoal_ofGoal.1 hg]
      exact ⟨rfl, rfl, rfl⟩
    · exact Tree.blank_of_not_has hg

/-- Only the goal `g` is changed, and no rule is in hand for another one. -/
theorem Fair.change (h : Fair search t held) (hl : t'.Linked)
    (hothers : ∀ k, k ≠ g → t.SameRecord t' k ∨ (t'.goal k).Blank)
    (hheld : ∀ k name, held k name → k = g) (hg : GoalFair search t' held' g) :
    Fair search t' held' where
  linked := hl
  goals k := by
    by_cases hk : k = g
    · exact hk ▸ hg
    · rcases hothers k hk with hs | hblank
      · exact (h.goals k).congr hs fun name hname => (hk (hheld k name hname)).elim
      · exact goalFair_of_blank hblank

/-- The record of one goal is edited. -/
theorem Fair.modifyGoal (h : Fair search t held) {f : Goal → Goal}
    (hhome : ∀ a, (f a).cluster = a.cluster) (happs : ∀ a, (f a).applications = a.applications)
    (hheld : ∀ k name, held k name → k = g)
    (hg : GoalFair search (t.modifyGoal g f) held' g) : Fair search (t.modifyGoal g f) held' :=
  h.change ((Tree.sameLinks_modifyGoal t g hhome happs).linked h.linked)
    (fun _ hk => .inl (Tree.sameRecord_modifyGoal_of_ne t hk)) hheld hg

/-- A goal that is not normalized has no rules yet. -/
theorem GoalFair.unselected (h : GoalFair search t held g)
    (hn : (t.goal g).norm = .notNormal) : (t.goal g).selected = false := by
  by_contra hsel
  have hsel : (t.goal g).selected = true := by simpa using hsel
  have hun : t.Uncommitted g := by
    intro r hr
    by_contra he
    obtain ⟨-, -, -, x, state, -, -, -, -, hnorm, -⟩ := h.committed r hr (by simpa using he)
    exact nomatch hn.symm.trans hnorm
  obtain ⟨x, state, -, -, hnorm, -⟩ := h.covered hsel hun
  exact nomatch hn.symm.trans hnorm

/-! ## What the rules go through -/

theorem Fair.congr (h : Fair search t held) (hn : t.Noted t') (hs : ∀ k, t.SameRecord t' k)
    (hh : ∀ k name, held k name → t'.Tried k name ∨ held' k name) : Fair search t' held' :=
  ⟨hn.linked h.linked, fun k => (h.goals k).congr (hs k) (hh k)⟩

theorem Fair.settle (h : Fair search t held) (hs : t.Settling t') : Fair search t' held :=
  h.congr hs.noted hs.sameRecord fun _ _ => .inr

theorem Fair.normalize (h : Fair search t noneHeld) (has : t.HasGoal g)
    (hn : (t.goal g).norm = .notNormal) (branch : BranchState) (norm : NormState) :
    Fair search (t.recordNorm g branch norm) noneHeld := by
  have hsel := (h.goals g).unselected hn
  refine h.modifyGoal (fun _ => rfl) (fun _ => rfl) nofun ?_
  have hgoal := Tree.goal_modifyGoal_self has fun goal => { goal with branch, norm }
  exact goalFair_of_unselected (by rw [hgoal]; exact (h.goals g).unused hsel)
    (by rw [hgoal]; exact hsel) (by rw [hgoal]; exact (h.goals g).patient)

/-- The safe rules `ms` are left to be tried on the goal `g`.  If rules are put off, then the other
ones have failed or wait. -/
structure TryingSafe (search : Search) (postpone : Bool) (t : Tree) (g : GoalId) (x : Var)
    (state : Snapshot) (ms : List IndexMatch) : Prop where
  unselected : (t.goal g).selected = false
  undecided : postpone = true → (t.goal g).state = .unknown
  left : ∃ target hyps, state.Describes x target hyps ∧
    (∀ m ∈ ms, m ∈ search.rules.safe target hyps) ∧
    (postpone = true → ∀ m ∈ search.rules.safe target hyps,
      m ∈ ms ∨ t.Tried g m.rule.name ∨ t.Waits g m.rule.name)

/-- A safe rule is disposed of in a way that does not select the rules of the goal. -/
theorem TryingSafe.dispose {m : IndexMatch} {ms : List IndexMatch} {f : Goal → Goal}
    (h : TryingSafe search postpone t g x state (m :: ms)) (hfair : Fair search t noneHeld)
    (hg : t.HasGoal g)
    (hf : ∀ a, (f a).record =
      { a.record with queue := (f a).queue, failedRules := (f a).failedRules })
    (hhome : ∀ a, (f a).cluster = a.cluster) (hstate : ∀ a, (f a).state = a.state)
    (hqueue : ∀ a, ∀ e ∈ (f a).queue, e ∈ a.queue ∨ e.kind.isEager = false)
    (hkeep : ∀ a, (∀ e ∈ a.queue, e ∈ (f a).queue) ∧
      ∀ name ∈ a.failedRules, name ∈ (f a).failedRules)
    (hm : ∀ a, m.rule.name ∈ (f a).failedRules ∨
      ∃ e ∈ (f a).queue, e.rule.name = m.rule.name) :
    Fair search (t.modifyGoal g f) noneHeld ∧
      TryingSafe search postpone (t.modifyGoal g f) g x state ms := by
  obtain ⟨hsel, hundecided, target, hyps, hdesc, hms, hall⟩ := h
  have hgoal := Tree.goal_modifyGoal_self hg f
  have happs (a : Goal) : (f a).applications = a.applications :=
    congrArg GoalRecord.applications (hf a)
  have hsel' : ((t.modifyGoal g f).goal g).selected = false := by
    rw [hgoal]
    exact (congrArg GoalRecord.selected (hf _)).trans hsel
  refine ⟨hfair.modifyGoal hhome happs nofun (goalFair_of_unselected ?_ hsel' ?_), hsel',
    fun hp => ?_, target, hyps, hdesc, fun k hk => hms k (List.mem_cons_of_mem m hk),
    fun hp k hk => ?_⟩
  · rw [hgoal, happs]
    exact (hfair.goals g).unused hsel
  · intro e he
    rw [hgoal] at he
    exact (hqueue _ e he).elim ((hfair.goals g).patient e) id
  · rw [hgoal, hstate]
    exact hundecided hp
  · simp only [Tree.Tried, Tree.Applied, Tree.Waits, hgoal, happs]
    rcases hall hp k hk with hmem | (hfailed | happlied) | ⟨e, he, hname⟩
    · rcases List.mem_cons.1 hmem with rfl | hmem
      · exact .inr ((hm (t.goal g)).imp .inl id)
      · exact .inl hmem
    · exact .inr (.inl (.inl ((hkeep _).2 _ hfailed)))
    · exact .inr (.inl (.inr happlied))
    · exact .inr (.inr ⟨e, (hkeep _).1 e he, hname⟩)

/-- A safe rule matches the goal `g`, which has no application yet, and `c` is its only
candidate. -/
structure TryingEager (search : Search) (t : Tree) (g : GoalId) (m : IndexMatch) (c : Candidate) :
    Prop where
  unselected : (t.goal g).selected = false
  only : search.OnlyCandidate t g m c
  safe : ∃ x state target hyps, (t.goal g).norm = .normal x state ∧
    state.Describes x target hyps ∧ m ∈ search.rules.safe target hyps

/-- The tree and the only application of a goal to which a safe rule is applied. -/
theorem Fair.commit {m : IndexMatch} {c : Candidate} {new : NewApplication}
    {added : AddedApplication} {s s' : Solver} (h : Fair search t noneHeld)
    (htrying : TryingEager search t g m c) (hparent : new.parent = g)
    (hrule : new.rule = ⟨m.rule.name, m.rule.eagerKind⟩) (hoffers : new.Offers c)
    (hends : Ends (t.addApplication new) s (added, t') s') :
    Fair search (t'.modifyGoal g Goal.withoutRules) noneHeld := by
  subst hparent
  obtain ⟨hsel, honly, x, state, target, hyps, hnorm, hdesc, hm⟩ := htrying
  have hp := Tree.hasGoal_of_normal hnorm
  have henters := Tree.enters_addApplication hends h.linked hp
  obtain ⟨new', copies, s₁, s₂, hcarry, hmade⟩ := henters.made
  have hgoal := Tree.goal_modifyGoal_self (henters.hasGoal _ hp) Goal.withoutRules
  have hrecord := henters.parent
  rw [(h.goals _).unused hsel, List.nil_append] at hrecord
  have hrule' : (t'.application ⟨t.applications.size⟩).rule = ⟨m.rule.name, m.rule.eagerKind⟩ :=
    (congrArg ApplicationRecord.rule hmade).trans hrule
  have heager : (t'.application ⟨t.applications.size⟩).rule.kind.isEager = true := by
    rw [hrule']
    exact m.rule.isEager_eagerKind
  have happs : ((t'.modifyGoal new.parent Goal.withoutRules).goal new.parent).applications =
      [⟨t.applications.size⟩] := by
    rw [hgoal]
    exact congrArg GoalRecord.applications hrecord
  have honly' :
      search.OnlyCandidate (t'.modifyGoal new.parent Goal.withoutRules) new.parent m c := by
    have hvars : (t'.goal new.parent).vars = (t.goal new.parent).vars :=
      congrArg GoalRecord.vars hrecord
    have hnorm' : (t'.goal new.parent).norm = (t.goal new.parent).norm :=
      congrArg GoalRecord.norm hrecord
    have hbranch : (t'.goal new.parent).branch = (t.goal new.parent).branch :=
      congrArg GoalRecord.branch hrecord
    rw [OnlyCandidate, hgoal]
    simp only [Goal.withoutRules, hvars, hnorm', hbranch]
    exact honly
  have hlinks := Tree.sameLinks_modifyGoal t' new.parent (f := Goal.withoutRules) (fun _ => rfl)
    fun _ => rfl
  refine h.change (g := new.parent) (hlinks.linked (h.linked.addApplication hends hp))
    (fun k hk => ?_) (fun _ _ => False.elim)
    ⟨fun _ => ?_, ?_, fun hs => ?_, fun r hr _ => ?_, fun _ hun => ?_⟩
  · refine (henters.elsewhere hk).imp (fun hs => hs.trans (Tree.sameRecord_modifyGoal_of_ne t' hk))
      fun hblank => ?_
    rw [Tree.goal_modifyGoal, if_neg fun hc => hk hc.1]
    exact hblank
  · rw [hgoal]
    exact .nil
  · rw [hgoal]
    exact List.forall_mem_nil _
  · rw [hgoal] at hs
    cases hs
  · rw [happs] at hr
    obtain rfl := List.mem_singleton.1 hr
    refine ⟨happs, by rw [hgoal]; rfl, by rw [hgoal]; rfl, x, state, target, hyps, m, c, ?_, hdesc,
      hm, hrule', ⟨t, new, new', copies, s₁, s₂, hoffers, hcarry, hmade⟩,
      honly'⟩
    rw [hgoal]
    exact (congrArg GoalRecord.norm hrecord).trans hnorm
  · have hfalse := hun _ (by rw [happs]; exact List.mem_singleton_self _)
    cases heager.symm.trans hfalse

theorem Fair.select {target : Term} {hyps : LocalContext} (h : Fair search t noneHeld)
    (htrying : TryingSafe search true t g x state []) (hnorm : (t.goal g).norm = .normal x state)
    (hdesc : state.Describes x target hyps) :
    Fair search (t.modifyGoal g fun goal => { goal with
      queue := sortOrdered QueuedRule.le
        (goal.queue ++ (search.rules.tentative target hyps).map .ofMatch)
      selected := true }) noneHeld := by
  obtain ⟨hsel, -, target', hyps', hdesc', -, hall⟩ := htrying
  obtain ⟨rfl, rfl⟩ := hdesc.unique hdesc'
  have hnone := (h.goals g).unused hsel
  refine h.modifyGoal (fun _ => rfl) (fun _ => rfl) nofun ?_
  have hgoal := Tree.goal_modifyGoal_self (Tree.hasGoal_of_normal hnorm) fun goal => { goal with
    queue := sortOrdered QueuedRule.le
      (goal.queue ++ (search.rules.tentative target hyps).map .ofMatch)
    selected := true }
  have hmem {e : QueuedRule} : e ∈ sortOrdered QueuedRule.le
      ((t.goal g).queue ++ (search.rules.tentative target hyps).map .ofMatch) ↔
      e ∈ (t.goal g).queue ∨
        ∃ m ∈ search.rules.tentative target hyps, QueuedRule.ofMatch m = e := by
    rw [(sortOrdered_perm ..).mem_iff, List.mem_append, List.mem_map]
  refine ⟨fun _ => ?_, fun e he => ?_, fun hs => ?_, fun r hr _ => ?_, fun _ _ => ?_⟩
  · rw [hgoal]
    exact sortOrdered_pairwise QueuedRule.le_total QueuedRule.le_trans _
  · rw [hgoal] at he
    rcases hmem.1 he with he | ⟨m, -, rfl⟩
    · exact (h.goals g).patient e he
    · rfl
  · rw [hgoal] at hs
    cases hs
  · rw [hgoal] at hr
    exact nomatch hnone ▸ hr
  · refine ⟨x, state, target, hyps, by rw [hgoal]; exact hnorm, hdesc, fun m hm => ?_⟩
    simp only [Tree.Tried, Tree.Applied, Tree.Waits, hgoal]
    rcases List.mem_append.1 hm with hm | hm
    · rcases hall rfl m hm with hmem | htried | ⟨e, he, hname⟩
      · cases hmem
      · exact .inl htried
      · exact .inr (.inl ⟨e, hmem.2 (.inl he), hname⟩)
    · exact .inr (.inl ⟨.ofMatch m, hmem.2 (.inr ⟨m, hm, rfl⟩), rfl⟩)

theorem GoalFair.uncommitted_of_queued {entry : QueuedRule} {rest : List QueuedRule}
    (h : GoalFair search t held g) (hqueue : (t.goal g).queue = entry :: rest) :
    t.Uncommitted g := by
  intro r hr
  by_contra he
  obtain ⟨-, -, hnil, -⟩ := h.committed r hr (by simpa using he)
  exact nomatch hqueue.symm.trans hnil

/-- A goal without eager applications is edited, and its rules stay selected. -/
theorem goalFair_of_uncommitted (hsel : (t.goal g).selected = true)
    (hun : t.Uncommitted g)
    (hordered : (t.goal g).queue.Pairwise fun e e' => e.le e' = true)
    (hpatient : ∀ e ∈ (t.goal g).queue, e.kind.isEager = false)
    (hcovered : ∃ x state target hyps, (t.goal g).norm = .normal x state ∧
      state.Describes x target hyps ∧
      ∀ m ∈ search.rules.safe target hyps ++ search.rules.tentative target hyps,
        t.Tried g m.rule.name ∨ t.Waits g m.rule.name ∨ held g m.rule.name) :
    GoalFair search t held g where
  ordered _ := hordered
  patient := hpatient
  unused h := nomatch hsel.symm.trans h
  committed r hr he := nomatch (hun r hr).symm.trans he
  covered _ _ := hcovered

/-- The rule is tried on the goal `g`, which has no eager application. -/
structure TryingQueued (t : Tree) (g : GoalId) (entry : QueuedRule) : Prop where
  selected : (t.goal g).selected = true
  patient : entry.kind.isEager = false
  uncommitted : t.Uncommitted g

theorem Fair.take {entry : QueuedRule} {rest : List QueuedRule} (h : Fair search t noneHeld)
    (hsel : (t.goal g).selected = true) (hqueue : (t.goal g).queue = entry :: rest) :
    Fair search (t.modifyGoal g fun goal => { goal with queue := rest }) (entry.HeldFor g) ∧
      TryingQueued (t.modifyGoal g fun goal => { goal with queue := rest }) g entry := by
  have hun := (h.goals g).uncommitted_of_queued hqueue
  have hordered := (h.goals g).ordered hsel
  have hpatient := (h.goals g).patient
  rw [hqueue] at hordered hpatient
  obtain ⟨x, state, target, hyps, hnorm, hdesc, hall⟩ := (h.goals g).covered hsel hun
  have hgoal := Tree.goal_modifyGoal_self (Tree.hasGoal_of_selected hsel)
    fun goal => { goal with queue := rest }
  have hsel' :
      ((t.modifyGoal g fun goal => { goal with queue := rest }).goal g).selected = true := by
    rw [hgoal]
    exact hsel
  have hun' : (t.modifyGoal g fun goal => { goal with queue := rest }).Uncommitted g := by
    rw [Tree.Uncommitted, hgoal]
    exact hun
  refine ⟨h.modifyGoal (fun _ => rfl) (fun _ => rfl) nofun (goalFair_of_uncommitted hsel' hun' ?_
    (fun e he => ?_) ⟨x, state, target, hyps, ?_, hdesc, fun m hm => ?_⟩),
    hsel', hpatient entry List.mem_cons_self, hun'⟩
  · rw [hgoal]
    exact hordered.tail
  · rw [hgoal] at he
    exact hpatient e (List.mem_cons_of_mem entry he)
  · rw [hgoal]
    exact hnorm
  · simp only [Tree.Tried, Tree.Applied, Tree.Waits, hgoal]
    rcases hall m hm with htried | ⟨e, he, hname⟩ | hheld
    · exact .inl htried
    · rw [hqueue] at he
      rcases List.mem_cons.1 he with rfl | he
      · exact .inr (.inr ⟨rfl, hname⟩)
      · exact .inr (.inl ⟨e, he, hname⟩)
    · exact hheld.elim

theorem Fair.reject {entry : QueuedRule} (h : Fair search t (entry.HeldFor g))
    (htrying : TryingQueued t g entry) :
    Fair search (t.modifyGoal g fun goal =>
      { goal with failedRules := goal.failedRules ++ [entry.rule.name] }) noneHeld := by
  obtain ⟨hsel, hkind, hun⟩ := htrying
  obtain ⟨x, state, target, hyps, hnorm, hdesc, hall⟩ := (h.goals g).covered hsel hun
  have hgoal := Tree.goal_modifyGoal_self (Tree.hasGoal_of_selected hsel) fun goal =>
    { goal with failedRules := goal.failedRules ++ [entry.rule.name] }
  refine h.modifyGoal (fun _ => rfl) (fun _ => rfl) (fun _ _ hk => hk.1)
    (goalFair_of_uncommitted ?_ ?_ ?_ ?_ ⟨x, state, target, hyps, ?_, hdesc, fun m hm => ?_⟩)
  · rw [hgoal]
    exact hsel
  · rw [Tree.Uncommitted, hgoal]
    exact hun
  · rw [hgoal]
    exact (h.goals g).ordered hsel
  · rw [hgoal]
    exact (h.goals g).patient
  · rw [hgoal]
    exact hnorm
  · simp only [Tree.Tried, Tree.Applied, Tree.Waits, hgoal]
    rcases hall m hm with (hfailed | happlied) | hwaits | ⟨-, hname⟩
    · exact .inl (.inl (List.mem_append_left _ hfailed))
    · exact .inl (.inr happlied)
    · exact .inr (.inl hwaits)
    · exact .inl (.inl (List.mem_append_right _ (hname ▸ List.mem_singleton_self _)))

theorem Fair.attach {entry : QueuedRule} {new : NewApplication} {added : AddedApplication}
    {s s' : Solver} (h : Fair search t (entry.HeldFor g)) (htrying : TryingQueued t g entry)
    (hparent : new.parent = g) (hrule : new.rule = ⟨entry.rule.name, entry.kind⟩)
    (hends : Ends (t.addApplication new) s (added, t') s') :
    Fair search t' (entry.HeldFor g) ∧ TryingQueued t' g entry ∧
      t'.Applied g entry.rule.name := by
  subst hparent
  obtain ⟨hsel, hkind, hun⟩ := htrying
  have hp := Tree.hasGoal_of_selected hsel
  have henters := Tree.enters_addApplication hends h.linked hp
  obtain ⟨new', copies, s₁, s₂, -, hmade⟩ := henters.made
  have hrecord := henters.parent
  have happs : (t'.goal new.parent).applications =
      (t.goal new.parent).applications ++ [⟨t.applications.size⟩] :=
    congrArg GoalRecord.applications hrecord
  have hqueue : (t'.goal new.parent).queue = (t.goal new.parent).queue :=
    congrArg GoalRecord.queue hrecord
  have hfailed : (t'.goal new.parent).failedRules = (t.goal new.parent).failedRules :=
    congrArg GoalRecord.failedRules hrecord
  have hsel' : (t'.goal new.parent).selected = true :=
    (congrArg GoalRecord.selected hrecord).trans hsel
  have hrules (r : ApplicationId) (hr : r ∈ (t.goal new.parent).applications) :
      (t'.application r).rule = (t.application r).rule :=
    congrArg ApplicationRecord.rule (henters.old r hr)
  have hun' : t'.Uncommitted new.parent := by
    intro r hr
    rw [happs] at hr
    rcases List.mem_append.1 hr with hr | hr
    · rw [hrules r hr]
      exact hun r hr
    · rw [List.mem_singleton.1 hr,
        show (t'.application ⟨t.applications.size⟩).rule = _ from
          congrArg ApplicationRecord.rule hmade, hrule]
      exact hkind
  obtain ⟨x, state, target, hyps, hnorm, hdesc, hall⟩ := (h.goals _).covered hsel hun
  refine ⟨h.change (h.linked.addApplication hends hp) (fun _ => henters.elsewhere)
    (fun _ _ hk => hk.1)
    (goalFair_of_uncommitted hsel' hun' (hqueue ▸ (h.goals _).ordered hsel)
      (hqueue ▸ (h.goals _).patient) ⟨x, state, target, hyps, ?_, hdesc, fun m hm => ?_⟩),
    ⟨hsel', hkind, hun'⟩, ?_⟩
  · exact (congrArg GoalRecord.norm hrecord).trans hnorm
  · refine (hall m hm).imp (Or.imp (fun hm => hfailed ▸ hm) ?_) (Or.imp_left fun hm => ?_)
    · rintro ⟨r, hr, hname⟩
      exact ⟨r, by rw [happs]; exact List.mem_append_left _ hr, by rw [hrules r hr]; exact hname⟩
    · rwa [Tree.Waits, hqueue]
  · have happlied := henters.applied
    rwa [hrule] at happlied

theorem Fair.finish {entry : QueuedRule} (h : Fair search t (entry.HeldFor g))
    (happlied : t.Applied g entry.rule.name) : Fair search t noneHeld := by
  refine h.congr (.refl t) (.refl t) ?_
  rintro k name ⟨rfl, rfl⟩
  exact .inl (.inr happlied)

/-! ## Every step is fair -/

/-- The rule has made a single candidate, which is to be applied at once. -/
theorem onlyCandidate_of_applied {run : Run} {m : IndexMatch} {c : Candidate}
    {value? : Option BranchValue} (hnorm : (run.tree.goal g).norm = .normal x state)
    (h : search.ruleOutcome run m.rule ((run.tree.goal g).ruleInput x m.rule m.locations) state =
      .ok (.applied [c] value?))
    (hd : c.assigned.disjoint (run.tree.goal g).vars = true) :
    search.OnlyCandidate run.tree g m c := by
  obtain ⟨⟨proposals, out?⟩, hcall, -, hchecks⟩ := Rule.examine_applied h
  cases hchecks with
  | cons hcheck hrest =>
    cases hrest
    exact ⟨x, state, run.solver, _, out?, hnorm, hcall, hcheck,
      fun _ => Proposal.open_of_disjoint hcheck hd⟩

/-- The expansion of the goal `g` has not come to its rules yet. -/
def Untried (postpone : Bool) (t : Tree) (g : GoalId) : Prop :=
  if postpone then (t.goal g).state = .unknown else (t.goal g).selected = false

theorem Untried.congr (h : Untried postpone t g) (hstate : (t'.goal g).state = (t.goal g).state)
    (hselected : (t'.goal g).selected = (t.goal g).selected) : Untried postpone t' g := by
  rwa [Untried, hstate, hselected]

/-- How the rules of the goal `g` stand at each stage of its expansion. -/
abbrev Trying (search : Search) (postpone : Bool) (t : Tree) (g : GoalId) : ExpansionStage → Prop
  | .waiting | .entered | .norm _ | .normal .. => Untried postpone t g
  | .safe x state ms => TryingSafe search postpone t g x state ms
  | .eager m c _ => TryingEager search t g m c
  | .queued .. => (t.goal g).selected = true ∧ (t.goal g).state = .unknown
  | .taken _ _ entry _ => TryingQueued t g entry ∧ (t.goal g).state = .unknown
  | .offered entry _ _ candidates => TryingQueued t g entry ∧
      (t.Applied g entry.rule.name ∨ candidates ≠ [] ∧ (t.goal g).state = .unknown)
  | .tried | .done _ => True

theorem ExpansionStep.fair (h : ExpansionStep search postpone g s s') (hc : Consistent g s)
    (hf : Fair search s.run.tree (s.stage.Holds g))
    (ht : Trying search postpone s.run.tree g s.stage) :
    Fair search s'.run.tree (s'.stage.Holds g) ∧
      Trying search postpone s'.run.tree g s'.stage := by
  have hmark (t : Tree) (n : Nat) (k : GoalId) :
      t.SameRecord (t.modifyGoal g fun goal => { goal with expandedIn := n }) k := by
    apply Tree.sameRecord_modifyGoal
    exact fun _ => rfl
  have hnoted := h.noted
  cases h with
  | enter =>
    refine ⟨hf.congr (hnoted nofun id) (hmark _ _) fun _ _ => .inr, ht.congr ?_ ?_⟩
    · rw [Tree.goal_modifyGoal_self hc.has]
    · rw [Tree.goal_modifyGoal_self hc.has]
  | giveUp _ next =>
    refine ⟨hf.congr (hnoted nofun id) (fun k => ?_) fun _ _ => .inr, trivial⟩
    rw [next.tree]
    exact (hmark _ _ k).trans (Tree.sameRecord_markForcedUnprovable _ g k)
  | known | begin => exact ⟨hf, ht⟩
  | leave | exhaust => exact ⟨hf, trivial⟩
  | round _ next | normFail _ _ _ _ next | rewrite _ _ _ _ _ next | simplify _ _ _ next =>
    rw [next.tree]
    exact ⟨hf, ht⟩
  | normalize norm =>
    refine ⟨hf.normalize hc.has norm _ _, ht.congr ?_ ?_⟩
    · rw [Tree.goal_recordNorm_self hc.has]
    · rw [Tree.goal_recordNorm_self hc.has]
  | close norm _ next =>
    rw [next.tree]
    exact ⟨(hf.normalize hc.has norm _ _).settle (Tree.settling_markProvenByNorm _ g), trivial⟩
  | @pick run x state target hyps first described =>
    refine ⟨hf, ?_, fun hp => ?_, target, hyps, described, fun _ => id, fun _ _ => .inl⟩
    · cases postpone with
      | true => exact first rfl
      | false => exact ht
    · subst hp
      exact ht
  | fail _ _ next =>
    rw [next.tree]
    exact ht.dispose hf hc.has (fun _ => rfl) (fun _ => rfl) (fun _ => rfl) (fun _ _ => .inl)
      (fun _ => ⟨fun _ => id, fun _ => List.mem_append_left _⟩)
      fun _ => .inl (List.mem_append_right _ (List.mem_singleton_self _))
  | postpone _ _ _ _ next =>
    rw [next.tree]
    refine ht.dispose hf hc.has (fun _ => rfl) (fun _ => rfl) (fun _ => rfl) (fun a e he => ?_)
      (fun _ => ⟨fun _ => List.mem_append_left _, fun _ => id⟩)
      fun _ => .inr ⟨_, List.mem_append_right _ (List.mem_singleton_self _), rfl⟩
    exact (List.mem_append.1 he).imp_right fun he => by rw [List.mem_singleton.1 he]; rfl
  | @skip run run' x state m _ _ _ _ unset _ _ _ next =>
    subst unset
    obtain ⟨hsel, -, target, hyps, hdesc, hms, -⟩ := ht
    rw [next.tree]
    exact ⟨hf, hsel, nofun, target, hyps, hdesc, fun k hk => hms k (List.mem_cons_of_mem m hk),
      nofun⟩
  | @choose run run' x state m ms input candidates value? c asked applied eager next =>
    obtain ⟨hsel, -, target, hyps, hdesc, hms, -⟩ := ht
    obtain ⟨rfl, hdisjoint⟩ := eagerCandidate?_eq_some eager
    subst asked
    have honly := onlyCandidate_of_applied hc.fits applied hdisjoint
    rw [next.tree]
    exact ⟨hf, hsel, honly, x, state, target, hyps, hc.fits, hdesc, hms m List.mem_cons_self⟩
  | commit ends next =>
    rw [next]
    exact ⟨hf.commit ht rfl rfl ⟨rfl, rfl, rfl, rfl⟩ ends, trivial⟩
  | select set described next =>
    subst set
    rw [next]
    refine ⟨hf.select ht hc.fits described, ?_⟩
    dsimp only [Trying]
    rw [Tree.goal_modifyGoal_self hc.has]
    exact ⟨rfl, ht.undecided rfl⟩
  | resume selected =>
    cases postpone with
    | true => exact ⟨hf, selected, ht⟩
    | false => exact nomatch selected.symm.trans ht
  | take =>
    obtain ⟨hfair, htrying⟩ := hf.take ht.1 hc.fits.2
    refine ⟨hfair, htrying, ?_⟩
    rw [Tree.goal_modifyGoal_self hc.has]
    exact ht.2
  | reject _ _ next =>
    rw [next.tree]
    refine ⟨hf.reject ht.1, ?_⟩
    dsimp only [Trying]
    rw [Tree.goal_modifyGoal_self hc.has]
    exact ⟨ht.1.selected, ht.2⟩
  | @offer run run' x state entry rest input candidates value? asked applied next =>
    obtain ⟨⟨proposals, _⟩, -, hsome, hchecks⟩ := Rule.examine_applied applied
    have hne : candidates ≠ [] := by
      rintro rfl
      cases hchecks
      exact hsome rfl
    rw [next.tree]
    exact ⟨hf, ht.1, .inr ⟨hne, ht.2⟩⟩
  | attach _ ends next =>
    obtain ⟨hfair, htrying, happlied⟩ := hf.attach ht.1 rfl rfl ends
    rw [next]
    exact ⟨hfair, htrying, .inl happlied⟩
  | finish ended =>
    refine ⟨hf.finish (ht.2.resolve_right fun hopen => ?_), trivial⟩
    exact ended.elim hopen.1 fun hdecided => hdecided hopen.2
  | retire next | requeue next =>
    rw [next]
    exact ⟨hf.settle (Tree.settling_checkExhausted _ g), trivial⟩

/-- A goal that gets another application has no eager one. -/
theorem Trying.uncommitted {stage : ExpansionStage} (h : Trying search postpone t g stage)
    (hf : Fair search t held) (ha : stage.Attaching) : t.Uncommitted g := by
  cases stage with
  | eager m c value? =>
    intro r hr
    rw [(hf.goals g).unused h.unselected] at hr
    cases hr
  | offered => exact h.1.uncommitted
  | waiting | entered | norm | normal | safe | queued | taken | tried | done => exact ha.elim

theorem ExpansionStep.applications_eq {r : ApplicationId} (h : ExpansionStep search postpone g s s')
    (hg : s.run.tree.HasGoal g) (hf : Fair search s.run.tree held)
    (ht : Trying search postpone s.run.tree g s.stage)
    (hr : r ∈ (s.run.tree.goal k).applications)
    (he : (s.run.tree.application r).rule.kind.isEager = true) :
    (s'.run.tree.goal k).applications = (s.run.tree.goal k).applications ∧
      (s'.run.tree.application r).rule = (s.run.tree.application r).rule := by
  rcases h.tree_cases with
    hn | ⟨-, branch, norm, -, -, hn⟩ | ⟨new, added, t, solver, hattaching, rfl, hadd, hn⟩
  · exact ⟨hn.applications k, hn.rule r⟩
  · exact ⟨(hn.applications k).trans (Tree.applications_modifyGoal fun _ => rfl), hn.rule r⟩
  · have hne : k ≠ new.parent := by
      rintro rfl
      exact nomatch (ht.uncommitted hf hattaching r hr).symm.trans he
    have hsame := (Tree.enters_addApplication hadd hf.linked hg).others k (Tree.hasGoal_of_mem hr)
      hne
    exact ⟨(hn.applications k).trans hsame.applications, (hn.rule r).trans (hsame.rule hr)⟩

end Search

/-- The rules that a search has in hand. -/
def Activity.Holds : Activity → GoalId → String → Prop
  | .idle => noneHeld
  | .expanding _ g stage => stage.Holds g

namespace Search

variable {m m' : Moment}

abbrev TryingActivity (search : Search) (t : Tree) : Activity → Prop
  | .idle => True
  | .expanding postpone g stage => Trying search postpone t g stage

/-- Nothing is lost, with the rules that the search has in hand. -/
structure FairMoment (search : Search) (m : Moment) : Prop where
  fair : Fair search m.run.tree m.activity.Holds
  trying : TryingActivity search m.run.tree m.activity

theorem SearchStep.fair (h : SearchStep search m m') (hm : search.Valid m)
    (hf : FairMoment search m) : FairMoment search m' := by
  obtain ⟨hfair, htrying⟩ := hf
  cases h with
  | next _ first =>
    have hactive := (firstActive?_some first).1
    simp only [Tree.isActive, Goal.isActive, Bool.and_eq_true, GoalState.isUnknown_iff] at hactive
    exact ⟨hfair, hactive.1.1⟩
  | drain => exact ⟨hfair, trivial⟩
  | visit _ fresh => exact ⟨hfair, Goal.selected_of_not_wasExpanded (by simp [fresh])⟩
  | expand step =>
    obtain ⟨hfair, htrying⟩ := step.fair hm.activity.1 hfair htrying
    exact ⟨hfair, htrying⟩
  | @leave run run' postpone g stage ended next =>
    refine ⟨?_, trivial⟩
    have hnone : stage.Holds g = noneHeld := by
      rcases ended with hdone | ⟨-, x, state, rfl⟩
      · obtain ⟨ending, rfl⟩ := ExpansionStage.isDone_iff.1 hdone
        rfl
      · rfl
    have hfair : Fair search run.tree (stage.Holds g) := hfair
    rw [hnone] at hfair
    exact next.tree ▸ hfair

theorem SearchSteps.fair (h : SearchSteps search m m') (hm : search.Valid m)
    (hf : FairMoment search m) : FairMoment search m' := by
  induction h with
  | refl => exact hf
  | tail hsteps hstep ih => exact hstep.fair (SearchSteps.valid hsteps hm) ih

theorem fair_start (s : Solver) (goal : Var) (vars : VarSet) :
    FairMoment search ⟨search.start s (.ofGoal goal vars s.state), .idle⟩ :=
  ⟨fair_ofGoal goal vars s.state, trivial⟩

/-! ## Eager applications stay alone -/

theorem SearchStep.applications_eq {r : ApplicationId} (h : SearchStep search m m')
    (hm : search.Valid m) (hf : FairMoment search m) (hr : r ∈ (m.run.tree.goal g).applications)
    (he : (m.run.tree.application r).rule.kind.isEager = true) :
    (m'.run.tree.goal g).applications = (m.run.tree.goal g).applications ∧
      (m'.run.tree.application r).rule = (m.run.tree.application r).rule := by
  cases h with
  | next | drain | visit => exact ⟨rfl, rfl⟩
  | expand step => exact step.applications_eq hm.activity.1.has hf.fair hf.trying hr he
  | leave _ next =>
    rw [next.tree]
    exact ⟨rfl, rfl⟩

theorem SearchSteps.committed {r : ApplicationId} (h : SearchSteps search m m')
    (hm : search.Valid m) (hf : FairMoment search m) (hr : r ∈ (m.run.tree.goal g).applications)
    (he : (m.run.tree.application r).rule.kind.isEager = true) :
    (m'.run.tree.goal g).applications = [r] := by
  have hkept : (m'.run.tree.goal g).applications = (m.run.tree.goal g).applications ∧
      (m'.run.tree.application r).rule = (m.run.tree.application r).rule := by
    induction h with
    | refl => exact ⟨rfl, rfl⟩
    | tail hsteps hstep ih =>
      obtain ⟨happs, hrule⟩ := ih
      obtain ⟨happs', hrule'⟩ := hstep.applications_eq (SearchSteps.valid hsteps hm)
        (SearchSteps.fair hsteps hm hf) (happs ▸ hr) (hrule ▸ he)
      exact ⟨happs'.trans happs, hrule'.trans hrule⟩
  exact hkept.1.trans ((hf.fair.goals g).committed r hr he).1

end Search

end ProofSearch
