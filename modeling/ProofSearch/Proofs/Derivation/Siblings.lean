import ProofSearch.Proofs.Derivation.VarHistorySteps

/-!
# Dependent siblings

Goals that share a variable stand in one cluster.  When an application assigns the variable, the
others are copied below it.  The walk that finds them goes from the goal to the root and drops a
variable above the application that introduced it.

1. `Tree.Beside`: the goals that the walk passes.
2. `Tree.mem_dependents`: the walk finds every goal beside the way that depends on what was
   assigned.  Nothing is lost with the dropped variables.
3. `siblings_carried`: what an application carries along is what depends on the assignments of the
   rule itself.
4. `sibling_left_behind`: a copy assigns the variable of its original, and a goal that depends on
   that variable alone stays behind.
-/

namespace ProofSearch

open Solver

namespace Tree

/-! ## Goals beside the way to the root -/

/-- The goal `k` is in the cluster of `g` or of a goal above `g`, and not on the way itself. -/
inductive Beside (t : Tree) : GoalId → GoalId → Prop
  | here {g k : GoalId} : k ∈ (t.cluster (t.goal g).cluster).goals → k ≠ g → t.Beside g k
  | above {g k : GoalId} {r : ApplicationId} : t.parentApplication? g = some r →
      t.Beside (t.application r).parent k → t.Beside g k

variable {P : Problem} {L : Ledger} {t : Tree} {g k : GoalId} {post : Context} {y : Var}

theorem needsCopy_iff {assigned : VarSet} {a : Goal} : needsCopy post assigned a = true ↔
    a.irrelevant = false ∧ a.state.isProven = false ∧ post.isAssigned a.var = false ∧
      ∃ y ∈ a.vars, y ∈ assigned := by
  simp only [needsCopy, Bool.and_eq_true, Bool.not_eq_true', and_assoc]
  refine and_congr_right fun _ => and_congr_right fun _ => and_congr_right fun _ => ?_
  rw [← Bool.not_eq_true, VarSet.disjoint_iff]
  push Not
  rfl

theorem Beside.hasGoal (h : t.Beside g k) (hl : t.Linked) (hg : t.HasGoal g) : t.HasGoal k := by
  induction h with
  | here hk => exact (hl.member _ (hl.home _ hg).1 _ hk).1
  | above hr _ ih => exact ih (hl.has_parent hg hr).2

/-- The walk finds goals beside the way that need a copy. -/
theorem beside_of_mem_dependents {path : List Level} {assigned : VarSet} (hu : t.Upward g path)
    (h : k ∈ t.dependents post path assigned) :
    t.Beside g k ∧ needsCopy post assigned (t.goal k) = true := by
  induction hu generalizing assigned with
  | top hr =>
    rw [dependents] at h
    split at h
    · cases h
    · obtain ⟨hk, hcopy⟩ := List.mem_filter.1 h
      rw [Bool.and_eq_true, decide_eq_true_eq] at hcopy
      exact ⟨.here hk hcopy.1, hcopy.2⟩
  | @step g r path hr _ ih =>
    rw [dependents] at h
    split at h
    · cases h
    · rcases List.mem_append.1 h with h | h
      · obtain ⟨hk, hcopy⟩ := List.mem_filter.1 h
        rw [Bool.and_eq_true, decide_eq_true_eq] at hcopy
        exact ⟨.here hk hcopy.1, hcopy.2⟩
      · obtain ⟨hbeside, hcopy⟩ := ih h
        obtain ⟨hrel, hproven, hopen, y, hy, hmem⟩ := needsCopy_iff.1 hcopy
        exact ⟨.above hr hbeside, needsCopy_iff.2 ⟨hrel, hproven, hopen, y, hy,
          (VarSet.mem_filter.1 hmem).1⟩⟩

/-- A goal beside the way depends on variables that were there before the way went on. -/
theorem Beside.declared (h : t.Beside g k) (hw : VarHistory P t) (hl : t.Linked)
    (hrec : Recorded P L t) (hg : t.HasGoal g) (hy : y ∈ (t.goal k).vars) :
    (t.preState g).context.isDeclared y = true := by
  induction h with
  | @here g k hk =>
    obtain ⟨hhas, hcluster⟩ := hl.member _ (hl.home g hg).1 k hk
    have hstate : t.preState k = t.preState g := by
      unfold preState parentApplication?
      rw [hcluster]
    have hdeps := hw.deps k hhas
    obtain ⟨d, hd⟩ := Context.exists_decl? (Context.isDeclared_of_dependencies hdeps)
    have hconf := hrec.preState k
    have hocc := ((hconf.mem_dependencies (hrec.own k hhas) hd hdeps).1 hy).1
    rw [← hstate]
    exact (hconf.overTypes_instantiate (hconf.decl _ d (hrec.own k hhas) hd).type y hocc).declared
  | @above g k r hr _ ih =>
    obtain ⟨hhas, hparent⟩ := hl.has_parent hg hr
    obtain ⟨x, state, hx, ha⟩ := hw.applied r hhas
    have hnorm := hw.normal (t.application r).parent state (by rw [Goal.normPost?, hx])
    have hdecl := ha.spans.declared (hnorm.spans.declared (ih hparent hy))
    unfold preState
    rw [hr]
    exact hdecl

/-- A variable that an application introduced is not one that a goal further up depends on. -/
theorem Beside.not_introduced {r : ApplicationId} (hb : t.Beside (t.application r).parent k)
    (hw : VarHistory P t) (hl : t.Linked) (hrec : Recorded P L t) (hg : t.HasGoal g)
    (hr : t.parentApplication? g = some r) (hy : y ∈ (t.goal k).vars) :
    y ∉ (t.application r).introduced := by
  intro hintro
  obtain ⟨hhas, hparent⟩ := hl.has_parent hg hr
  obtain ⟨x, state, hx, ha⟩ := hw.applied r hhas
  have hnorm := hw.normal (t.application r).parent state (by rw [Goal.normPost?, hx])
  have hdecl := hnorm.spans.declared (hb.declared hw hl hrec hparent hy)
  cases (ha.introduced y hintro).symm.trans hdecl

/-- The walk finds every goal beside the way that needs a copy. -/
theorem mem_dependents (hw : VarHistory P t) (hl : t.Linked) (hrec : Recorded P L t)
    (hg : t.HasGoal g) {assigned : VarSet} (hb : t.Beside g k) :
    k ∈ t.dependents post (t.path g) assigned ↔ needsCopy post assigned (t.goal k) = true := by
  refine ⟨fun h => (beside_of_mem_dependents (hl.upward_path hg) h).2, fun h => ?_⟩
  have hempty {assigned : VarSet} (h : needsCopy post assigned (t.goal k) = true) :
      ¬ assigned.isEmpty = true := by
    obtain ⟨-, -, -, y, -, hy⟩ := needsCopy_iff.1 h
    exact fun he => List.ne_nil_of_mem (VarSet.mem_toList.2 hy) (List.isEmpty_iff.1 he)
  have hu := hl.upward_path hg
  generalize t.path g = path at hu
  induction hu generalizing assigned with
  | @top g hr =>
    cases hb with
    | here hk hne =>
      rw [dependents, if_neg (hempty h)]
      exact List.mem_filter.2 ⟨hk, by simp [hne, h]⟩
    | above hr' => cases hr.symm.trans hr'
  | @step g r path hr hu ih =>
    rw [dependents, if_neg (hempty h)]
    refine List.mem_append.2 ?_
    cases hb with
    | here hk hne => exact .inl (List.mem_filter.2 ⟨hk, by simp [hne, h]⟩)
    | above hr' hb =>
      obtain rfl : r = _ := Option.some.inj (hr.symm.trans hr')
      obtain ⟨-, hparent⟩ := hl.has_parent hg hr
      obtain ⟨hrel, hproven, hopen, y, hy, hmem⟩ := needsCopy_iff.1 h
      refine .inr (ih hparent hb (needsCopy_iff.2 ⟨hrel, hproven, hopen, y, hy,
        VarSet.mem_filter.2 ⟨hmem, ?_⟩⟩))
      exact decide_eq_true (hb.not_introduced hw hl hrec hg hr hy)

end Tree

/-! ## What an application carries along -/

/-- The candidate `c` for the goal `g` of the tree `t` has become the application `r` of `t'`.  Of
the goals beside the way to the root that are relevant and not proven it closes those that the rule
closed, and those that depend on what the rule assigned; these it copies. -/
structure Carrying (t : Tree) (g : GoalId) (c : Candidate) (t' : Tree) (r : ApplicationId) :
    Prop where
  rule : ∃ x state, (t.goal g).norm = .normal x state ∧
    c.assigned = c.post.context.assignedSince state.context
  closes : ∀ k, t.Beside g k → (t.goal k).irrelevant = false → (t.goal k).state.isProven = false →
    ((t'.application r).post.context.isAssigned (t.goal k).var = true ↔
      c.post.context.isAssigned (t.goal k).var = true ∨ ∃ y ∈ (t.goal k).vars, y ∈ c.assigned)
  copies : ∀ k, t.Beside g k → Tree.needsCopy c.post.context c.assigned (t.goal k) = true →
    ∃ j, t'.MadeBy r j ∧ (t'.goal j).origin = .copied k
  assigned : ∀ y, y ∈ (t'.application r).assigned ↔ y ∈ c.assigned ∨ ∃ k, t.Beside g k ∧
    Tree.needsCopy c.post.context c.assigned (t.goal k) = true ∧ (t.goal k).var = y

variable {P : Problem} {L : Ledger}

/-- An application carries along what depends on the assignments of its rule. -/
theorem OffersAdd.carrying {run : Run} {g : GoalId} {x : Var} {state : Snapshot} {d : VarDecl}
    {c : Candidate} {rest : List Candidate} {rule : String} {kind : RuleKind}
    {probability : Percent} {value? : Option BranchValue} {added : AddedApplication} {tree : Tree}
    {solver : Solver} (h : OffersAdd P run.tree x state d (c :: rest)) (hk : Kept P L run)
    (hck : CandidateKept P L state x c) (hw : VarHistory P run.tree) (hl : run.tree.Linked)
    (hx : (run.tree.goal g).norm = .normal x state) (hd : state.context.decl? x = some d)
    (eager : kind.isEager = true → c.assigned.disjoint (run.tree.goal g).vars = true)
    (ends : Ends (run.tree.addApplication
        (attachment run g rule kind c probability value?)) run.solver (added, tree) solver) :
    Carrying run.tree g c tree ⟨run.tree.applications.size⟩ := by
  have hg := Tree.hasGoal_of_normal hx
  obtain ⟨last, hc⟩ := h.adds c List.mem_cons_self
  obtain ⟨new, copies, groups, u, hcarry, hgroups, hparent, hgrow, -, -, ht⟩ :=
    Tree.addApplication_growth ends hg
  have hnoted := Tree.noted_of_added ht
  obtain ⟨hmade, -, -, hassigned, -⟩ := hck.copiesMade hk.tree hk.last hcarry
  have hcarried := Carried.candidate hw hl hk.tree hk.last hx hd hck hc
    (h.unrecorded c List.mem_cons_self) eager hcarry
  have hpost : (tree.application ⟨run.tree.applications.size⟩).post = new.post := by
    rw [hnoted.post, hgrow.application_new]
    rfl
  have hfinal : (tree.application ⟨run.tree.applications.size⟩).assigned = new.assigned := by
    rw [hnoted.assigned, hgrow.application_new]
    rfl
  have hsource {copy : Tree.GoalCopy} (hcopy : copy ∈ copies) := hmade.source_mem hcopy
  have hcopied {k : GoalId} (hb : run.tree.Beside g k)
      (hneeds : Tree.needsCopy c.post.context c.assigned (run.tree.goal k) = true) :
      ∃ copy ∈ copies, copy.source = k := by
    have hmem := (Tree.mem_dependents hw hl hk.tree hg hb).2 hneeds
    rw [← hmade.sources] at hmem
    exact List.mem_map.1 hmem
  refine ⟨⟨x, state, hx, hc.assigned⟩, fun k hb hrel hproven => ?_, fun k hb hneeds => ?_,
    fun y => ?_⟩
  · rw [hpost]
    constructor
    · intro ha
      cases hclosed : c.post.context.isAssigned (run.tree.goal k).var with
      | true => exact .inl rfl
      | false =>
        obtain ⟨copy, hcopy, hold⟩ := hmade.assigned _ hclosed ha
        rw [(hmade.old copy hcopy).1] at hold
        -- Only the goal itself has its variable.
        have hsame := hw.injective _ k (hasGoal_of_mem_dependents (hsource hcopy))
          (hb.hasGoal hl hg) hold
        have hneeds := (Tree.beside_of_mem_dependents (hl.upward_path hg) (hsource hcopy)).2
        rw [hsame] at hneeds
        exact .inr (Tree.needsCopy_iff.1 hneeds).2.2.2
    · rintro (ha | hmeets)
      · exact hmade.isAssigned ha
      · cases hclosed : c.post.context.isAssigned (run.tree.goal k).var with
        | true => exact hmade.isAssigned hclosed
        | false =>
          obtain ⟨copy, hcopy, rfl⟩ :=
            hcopied hb (Tree.needsCopy_iff.2 ⟨hrel, hproven, hclosed, hmeets⟩)
          rw [← (hmade.old copy hcopy).1, Context.isAssigned, (hmade.old copy hcopy).2.2]
          rfl
  · obtain ⟨copy, hcopy, rfl⟩ := hcopied hb hneeds
    obtain ⟨j, hj, horigin⟩ := hcarried.exists_copy hgrow hgroups hcopy
    refine ⟨j, ⟨hnoted.hasGoal.2 hj.1, (hnoted.parentApplication?_eq j).trans hj.2⟩, ?_⟩
    rw [hnoted.origin, horigin]
  · rw [hfinal, hassigned, VarSet.mem_insertMany, List.mem_map, or_comm]
    refine or_congr_right ⟨?_, ?_⟩
    · rintro ⟨copy, hcopy, rfl⟩
      obtain ⟨hb, hneeds⟩ := Tree.beside_of_mem_dependents (hl.upward_path hg) (hsource hcopy)
      exact ⟨copy.source, hb, hneeds, (hmade.old copy hcopy).1.symm⟩
    · rintro ⟨k, hb, hneeds, rfl⟩
      obtain ⟨copy, hcopy, rfl⟩ := hcopied hb hneeds
      exact ⟨copy, hcopy, (hmade.old copy hcopy).1⟩

/-! ## The applications of a search -/

namespace Search

variable {search : Search} {sc sc' : Scene} {r : ApplicationId}

/-- The step adds the candidate `c` for the goal `g` as the application `r`. -/
structure Attaches (search : Search) (sc sc' : Scene) (g : GoalId) (c : Candidate)
    (r : ApplicationId) : Prop where
  step : Step search sc sc'
  focus : ∃ rest, sc.focus = .offers g (c :: rest)
  fresh : ¬ sc.run.tree.HasApplication r
  has : sc'.run.tree.HasApplication r

/-- Only the next candidate can become an application. -/
theorem Step.exists_attaches (h : Step search sc sc') (hnew : ¬ sc.run.tree.HasApplication r)
    (has : sc'.run.tree.HasApplication r) : ∃ g c, Attaches search sc sc' g c r := by
  have hstep := h
  cases h with
  | note tree => exact absurd (tree.hasApplication.1 has) hnew
  | wait tree | begin _ _ tree | rewrite _ _ _ tree | offer _ _ _ tree =>
    exact absurd (tree ▸ has) hnew
  | normal _ tree =>
    exact absurd ((Tree.sameLinks_recordNorm ..).hasApplication.1 (tree ▸ has)) hnew
  | attach => exact ⟨_, _, hstep, ⟨_, rfl⟩, hnew, has⟩

/-- Every new application was added by some step on the way. -/
theorem Steps.exists_attaches (h : Steps search sc sc') (hnew : ¬ sc.run.tree.HasApplication r)
    (has : sc'.run.tree.HasApplication r) : ∃ sc₁ sc₂ g c,
      Steps search sc sc₁ ∧ Attaches search sc₁ sc₂ g c r ∧ Steps search sc₂ sc' := by
  induction h with
  | refl => exact absurd has hnew
  | @tail mid last hsteps hstep ih =>
    by_cases hmid : mid.run.tree.HasApplication r
    · obtain ⟨sc₁, sc₂, g, c, hbefore, hattach, hafter⟩ := ih hmid
      exact ⟨sc₁, sc₂, g, c, hbefore, hattach, hafter.tail hstep⟩
    · obtain ⟨g, c, hattach⟩ := hstep.exists_attaches hmid has
      exact ⟨mid, last, g, c, hsteps, hattach, .refl⟩

/-- What is known of the candidate and of the application that it has become. -/
theorem Attaches.exists_ends {g : GoalId} {c : Candidate} (h : Attaches search sc sc' g c r) :
    ∃ x state rest rule kind probability value? added solver,
      sc.focus = .offers g (c :: rest) ∧ (sc.run.tree.goal g).norm = .normal x state ∧
      (kind.isEager = true → c.assigned.disjoint (sc.run.tree.goal g).vars = true) ∧
      Ends (sc.run.tree.addApplication (attachment sc.run g rule kind c probability value?))
        sc.run.solver (added, sc'.run.tree) solver ∧ r = ⟨sc.run.tree.applications.size⟩ ∧
      (sc'.run.tree.application r).parent = g ∧
      (sc'.run.tree.application r).rule = ⟨rule, kind⟩ := by
  obtain ⟨hstep, ⟨rest, hfocus⟩, hnew, has⟩ := h
  cases hstep with
  | note tree => exact absurd (tree.hasApplication.1 has) hnew
  | wait tree | begin _ _ tree | offer _ _ _ tree => exact absurd (tree ▸ has) hnew
  | rewrite | normal => cases hfocus
  | attach norm eager ends =>
    cases hfocus
    obtain ⟨new, copies, groups, u, hcarry, -, hparent, hgrow, -, -, ht⟩ :=
      Tree.addApplication_growth ends (Tree.hasGoal_of_normal norm)
    have hnoted := Tree.noted_of_added ht
    have hr := (hgrow.hasApplication.1 (hnoted.hasApplication.1 has)).resolve_left hnew
    refine ⟨_, _, rest, _, _, _, _, _, _, rfl, norm, eager, ends, hr, ?_, ?_⟩
    · rw [hnoted.parent, hr, hgrow.application_new]
      exact hparent
    · rw [hnoted.rule, hr, hgrow.application_new]
      exact congrArg (·.rule) (Tree.carrySiblings_ends hcarry)

theorem Attaches.carrying {g : GoalId} {c : Candidate} (h : Attaches search sc sc' g c r)
    (hk : SceneHistory P L sc) (hl : sc.run.tree.Linked) :
    Carrying sc.run.tree g c sc'.run.tree r := by
  obtain ⟨-, -, rest, rule, kind, probability, value?, added, solver, hfocus, -, eager, ends, rfl,
    -⟩ := h.exists_ends
  obtain ⟨x, state, d, hx, hd, hall, hadd⟩ := hk.offers hfocus
  exact hadd.carrying hk.kept (hall c List.mem_cons_self) hk.history hl hx hd eager ends

/-- Every application of the final tree was added by a step of the search.  Whenever a step adds an
application, the goals beside the way to the root that are relevant and not proven are carried along
if they depend on what the rule assigned. -/
theorem siblings_carried (rules : List RuleSpec) (options : Options) (fuel : Nat) (s : Solver)
    (saved : List Snapshot) (root : Var) (d : VarDecl) (vars : VarSet)
    (hclauses : ∀ c ∈ RuleSpec.clauses rules, c.isClosed = true) (hs : Built s saved)
    (hd : s.context.decl? root = some d) (hopen : s.context.isAssigned root = false)
    (htype : d.type.hasVar = false) (hhyps : ∀ h ∈ d.hyps, h.type.hasVar = false)
    (hvars : s.context.dependencies root = .ok vars) :
    (∃ last,
      Steps (ofRules rules options fuel) ((ofRules rules options fuel).opening s root vars) last ∧
      last.run.tree = ((ofRules rules options fuel).finalRun s root).tree ∧
      ∀ r, last.run.tree.HasApplication r → ∃ sc sc' g c,
        Steps (ofRules rules options fuel) ((ofRules rules options fuel).opening s root vars) sc ∧
        Attaches (ofRules rules options fuel) sc sc' g c r ∧
        Steps (ofRules rules options fuel) sc' last) ∧
    ∀ sc sc' g c r,
      Steps (ofRules rules options fuel) ((ofRules rules options fuel).opening s root vars) sc →
      Attaches (ofRules rules options fuel) sc sc' g c r →
      Carrying sc.run.tree g c sc'.run.tree r := by
  constructor
  · obtain ⟨last, hsteps, htree⟩ := exists_steps_finalRun _ _ _ hvars
    exact ⟨last, hsteps, htree, fun r hr =>
      Steps.exists_attaches hsteps Tree.not_hasApplication_ofGoal hr⟩
  · intro sc sc' g c r hsteps hattach
    obtain ⟨P, L, hk, hlinked⟩ :=
      exists_sceneHistory hclauses hs hd hopen htype hhyps hvars hsteps
    exact hattach.carrying hk hlinked

/-! ## A chain of dependent goals -/

def chainedSplit : Clause where
  name := "c"
  params := [("x", .const "X"), ("y", .app "T" [.hyp "x"])]
  premises := [.app "P" [.hyp "y"]]
  conclusion := .const "Root"

def fact : RuleSpec := tentativeClause "X" ⟨"a", [], [], .const "X"⟩

/-- The goal `P(y)` depends on `y`, whose type depends on `x`. -/
def chainedRules : List RuleSpec :=
  [tentativeClause "Root" chainedSplit, fact,
    tentativeClause "T" ⟨"b", [("z", .const "X")], [], .app "T" [.hyp "z"]⟩]

def chainedSearch : Search := ofRules chainedRules {} 100

theorem siblings_carried_chained : ∃ sc sc' g c,
    Steps chainedSearch (chainedSearch.opening rootSolver ⟨1⟩ ∅) sc ∧
    Attaches chainedSearch sc sc' g c ⟨1⟩ ∧ Carrying sc.run.tree g c sc'.run.tree ⟨1⟩ := by
  obtain ⟨⟨last, -, htree, hattached⟩, hcarrying⟩ := siblings_carried chainedRules {} 100
    rootSolver [] ⟨1⟩ ⟨.const "Root", [], none⟩ ∅ (by decide) (.perform _ .empty) (by decide)
    (by decide) (by decide) (by decide) rfl
  have hhas : (chainedSearch.finalRun rootSolver ⟨1⟩).tree.HasApplication ⟨1⟩ := by
    have hsize : Nat.blt 1 (chainedSearch.finalRun rootSolver ⟨1⟩).tree.applications.size = true := by
      decide +kernel
    rwa [Nat.blt_eq] at hsize
  obtain ⟨sc, sc', g, c, hsteps, hattaches, -⟩ := hattached ⟨1⟩ (by rw [htree]; exact hhas)
  exact ⟨sc, sc', g, c, hsteps, hattaches, hcarrying sc sc' g c ⟨1⟩ hsteps hattaches⟩

/-- One pass of the loop over the goals of the queue. -/
def pass (search : Search) : SearchM Unit := do
  match ← nextActiveGoal? with
  | some g =>
    modify countIteration
    search.expandGoal g
  | none => throw .outOfFuel

theorem steps_pass {run run' : Run} (hv : search.Valid ⟨run, .idle⟩)
    (h : Ends search.pass run () run') : SearchSteps search ⟨run, .idle⟩ ⟨run', .idle⟩ := by
  simp only [pass, ends_bind] at h
  obtain ⟨next, mid, hn, h⟩ := h
  obtain ⟨rest, hfirst, rfl⟩ := ends_nextActiveGoal?.1 hn
  cases next with
  | none => exact (ends_throw h).elim
  | some g =>
    simp only [ends_bind, ends_modify] at h
    obtain ⟨-, _, rfl, h⟩ := h
    exact ((takes_expandGoal hv hfirst).steps h).1

/-- Two passes of the loop: the clause is applied to the root, and `P(y)` is given up. -/
def chainedPasses : SearchM Unit := do
  chainedSearch.pass
  chainedSearch.pass

/-- The goal `X` is normal as it is. -/
def normalizedX (run : Run) : Run :=
  let goal := run.tree.goal ⟨2⟩
  let pre := run.tree.preState ⟨2⟩
  { run.moveTo pre with tree := run.tree.recordNorm ⟨2⟩ goal.branch (.normal goal.var pre) }

/-- The fact is run on `X`. -/
def trialX (run : Run) : Run :=
  (normalizedX run).afterRule fact.rule ((run.tree.goal ⟨2⟩).ruleInput (run.tree.goal ⟨2⟩).var
    fact.rule []) (run.tree.preState ⟨2⟩)

/-- What the fact makes of `X`. -/
def offerX (run : Run) : Except SearchError RuleOutcome :=
  chainedSearch.ruleOutcome (normalizedX run) fact.rule ((run.tree.goal ⟨2⟩).ruleInput
    (run.tree.goal ⟨2⟩).var fact.rule []) (run.tree.preState ⟨2⟩)

theorem knows_fact : chainedSearch.Knows fact.rule :=
  ⟨.const "X", [], (chainedSearch.rules.tentative (.const "X") []).head (by decide +kernel), rfl,
    .inr (.inr (List.head_mem _))⟩

/-- Whether the goal `X` is new and the fact has a single candidate for it, which can be added and
then passes the test. -/
def factTest (test : Run → Candidate → Tree → Bool) (run : Run) : Bool :=
  match (run.tree.goal ⟨2⟩).norm, offerX run with
  | .notNormal, .ok (.applied [c] _) => match ((trialX run).tree.addApplication
      (attachment (trialX run) ⟨2⟩ "a" .tentative c .hundred none)).run.run (trialX run).solver with
    | (.ok (_, tree), _) => Nat.blt 2 run.tree.goals.size &&
      Nat.ble run.tree.applications.size 1 && Nat.blt 1 tree.applications.size &&
      test (trialX run) c tree
    | _ => false
  | _, _ => false

/-- The chained search comes to the step that applies the fact to `X`. -/
theorem exists_chained_attaches {test : Run → Candidate → Tree → Bool} {run : Run}
    (hends : Ends chainedPasses (chainedSearch.opening rootSolver ⟨1⟩ ∅).run () run)
    (htest : factTest test run = true) : ∃ sc sc' c,
      Steps chainedSearch (chainedSearch.opening rootSolver ⟨1⟩ ∅) sc ∧
      Attaches chainedSearch sc sc' ⟨2⟩ c ⟨1⟩ ∧ test sc.run c sc'.run.tree = true := by
  have hvalid : chainedSearch.Valid ⟨(chainedSearch.opening rootSolver ⟨1⟩ ∅).run, .idle⟩ :=
    valid_start ..
  simp only [chainedPasses, ends_bind] at hends
  obtain ⟨⟨⟩, mid, hfirst, hsecond⟩ := hends
  have hsteps := steps_pass hvalid hfirst
  replace hsteps := hsteps.trans (steps_pass (SearchSteps.valid hsteps hvalid) hsecond)
  replace hsteps : Steps chainedSearch (chainedSearch.opening rootSolver ⟨1⟩ ∅) ⟨run, .idle⟩ :=
    SearchSteps.steps hsteps (regular_ofRules ..) hvalid
  unfold factTest at htest
  split at htest
  · next c value? hnorm happlied =>
    split at htest
    · next added tree solver hadd =>
      simp only [Bool.and_eq_true, Nat.ble_eq, Nat.blt_eq] at htest
      obtain ⟨⟨⟨hhas, hold⟩, hnew⟩, htest⟩ := htest
      have hnormal : ((normalizedX run).tree.goal ⟨2⟩).norm =
          .normal (run.tree.goal ⟨2⟩).var (run.tree.preState ⟨2⟩) := by
        rw [normalizedX, Tree.goal_recordNorm_self hhas]
      -- The goal is normalized, the fact is run, and its candidate is at hand.
      have hbegin : Step chainedSearch ⟨run, .idle⟩ ⟨run.moveTo (run.tree.preState ⟨2⟩),
          .norm ⟨2⟩ (some (run.tree.goal ⟨2⟩).var)⟩ := .begin hhas hnorm rfl rfl rfl rfl
      have hrecord : Step chainedSearch ⟨run.moveTo (run.tree.preState ⟨2⟩),
          .norm ⟨2⟩ (some (run.tree.goal ⟨2⟩).var)⟩ ⟨normalizedX run, .idle⟩ :=
        .normal hnorm rfl rfl rfl
      have hoffer : Step chainedSearch ⟨normalizedX run, .idle⟩ ⟨trialX run, .offers ⟨2⟩ [c]⟩ :=
        .offer hnormal knows_fact happlied rfl rfl rfl
      have hattach : Step chainedSearch ⟨trialX run, .offers ⟨2⟩ [c]⟩
          ⟨{ trialX run with tree, solver }, .offers ⟨2⟩ []⟩ :=
        .attach hnormal (fun h => by cases h) hadd
      exact ⟨_, _, c, ((hsteps.tail hbegin).tail hrecord).tail hoffer,
        ⟨hattach, ⟨[], rfl⟩, Nat.not_lt.2 hold, hnew⟩, htest⟩
    · cases htest
  · cases htest

/-- The fact assigns `x`, so the goal for `y` is copied and `y` is assigned as well.  The goal
`P(y)` depends on `y` and is left behind. -/
theorem sibling_left_behind : ∃ sc sc' g c r k y,
    Steps chainedSearch (chainedSearch.opening rootSolver ⟨1⟩ ∅) sc ∧
    Attaches chainedSearch sc sc' g c r ∧ sc.run.tree.Beside g k ∧
    (sc.run.tree.goal k).irrelevant = false ∧ (sc.run.tree.goal k).state.isProven = false ∧
    y ∈ (sc.run.tree.goal k).vars ∧ y ∈ (sc'.run.tree.application r).assigned ∧
    (sc'.run.tree.application r).post.context.isAssigned (sc.run.tree.goal k).var = false := by
  obtain ⟨⟨⟩, run, hends, htest⟩ := exists_ends (x := chainedPasses)
    (s := (chainedSearch.opening rootSolver ⟨1⟩ ∅).run) (fun _ => factTest fun run _ tree =>
      (run.tree.cluster (run.tree.goal ⟨2⟩).cluster).goals.contains ⟨1⟩ &&
      !(run.tree.goal ⟨1⟩).irrelevant && !(run.tree.goal ⟨1⟩).state.isProven &&
      (run.tree.goal ⟨1⟩).vars.toList.contains ⟨3⟩ &&
      (tree.application ⟨1⟩).assigned.toList.contains ⟨3⟩ &&
      !(tree.application ⟨1⟩).post.context.isAssigned (run.tree.goal ⟨1⟩).var) (by decide +kernel)
  obtain ⟨sc, sc', c, hsteps, hattaches, htest⟩ := exists_chained_attaches hends htest
  simp only [Bool.and_eq_true, Bool.not_eq_true', List.contains_iff_mem, VarSet.mem_toList] at htest
  obtain ⟨⟨⟨⟨⟨hmem, hrel⟩, hproven⟩, hvars⟩, hassigned⟩, hopen⟩ := htest
  exact ⟨sc, sc', ⟨2⟩, c, ⟨1⟩, ⟨1⟩, ⟨3⟩, hsteps, hattaches, .here hmem (by decide), hrel, hproven,
    hvars, hassigned, hopen⟩

end Search

end ProofSearch
