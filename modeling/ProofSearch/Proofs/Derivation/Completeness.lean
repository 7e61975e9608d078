import ProofSearch.Proofs.Derivation.Covering
import ProofSearch.Proofs.Derivation.Expansion
import ProofSearch.Proofs.Derivation.Extraction

/-!
# Searches that decide derivability

If all rules are tentative, determined and selected for every goal, and nothing limits the search,
then its verdict is right: a proven root is derivable, and an unprovable one is not.

1. `Explored.exists_derives`, `Explored.not_derives`: what the states of goals say about their
   types.
2. `yields_extractSafePrefix`, `yields_expandSafePrefix`: the safe prefix of a failed search is the
   open root.
3. `decides_derivability`: a search that ends decides whether its goal is derivable by the rules.
4. `hypotheses_unused`: without a rule that uses hypotheses, they do not count.
-/

namespace ProofSearch

open Solver

variable {P : Problem} {σ : Valuation} {rules : List RuleSpec} {t : Tree}

/-! ## Verdicts -/

/-- The goals below an application come later than the goal above it. -/
theorem Tree.Linked.child_later (hl : t.Linked) {r : ApplicationId} {c : ClusterId} {k : GoalId}
    (hr : t.HasApplication r) (hc : c ∈ (t.application r).clusters) (hk : k ∈ (t.cluster c).goals) :
    t.HasGoal k ∧ (t.application r).parent.index < k.index := by
  obtain ⟨hhas, hparent⟩ := hl.clusterChild r hr c hc
  obtain ⟨hkg, hhome⟩ := hl.member c hhas k hk
  exact ⟨hkg, hl.earlier k r hkg (by rw [Tree.parentApplication?, hhome, hparent])⟩

namespace Explored

/-- Proven goals have derivable types. -/
theorem exists_derives {exempt : GoalId → Rule → Prop} (h : Explored P σ rules exempt t)
    (hs : t.Sound) (hn : t.NormBacked) {g : GoalId} {A : Term} (hg : t.HasGoal g)
    (hp : (t.goal g).state.isProven = true) (hA : t.HasType g A) :
    ∃ q, Derives (RuleSpec.clauses rules) (RuleSpec.usableHyps rules P.hyps) q A := by
  -- subgoals come later in the tree than the goals above them
  induction hi : t.goals.size - g.index using Nat.strong_induction_on generalizing g A with
  | _ n ih =>
    have hrule : (t.goal g).state = .provenByRule := by
      cases hstate : (t.goal g).state with
      | unknown | unprovable =>
        rw [hstate] at hp
        cases hp
      | provenByNorm =>
        obtain ⟨post, hpost⟩ := hn g hstate
        rcases (h.goal g hg).norm with hnorm | hnorm <;> cases hpost.symm.trans hnorm
      | provenByRule => rfl
    obtain ⟨r, hr, hrp⟩ := (hs.goal g hg).byRule hrule
    obtain ⟨hhas, hparent⟩ := h.linked.applicationChild g hg r hr
    obtain ⟨spec, hspec, B, premises, vars, hB, ho, hreduces, hchildren⟩ := (h.way r hhas).step
    rw [hparent] at hB
    obtain rfl := Except.ok.inj (hA.symm.trans hB)
    refine exists_derives_of_offers hspec ho fun C hC => ?_
    obtain ⟨c, hc, k, hk, hkC⟩ :=
      exists_left_of_mem (hreduces.children h.linked hhas hchildren) hC
    obtain ⟨hkg, hlt⟩ := h.linked.child_later hhas hc (by rw [hk]; exact List.mem_singleton_self k)
    have hproven := hs.child_proven h.linked hhas hrp hc hk
    have hsize : k.index < t.goals.size := hkg
    rw [hparent] at hlt
    exact ih _ (by omega) hkg hproven hkC rfl

/-- Unprovable goals have types that are not derivable. -/
theorem not_derives (h : Explored P σ rules nothing t) (hs : t.Sound) {g : GoalId} {A q : Term}
    (hg : t.HasGoal g) (hu : (t.goal g).state = .unprovable) (hA : t.HasType g A) :
    ¬ Derives (RuleSpec.clauses rules) (RuleSpec.usableHyps rules P.hyps) q A := by
  intro hq
  refine not_derives_of_stuck (U := fun A => ∃ g, t.HasGoal g ∧ (t.goal g).state = .unprovable ∧
    t.HasType g A) ?_ hq ⟨g, hg, hu, hA⟩
  rintro B ⟨k, hk, hku, hB⟩ spec hspec premises ho
  obtain ⟨hexhausted, hfailed⟩ := (hs.goal k hk).unprovable hku
  rw [Goal.isExhausted, (h.goal k hk).forced, Bool.false_or, Bool.and_eq_true] at hexhausted
  obtain ⟨r, hr, hchildren⟩ : t.Realizes k premises := by
    rcases (h.tried k hk hexhausted.1 spec.rule ⟨spec, hspec, rfl⟩).resolve_left id with
      ⟨e, he, -⟩ | hways
    · rw [List.isEmpty_iff.1 hexhausted.2] at he
      cases he
    · exact hways B premises hB ⟨spec, hspec, rfl, ho⟩
  have hhas := (h.linked.applicationChild k hk r hr).1
  obtain ⟨c, hc, hcu⟩ := (hs.application r hhas).unprovable (hfailed r hr)
  obtain ⟨C, hC, j, hj, hjC⟩ := exists_right_of_mem hchildren hc
  have hmem : j ∈ (t.cluster c).goals := by
    rw [hj]
    exact List.mem_singleton_self j
  exact ⟨C, hC, j, (h.linked.child_later hhas hc hmem).1,
    (hs.cluster c (h.linked.clusterChild r hhas c hc).1).unprovable hcu j hmem, hjC⟩

end Explored

/-! ## Safe prefixes -/

theorem Explored.safeApplication?_eq_none {exempt : GoalId → Rule → Prop}
    (h : Explored P σ rules exempt t) {g : GoalId} (hg : t.HasGoal g) :
    t.safeApplication? g = none := by
  refine List.find?_eq_none.2 fun r hr => ?_
  rw [(h.way r (h.linked.applicationChild g hg r hr).1).kind]
  decide

section

variable {x : Var} {s : Solver} {E : SearchError → Prop}

/-- Nothing is copied for a variable that is declared here and open there. -/
theorem ends_copyDecl (source : Context) (guard : DepthGuard) (hd : s.context.isDeclared x = true) :
    Ends (Transplant.copyDecl source guard x) s () s := by
  refine ends_bind.2 ⟨s, s, ends_get.2 ⟨rfl, rfl⟩, ?_⟩
  rw [if_pos hd]
  exact ends_pure.2 ⟨rfl, rfl⟩

theorem ends_copyBinding {source : Context} (guard : DepthGuard)
    (hd : s.context.isDeclared x = true) (hb : source.binding? x = none) :
    Ends (Transplant.copyBinding source guard x) s () s := by
  obtain ⟨n, hn⟩ : ∃ n, Transplant.nestingBound source = n + 1 :=
    Nat.exists_eq_succ_of_ne_zero (by simp [Transplant.nestingBound])
  rw [Transplant.copyBinding_eq, hn, Transplant.copyNested]
  refine ends_bind.2 ⟨(), s, ends_bind.2 ⟨s, s, ends_get.2 ⟨rfl, rfl⟩, ?_⟩,
    ends_bind.2 ⟨s, s, ends_get.2 ⟨rfl, rfl⟩, ?_⟩⟩
  · rw [if_pos hd]
    exact ends_pure.2 ⟨rfl, rfl⟩
  · rw [hb]
    split <;> exact ends_pure.2 ⟨rfl, rfl⟩

/-- Where no safe rule was applied the safe prefix is the open root. -/
theorem Tree.yields_extractSafePrefix (hnorm : (t.goal Tree.root).norm = .normal x t.rootState)
    (hx : (t.goal Tree.root).var = x) (hsafe : t.safeApplication? Tree.root = none)
    (hd : t.rootState.context.isDeclared x = true) (hb : t.rootState.context.binding? x = none)
    (limit : Nat) : Yields (t.extractSafePrefix limit) s E fun _ _ => True := by
  have hcopy : Yields (t.copyNormalization (.ofLimit limit) Tree.root t.rootState)
      { s with state := t.rootState } E fun _ u => u.context.isDeclared x = true := by
    unfold copyNormalization
    rw [hx]
    have hleft : Ends (Transplant.copyBinding t.rootState.context (.ofLimit limit) x)
      { s with state := t.rootState } () { s with state := t.rootState } := ends_copyBinding _ hd hb
    exact hleft.bind (yields_mergeEnv (Q := fun m => m.isDeclared x = true) hd)
  have hprefix : Yields (t.prefixGoal (t.goals.size + 1) (.ofLimit limit) Tree.root [])
      { s with state := t.rootState } E fun _ _ => True := by
    unfold prefixGoal
    rw [hnorm]
    refine yields_bind hcopy fun _ u hu => ?_
    rw [hsafe]
    refine (ends_copyDecl _ _ hu).bind ((ends_get.2 ⟨rfl, rfl⟩).bind ?_)
    split <;> exact yields_pure trivial
  rw [extractSafePrefix_eq]
  refine ((Solver.ends_restore (a := ())).2 rfl).bind (yields_bind hprefix fun _ u _ => ?_)
  exact (ends_get.2 ⟨rfl, rfl⟩).bind (yields_pure trivial)

end

namespace Search

open SearchM

variable {search : Search} {run : Run}

/-- A root that was expanded without safe rules is not expanded further. -/
theorem yields_expandSafePrefix (hforced : (run.tree.goal Tree.root).forced = false)
    (hproven : (run.tree.goal Tree.root).state.isProven = false)
    (hsafe : run.tree.safeApplication? Tree.root = none)
    (hexpanded : (run.tree.goal Tree.root).wasExpanded = true) :
    Yields search.expandSafePrefix run (· = .outOfFuel) fun _ run' => run' = run := by
  unfold expandSafePrefix
  split
  · exact yields_pure rfl
  · cases search.fuel with
    | zero => exact yields_throw rfl
    | succ fuel =>
      refine (ends_getTree.2 ⟨rfl, rfl⟩).bind ?_
      rw [if_neg (by simp [hforced, hproven]), hsafe]
      dsimp only
      rw [if_pos hexpanded]
      unfold expandPrefix
      exact yields_pure rfl

/-! ## Results -/

/-- Without limits the loop ends only when the root is decided. -/
theorem verdict?_unlimited {verdict : Option FailureReason} (hgoals : search.options.maxGoals = 0)
    (happs : search.options.maxRuleApplications = 0) (h : search.verdict? t = some verdict) :
    verdict = none ∧ (t.goal Tree.root).state.isProven = true ∨
      verdict = some .unprovable ∧ (t.goal Tree.root).state = .unprovable := by
  unfold verdict? at h
  dsimp only at h
  split at h
  · next hp =>
    cases h
    exact .inl ⟨rfl, hp⟩
  · split at h
    · next hu =>
      cases h
      exact .inr ⟨rfl, GoalState.isUnprovable_iff.1 hu⟩
    · simp [hgoals, happs] at h

/-- A search whose root is unprovable fails for that reason. -/
theorem Exploring.yields_finish (h : Exploring P rules run)
    (hs : Steady search Tree.nowhere run.tree run.queue)
    (hterminal : search.options.terminal = false)
    (hu : (run.tree.goal Tree.root).state = .unprovable) :
    Yields (search.finish (some .unprovable)) run (· = .outOfFuel) fun result _ =>
      ∃ safePrefix message stats, result = .failed safePrefix .unprovable message stats := by
  obtain ⟨σ, -, hexplored⟩ := h
  have hroot := hexplored.linked.root
  obtain ⟨-, hforced, hnorm, -⟩ := hexplored.goal Tree.root hroot
  have hexhausted := ((hs.pending.sound.goal Tree.root hroot).unprovable hu).1
  rw [Goal.isExhausted, hforced, Bool.false_or, Bool.and_eq_true] at hexhausted
  -- a goal for which rules were selected is normalized
  have hnormal := hnorm.resolve_left fun hfresh =>
    by cases ((hs.orderly Tree.root hroot).fresh hfresh).2.symm.trans hexhausted.1
  rw [hexplored.linked.preState_root] at hnormal
  have hsafe := hexplored.safeApplication?_eq_none hroot
  refine (ends_get.2 ⟨rfl, rfl⟩).bind ?_
  rw [if_neg (by simp [hterminal])]
  refine yields_bind (yields_expandSafePrefix hforced (by rw [hu]; rfl) hsafe
    (by rw [Goal.wasExpanded, hexhausted.1]; rfl)) ?_
  rintro - u rfl
  refine (ends_getTree.2 ⟨rfl, rfl⟩).bind (yields_bind (yields_onSolverM (Q := fun _ _ => True)
    (Tree.yields_extractSafePrefix hnormal rfl hsafe hexplored.root.declared
      hexplored.root.unbound _)) ?_)
  rintro safePrefix v -
  exact (ends_get.2 ⟨rfl, rfl⟩).bind (yields_pure ⟨_, _, _, rfl⟩)

end Search

/-- The result tells whether a goal is derivable by the rules. -/
def SearchResult.Decides (rules : List RuleSpec) (d : VarDecl) : SearchResult → Prop
  | .proved _ _ => ∃ q, Derives (RuleSpec.clauses rules) (RuleSpec.usableHyps rules d.hyps) q d.type
  | .failed _ reason _ _ => reason = .unprovable ∧
      ∀ q, ¬ Derives (RuleSpec.clauses rules) (RuleSpec.usableHyps rules d.hyps) q d.type

namespace Search

open SearchM

section

variable {options : Options} {fuel : Nat} {s : Solver} {saved : List Snapshot} {root : Var}
  {d : VarDecl}

theorem yields_runAll (hrules : ∀ r ∈ rules, r.isUnrestricted = true)
    (hgoals : options.maxGoals = 0) (happs : options.maxRuleApplications = 0)
    (hdepth : options.maxRuleApplicationDepth = 0) (hrec : options.maxRecursionDepth = 0)
    (hterminal : options.terminal = false) (hs : Solver.Built s saved)
    (hd : s.context.decl? root = some d) (hopen : s.context.isAssigned root = false)
    (htype : d.type.hasVar = false) (hhyps : ∀ h ∈ d.hyps, h.type.hasVar = false) :
    Yields (ofRules rules options fuel).runAll
      ((ofRules rules options fuel).start s (.ofGoal root ∅ s.state)) (· = .outOfFuel)
      fun result _ => result.Decides rules d := by
  have hclosed := RuleSpec.isClosed_of_isUnrestricted hrules
  have hdecl := Context.isDeclared_of_decl? hd
  have hbinding : s.context.binding? root = none := by simpa [Context.isAssigned] using hopen
  let P := Problem.ofGoal (RuleSpec.clauses rules) s root d hclosed (hs.numbered.1 root hdecl) htype
    hhyps
  have hu : (ofRules rules options fuel).Unrestricted rules :=
    unrestricted_ofRules hrules hdepth fuel
  have hexploring : Exploring P rules
      ((ofRules rules options fuel).start s (.ofGoal root ∅ s.state)) :=
    ⟨.blank s.lastId, rfl, explored_ofGoal hs.numbered.1 rfl hd hbinding rfl rfl⟩
  have hsteady : Steady (ofRules rules options fuel) Tree.nowhere _ _ := steady_start s root ∅
  have hbudget : (ofRules rules options fuel).loopBudget = (fuel, .outOfFuel) := by
    simp [loopBudget, ofRules, hrec]
  rw [runAll_eq, hbudget]
  refine yields_bind (hexploring.yields_loop hu hsteady .first fuel) ?_
  rintro verdict last ⟨hreached, hverdict, hlast⟩
  have hsound := (hreached.steady hsteady).pending.sound
  obtain ⟨σ, -, hexplored⟩ := id hlast
  have hroot := hexplored.linked.root
  rcases verdict?_unlimited hgoals happs hverdict with ⟨rfl, hproven⟩ | ⟨rfl, hunprovable⟩
  · have hextract : Yields (last.tree.extractProof options.maxRecursionDepth) last.solver
        (· = .outOfFuel) fun _ _ => True := by
      rw [hrec]
      refine (hreached.yields_extractProof hclosed hs hd hopen htype hhyps hproven).errors ?_
      rintro e (⟨hopen, -⟩ | ⟨hcycle, -⟩)
      · exact (hopen (hexplored.covered hsound)).elim
      · exact (hcycle hexplored.ordered).elim
    have hnorm := hreached.normBacked hsteady (Tree.normBacked_ofGoal root ∅ s.state)
    refine (ends_getTree.2 ⟨rfl, rfl⟩).bind
      (yields_bind (yields_onSolverM (Q := fun _ _ => True) hextract) ?_)
    rintro proof u -
    exact (ends_get.2 ⟨rfl, rfl⟩).bind
      (yields_pure (hexplored.exists_derives hsound hnorm hroot hproven hexplored.type))
  · refine (hlast.yields_finish (hreached.steady hsteady) hterminal hunprovable).mono ?_
    rintro result u ⟨safePrefix, message, stats, rfl⟩
    exact ⟨rfl, fun q => hexplored.not_derives hsound hroot hunprovable hexplored.type⟩

end

/-- A search by determined rules that nothing limits ends with a result, if it ends at all, and the
result tells whether the goal is derivable. -/
theorem decides_derivability (rules : List RuleSpec) (options : Options) (fuel : Nat) (s : Solver)
    (saved : List Snapshot) (root : Var) (d : VarDecl)
    (hrules : ∀ r ∈ rules, r.isUnrestricted = true)
    (hgoals : options.maxGoals = 0) (happs : options.maxRuleApplications = 0)
    (hdepth : options.maxRuleApplicationDepth = 0) (hrec : options.maxRecursionDepth = 0)
    (hterminal : options.terminal = false) (hs : Solver.Built s saved)
    (hd : s.context.decl? root = some d) (hopen : s.context.isAssigned root = false)
    (htype : d.type.hasVar = false) (hhyps : ∀ h ∈ d.hyps, h.type.hasVar = false) :
    (∀ failure, ((ofRules rules options fuel).run s root).result = .error failure →
      failure.error = .outOfFuel) ∧
    ∀ result, ((ofRules rules options fuel).run s root).result = .ok result →
      result.Decides rules d := by
  have hdeps : s.context.dependencies root = .ok ∅ := by
    refine Context.dependencies_closed hd ?_ fun h hh => ?_
    · rwa [Context.instantiate_closed htype]
    · rw [Context.instantiate_closed (hhyps h hh)]
      exact hhyps h hh
  rw [run_eq _ hdeps]
  have hyields : Yields (ofRules rules options fuel).runAll _ _ _ :=
    yields_runAll hrules hgoals happs hdepth hrec hterminal hs hd hopen htype hhyps
  rcases hyields.cases with ⟨result, final, hrun, hdecides⟩ | ⟨e, final, hrun, he⟩
  · rw [show (ofRules rules options fuel).runAll.run.run _ = (.ok result, final) from hrun]
    exact ⟨nofun, fun _ h => Except.ok.inj h ▸ hdecides⟩
  · rw [hrun]
    exact ⟨fun _ h => Except.error.inj h ▸ he, nofun⟩

/-! ## Even numbers -/

/-- The numeral `s(…s(0)…)`. -/
def numeral : Nat → Term
  | 0 => .const "0"
  | n + 1 => .app "s" [numeral n]

def even (n : Nat) : Term := .app "Even" [numeral n]

/-- Two more than an even number is even. -/
def evenStep : Clause where
  name := "step"
  params := [("n", .const "Nat")]
  premises := [.app "Even" [.hyp "n"]]
  conclusion := .app "Even" [.app "s" [.app "s" [.hyp "n"]]]

def stepRule : RuleSpec := ⟨"step", .tentative .ninety, [], .clause evenStep⟩

def hypRule : RuleSpec := ⟨"assumption", .tentative .hundred, [], .assumption false⟩

/-- The hypothesis that zero is even. -/
def evenZero : Hypothesis := ⟨"h", even 0⟩

def evenSolver (n : Nat) : Solver := (Operation.mkGoal (even n) [evenZero]).perform .empty

def unlimited : Options :=
  { maxRuleApplications := 0, maxRuleApplicationDepth := 0, maxRecursionDepth := 0 }

/-- The result of the search for a proof that `n` is even. -/
def evenResult (rules : List RuleSpec) (n : Nat) : Except SearchFailure SearchResult :=
  ((ofRules rules unlimited 20).run (evenSolver n) ⟨1⟩).result

/-- The search ended with a proof. -/
def isProved : Except SearchFailure SearchResult → Bool
  | .ok (.proved _ _) => true
  | _ => false

/-- The search ended because nothing was left to try. -/
def isUnprovable : Except SearchFailure SearchResult → Bool
  | .ok (.failed _ .unprovable _ _) => true
  | _ => false

/-- Three is not even, and four is. -/
theorem decides_derivability_even :
    (∃ safePrefix message stats,
      evenResult [hypRule, stepRule] 3 = .ok (.failed safePrefix .unprovable message stats)) ∧
    (∀ q, ¬ Derives [evenStep] [evenZero] q (even 3)) ∧
    (∃ proof stats, evenResult [hypRule, stepRule] 4 = .ok (.proved proof stats)) ∧
    ∃ q, Derives [evenStep] [evenZero] q (even 4) := by
  have hdecides (n : Nat) (hn : (even n).hasVar = false) := decides_derivability
    [hypRule, stepRule] unlimited 20 (evenSolver n) [] ⟨1⟩ ⟨even n, [evenZero], none⟩
    (by decide +kernel) rfl rfl rfl rfl rfl (.perform _ .empty) rfl rfl hn
    (by intro h hh; obtain rfl := List.mem_singleton.1 hh; rfl)
  have hodd : isUnprovable (evenResult [hypRule, stepRule] 3) = true := by decide +kernel
  have heven : isProved (evenResult [hypRule, stepRule] 4) = true := by decide +kernel
  unfold isUnprovable at hodd
  split at hodd
  · next safePrefix message stats hthree =>
    obtain ⟨-, hunderivable⟩ := (hdecides 3 rfl).2 _ hthree
    unfold isProved at heven
    split at heven
    · next proof stats' hfour =>
      exact ⟨⟨safePrefix, message, stats, hthree⟩, hunderivable, ⟨proof, stats', hfour⟩,
        (hdecides 4 rfl).2 _ hfour⟩
    · cases heven
  · cases hodd

/-- Two is even by the hypothesis and one step, but no rule of the search uses hypotheses. -/
theorem hypotheses_unused : stepRule.isUnrestricted = true ∧
    (∃ safePrefix message stats,
      evenResult [stepRule] 2 = .ok (.failed safePrefix .unprovable message stats)) ∧
    Derives (RuleSpec.clauses [stepRule]) [evenZero] (.app "step" [numeral 0, .hyp "h"])
      (even 2) := by
  have htest : isUnprovable (evenResult [stepRule] 2) = true := by decide +kernel
  have hderives := @Derives.clause [evenStep] [evenZero] evenStep [numeral 0] [.hyp "h"]
    (List.mem_singleton_self _) rfl rfl fun q premise hq => by
      obtain ⟨rfl, rfl⟩ := Prod.mk.inj (List.mem_singleton.1 hq)
      exact .hyp (List.mem_singleton_self evenZero)
  unfold isUnprovable at htest
  split at htest
  · next safePrefix message stats hresult =>
    exact ⟨by decide +kernel, ⟨safePrefix, message, stats, hresult⟩, hderives⟩
  · cases htest

end Search

end ProofSearch
