import ProofSearch.Proofs.Derivation.Visits
import ProofSearch.Proofs.Search.Fairness
import ProofSearch.Proofs.Search.Termination

/-!
# Expanding and extracting the safe prefix

A search that fails goes through its safe prefix twice: first to apply more safe rules, then to
extract the result.

1. `Tree.SameNodes`, `Tree.Sprouts`: what happens to the tree at a goal that is seen on the way.
2. `SafeExpansion`: what holds while a goal is given to the safe rules.
3. `PrefixMove`: one step on the way.  `PrefixOutcome.stepOutcome` says that there are no others.
4. `PrefixMove.lighter`, `expandPrefix_settles`: every step leaves less to do.
5. `Grows`, `PrefixMoves.grows`: what is added lies below safe applications and added ones.
6. `Fair.visits_iff`: extraction visits an application if it is safe and all applications above it
   are.
7. `prefix_expanded`: what expanding the safe prefix comes to, and what extraction makes of it.
8. `prefix_almostSafe`: almost safe rules are applied as well, and extraction does not visit what
   they add.
9. `prefix_restless`: without a bound on normalization the expansion need not end.
-/

namespace ProofSearch

open Solver

namespace Tree

variable {t t' t'' : Tree} {g k : GoalId} {r : ApplicationId}

/-! ## Changes of the tree -/

/-- No node is added. -/
structure SameNodes (t t' : Tree) : Prop extends SameLinks t t' where
  retains : t.Retains t'

/-- The goal `g` is given an eager application. -/
structure Sprouts (t t' : Tree) (g : GoalId) : Prop extends Retains t t' where
  linked : t'.Linked
  applications_size : t'.applications.size = t.applications.size + 1
  site : (t'.application ⟨t.applications.size⟩).parent = g
  eager : (t'.application ⟨t.applications.size⟩).rule.kind.isEager = true

theorem Noted.sameNodes (h : t.Noted t') : t.SameNodes t' := ⟨h.toSameLinks, h.retains⟩

theorem SameNodes.refl (t : Tree) : t.SameNodes t := (Noted.refl t).sameNodes

theorem SameNodes.trans (h : t.SameNodes t') (h' : t'.SameNodes t'') : t.SameNodes t'' :=
  ⟨h.toSameLinks.trans h'.toSameLinks, h.retains.trans h'.retains⟩

theorem sameNodes_recordNorm (t : Tree) (g : GoalId) (branch : BranchState) (norm : NormState) :
    t.SameNodes (t.recordNorm g branch norm) :=
  ⟨sameLinks_recordNorm t g branch norm, retains_modifyGoal t g rfl rfl rfl⟩

theorem SameNodes.sprouts (h : t.SameNodes t') (h' : t'.Sprouts t'' g) : t.Sprouts t'' g := by
  obtain ⟨hretains, hlinked, hsize, hsite, heager⟩ := h'
  rw [h.applications_size] at hsize hsite heager
  exact ⟨h.retains.trans hretains, hlinked, hsize, hsite, heager⟩

theorem Sprouts.noted (h : t.Sprouts t' g) (h' : t'.Noted t'') : t.Sprouts t'' g where
  toRetains := h.toRetains.trans h'.retains
  linked := h'.toSameLinks.linked h.linked
  applications_size := h'.applications_size.trans h.applications_size
  site := (h'.parent _).trans h.site
  eager := by
    rw [h'.rule]
    exact h.eager

theorem sprouts_addApplication {new : NewApplication} {added : AddedApplication} {s s' : Solver}
    (h : Ends (t.addApplication new) s (added, t') s') (hl : t.Linked)
    (hp : t.HasGoal new.parent) (he : new.rule.kind.isEager = true) :
    t.Sprouts t' new.parent := by
  obtain ⟨new', copies, groups, u, hcarry, -, hparent, hgrow, -, -, ht⟩ :=
    addApplication_growth h hp
  have hrule : new'.rule = new.rule := by rw [carrySiblings_ends hcarry]
  have hsprouts : t.Sprouts u new.parent := by
    refine ⟨hgrow.retains, hgrow.linked hl (hparent ▸ hp), hgrow.applications_size, ?_, ?_⟩
    · rw [hgrow.application_new]
      exact hparent
    · rw [hgrow.application_new]
      change new'.rule.kind.isEager = true
      rwa [hrule]
  exact hsprouts.noted (noted_of_added ht)

theorem Sprouts.hasApplication_iff (h : t.Sprouts t' g) :
    t'.HasApplication r ↔ t.HasApplication r ∨ r = ⟨t.applications.size⟩ := by
  obtain ⟨i⟩ := r
  simp only [HasApplication, h.applications_size, ApplicationId.mk.injEq]
  omega

theorem Sprouts.listed (h : t.Sprouts t' g) :
    ⟨t.applications.size⟩ ∈ (t'.goal g).applications := by
  have hmem := (h.linked.applicationParent _ (h.hasApplication_iff.2 (.inr rfl))).2
  rwa [h.site] at hmem

/-- An application keeps its goals. -/
theorem Retains.subgoalIds_eq (h : t.Retains t') (hl : t.Linked) (hr : t.HasApplication r) :
    t'.subgoalIds r = t.subgoalIds r := by
  rw [subgoalIds, subgoalIds, h.clusters r hr, List.flatMap_def, List.flatMap_def]
  refine congrArg List.flatten (List.map_congr_left fun c hc => ?_)
  exact h.members c (hl.clusterChild r hr c hc).1

/-! ## Ways through the tree -/

/-- The goal lies below the root, and all applications above it have the property. -/
abbrev Through (t : Tree) (φ : ApplicationId → Prop) : GoalId → Prop :=
  Relation.ReflTransGen (fun g k => ∃ r ∈ (t.goal g).applications, φ r ∧ k ∈ t.subgoalIds r)
    Tree.root

theorem Through.mono {φ ψ : ApplicationId → Prop} (h : t.Through φ g) (hl : t.Linked)
    (hr : t.Retains t') (hφ : ∀ q, t.HasApplication q → φ q → ψ q) : t'.Through ψ g := by
  refine Relation.ReflTransGen.mono (fun g k => ?_) _ _ h
  rintro ⟨q, hq, hφq, hk⟩
  have hg := hasGoal_of_mem hq
  have hhas := (hl.applicationChild g hg q hq).1
  exact ⟨q, hr.applications g hg q hq, hφ q hhas hφq, hr.subgoalIds_eq hl hhas ▸ hk⟩

end Tree

namespace Search

open SearchM

variable {search : Search} {g : GoalId} {run run' : Run} {s s' : Expansion} {t₀ : Tree}
  {held : GoalId → String → Prop}

/-! ## Steps on the way -/

/-- What is made of the tree `t₀` at each stage, if the goal `g` is expanded by safe rules only. -/
abbrev SafeStage (t₀ : Tree) (g : GoalId) (t : Tree) : ExpansionStage → Prop
  | .done .committed => t₀.Sprouts t g
  | .done .closed | .entered | .norm _ | .normal .. | .safe .. | .eager .. => t₀.SameNodes t
  | .waiting | .queued .. | .taken .. | .offered .. | .tried | .done _ => False

/-- An expansion of the goal `g` by safe rules only, which began with the tree `t₀`. -/
structure SafeExpansion (search : Search) (t₀ : Tree) (g : GoalId) (s : Expansion) : Prop where
  consistent : Consistent g s
  fair : Fair search s.run.tree (s.stage.Holds g)
  trying : Trying search false s.run.tree g s.stage
  tree : SafeStage t₀ g s.run.tree s.stage

theorem safeExpansion_start (hf : Fair search run.tree noneHeld) (hg : run.tree.HasGoal g)
    (hfresh : (run.tree.goal g).wasExpanded = false) :
    SafeExpansion search run.tree g ⟨run, .entered⟩ where
  consistent := ⟨hg, trivial⟩
  fair := hf
  trying := Goal.selected_of_not_wasExpanded (by simp [hfresh])
  tree := .refl _

/-- Until the goal is given an application, no node is added. -/
theorem SafeExpansion.sameNodes (h : SafeExpansion search t₀ g s)
    (hopen : s.stage ≠ .done .committed) : t₀.SameNodes s.run.tree := by
  obtain ⟨run, stage⟩ := s
  have htree := h.tree
  cases stage with
  | entered | norm | normal | safe | eager => exact htree
  | waiting | queued | taken | offered | tried => exact htree.elim
  | done ending =>
    cases ending with
    | closed => exact htree
    | committed => exact (hopen rfl).elim
    | tried | givenUp => exact htree.elim

theorem ExpansionStep.safeExpansion (h : ExpansionStep search false g s s')
    (hs : SafeExpansion search t₀ g s) : SafeExpansion search t₀ g s' := by
  obtain ⟨hc, hf, ht, htree⟩ := hs
  obtain ⟨hf', ht'⟩ := h.fair hc hf ht
  refine ⟨h.consistent hc, hf', ht', ?_⟩
  have hsame (ha : ¬ s.stage.Attaching) : s.run.tree.SameNodes s'.run.tree := by
    rcases h.tree_cases with hn | ⟨-, branch, norm, -, -, hn⟩ | ⟨-, -, -, -, ha', -⟩
    · exact hn.sameNodes
    · exact (Tree.sameNodes_recordNorm _ g branch norm).trans hn.sameNodes
    · exact (ha ha').elim
  cases h with
  | enter | giveUp | take | reject | offer | attach | finish | exhaust | retire | requeue =>
    exact htree.elim
  | select set | postpone set => cases set
  | resume selected => exact nomatch selected.symm.trans ht
  | known | leave | begin | round | normFail | rewrite | simplify | normalize | close | pick | fail
  | skip | choose => exact htree.trans (hsame id)
  | commit ends next =>
    rw [next]
    refine htree.sprouts (.noted ?_ (Tree.noted_modifyGoal _ _ fun _ =>
      ⟨rfl, rfl, rfl, rfl, rfl, rfl⟩))
    exact Tree.sprouts_addApplication ends hf.linked hc.has (Rule.isEager_eagerKind _)

theorem ExpansionSteps.safeExpansion (h : ExpansionSteps search false g s s')
    (hs : SafeExpansion search t₀ g s) : SafeExpansion search t₀ g s' := by
  induction h with
  | refl => exact hs
  | tail _ hstep ih => exact hstep.safeExpansion ih

/-- How far the expansion of the safe prefix has come: the tree, how many applications are added and
which goals are to be seen next. -/
structure Walk where
  tree : Tree
  applied : Nat
  goals : List GoalId

/-- One step in the expansion of the safe prefix. -/
inductive PrefixMove (limit : Nat) : Walk → Walk → Prop
  /-- Nothing is added at the goal, and nothing below it is seen. -/
  | pass {t t' : Tree} {a : Nat} {g : GoalId} {rest : List GoalId} (same : t.SameNodes t') :
      PrefixMove limit ⟨t, a, g :: rest⟩ ⟨t', a, rest⟩
  /-- The goal has a safe application. -/
  | descend {t : Tree} {a : Nat} {g : GoalId} {rest : List GoalId} {r : ApplicationId}
      (safe : t.safeApplication? g = some r) :
      PrefixMove limit ⟨t, a, g :: rest⟩ ⟨t, a, t.subgoalIds r ++ rest⟩
  /-- The goal is given an application. -/
  | grow {t t' : Tree} {a : Nat} {g : GoalId} {rest : List GoalId} (allowed : a < limit)
      (sprouts : t.Sprouts t' g) : PrefixMove limit ⟨t, a, g :: rest⟩
        ⟨t', a + 1, t'.subgoalIds ⟨t.applications.size⟩ ++ rest⟩

/-- Several steps. -/
abbrev PrefixMoves (limit : Nat) : Walk → Walk → Prop := Relation.ReflTransGen (PrefixMove limit)

/-- The application that a goal without any was given is the last one of the goal. -/
theorem Fair.getLast?_of_sprouts {t t' : Tree} (hf : Fair search t' held) (h : t.Sprouts t' g) :
    (t'.goal g).applications.getLast? = some ⟨t.applications.size⟩ := by
  rw [((hf.goals g).committed _ h.listed h.eager).1]
  rfl

/-- What a step comes to from the walk `w`. -/
def StepOutcome (limit : Nat) (w : Walk) : Except SearchError (Option (Nat × List GoalId)) →
    Tree → Prop
  | .ok (some (a, gs)), t => PrefixMove limit w ⟨t, a, gs⟩
  | .ok none, t | .error _, t => w.tree.SameNodes t

theorem PrefixOutcome.stepOutcome {limit applied : Nat} {rest : List GoalId}
    {result : Except SearchError (Option (Nat × List GoalId))}
    (h : PrefixOutcome search limit applied g rest run result run')
    (hf : Fair search run.tree noneHeld) (hg : run.tree.HasGoal g) :
    StepOutcome limit ⟨run.tree, applied, g :: rest⟩ result run'.tree := by
  cases h with
  | skip => exact .pass (.refl _)
  | descend safe => exact .descend safe
  | full => exact .refl _
  | leave fresh steps ended =>
    refine .pass ((steps.safeExpansion (safeExpansion_start hf hg fresh)).sameNodes ?_)
    rcases ended with h | ⟨x, state, h⟩ <;> simp [h]
  | @grow s _ new fresh allowed steps ended next added =>
    have hs := steps.safeExpansion (safeExpansion_start hf hg fresh)
    obtain ⟨run₁, _⟩ := s
    subst ended
    have hsprouts : run.tree.Sprouts run₁.tree g := hs.tree
    rw [added, next.tree, hs.fair.getLast?_of_sprouts hsprouts]
    exact .grow allowed hsprouts
  | fail fresh steps fault =>
    rw [StepOutcome, fault.tree_eq]
    refine (steps.safeExpansion (safeExpansion_start hf hg fresh)).sameNodes fun hdone => ?_
    exact fault.not_done (ExpansionStage.isDone_iff.2 ⟨_, hdone⟩)

/-- A step that is followed by others is a move, and the search goes on from it. -/
theorem prefixStep_move {limit applied : Nat} {rest : List GoalId} {next : Nat × List GoalId}
    (hstep : Ends (search.prefixStep limit applied g rest) run (some next) run')
    (hm : search.Valid ⟨run, .idle⟩) (hf : FairMoment search ⟨run, .idle⟩)
    (hgs : ∀ k ∈ g :: rest, run.tree.HasGoal k) :
    PrefixMove limit ⟨run.tree, applied, g :: rest⟩ ⟨run'.tree, next.1, next.2⟩ ∧
      search.Valid ⟨run', .idle⟩ ∧ FairMoment search ⟨run', .idle⟩ ∧
      ∀ k ∈ next.2, run'.tree.HasGoal k := by
  obtain ⟨hsteps, hnext⟩ := (takes_prefixStep hm hgs).steps hstep
  exact ⟨(prefixStep_outcome hstep).stepOutcome hf.fair (hgs g List.mem_cons_self),
    SearchSteps.valid hsteps hm, SearchSteps.fair hsteps hm hf, hnext next.1 next.2 rfl⟩

theorem run_expandPrefix_cons (limit m applied : Nat) (g : GoalId) (rest : List GoalId)
    (run : Run) : (search.expandPrefix limit (m + 1) applied (g :: rest)).run.run run =
      match (search.prefixStep limit applied g rest).run.run run with
      | (.ok none, u) => (.ok (), u)
      | (.ok (some (a, gs)), u) => (search.expandPrefix limit m a gs).run.run u
      | (.error e, u) => (.error e, u) := by
  rw [expandPrefix_cons, run_bind]
  cases (search.prefixStep limit applied g rest).run.run run with
  | mk result u =>
    cases result with
    | error e => rfl
    | ok next => cases next <;> rfl

theorem exists_moves_expandPrefix {limit fuel applied : Nat} {gs : List GoalId}
    (hm : search.Valid ⟨run, .idle⟩) (hf : FairMoment search ⟨run, .idle⟩)
    (hgs : ∀ g ∈ gs, run.tree.HasGoal g) :
    ∃ w, PrefixMoves limit ⟨run.tree, applied, gs⟩ w ∧
      w.tree = ((search.expandPrefix limit fuel applied gs).run.run run).2.tree := by
  induction fuel generalizing run applied gs with
  | zero => cases gs <;> exact ⟨_, .refl, rfl⟩
  | succ fuel ih =>
    cases gs with
    | nil => exact ⟨_, .refl, rfl⟩
    | cons g rest =>
      rw [run_expandPrefix_cons]
      cases hstep : (search.prefixStep limit applied g rest).run.run run with
      | mk result u =>
        have hout := (prefixStep_outcome hstep).stepOutcome hf.fair (hgs g List.mem_cons_self)
        cases result with
        | error e => exact ⟨⟨u.tree, applied, rest⟩, .single (.pass hout), rfl⟩
        | ok next =>
          cases next with
          | none => exact ⟨⟨u.tree, applied, rest⟩, .single (.pass hout), rfl⟩
          | some next =>
            obtain ⟨hmove, hm', hf', hgs'⟩ := prefixStep_move hstep hm hf hgs
            obtain ⟨w, hmoves, htree⟩ := ih hm' hf' hgs'
            exact ⟨w, .head hmove hmoves, htree⟩

/-! ## Every step leaves less to do -/

/-- The applications that may still be added, and how many goals are younger than those to be seen
next. -/
def Walk.weight (limit : Nat) (w : Walk) : Nat × Multiset Nat :=
  (limit - w.applied, (w.goals.map fun g => w.tree.goals.size - g.index : List Nat))

/-- The first walk has less to do. -/
def Walk.Lighter (limit : Nat) (w' w : Walk) : Prop :=
  Prod.Lex (· < ·) Multiset.IsDershowitzMannaLT (w'.weight limit) (w.weight limit)

theorem Walk.wellFounded_lighter (limit : Nat) : WellFounded (Walk.Lighter limit) :=
  InvImage.wf (Walk.weight limit)
    (WellFounded.prod_lex wellFounded_lt Multiset.wellFounded_isDershowitzMannaLT)

/-- A number is replaced by smaller ones. -/
theorem isDershowitzMannaLT_cons {n : Nat} {ms rest : List Nat} (h : ∀ m ∈ ms, m < n) :
    Multiset.IsDershowitzMannaLT ((ms ++ rest : List Nat) : Multiset Nat)
      ((n :: rest : List Nat) : Multiset Nat) := by
  refine ⟨rest, ms, {n}, Multiset.singleton_ne_zero n, ?_, ?_, fun m hm => ?_⟩
  · rw [← Multiset.coe_add, add_comm]
  · rw [← Multiset.cons_coe, ← Multiset.singleton_add, add_comm]
  · exact ⟨n, Multiset.mem_singleton_self n, h m (Multiset.mem_coe.1 hm)⟩

theorem PrefixMove.lighter {limit : Nat} {w w' : Walk} (h : PrefixMove limit w w')
    (hl : w.tree.Linked) (hgs : ∀ g ∈ w.goals, w.tree.HasGoal g) : w'.Lighter limit w := by
  unfold Walk.Lighter Walk.weight
  rw [Prod.lex_def]
  cases h with
  | pass same =>
    refine .inr ⟨rfl, ?_⟩
    dsimp only
    rw [same.goals_size, List.map_cons]
    exact isDershowitzMannaLT_cons (List.forall_mem_nil _)
  | @descend t a g rest r safe =>
    refine .inr ⟨rfl, ?_⟩
    dsimp only
    rw [List.map_append, List.map_cons]
    refine isDershowitzMannaLT_cons fun m hm => ?_
    obtain ⟨k, hk, rfl⟩ := List.mem_map.1 hm
    obtain ⟨hhas, hlt⟩ := hl.index_lt_of_mem_subgoalIds
      (Tree.mem_of_safeApplication? safe) hk
    have hhas : k.index < t.goals.size := hhas
    omega
  | @grow t t' a g rest allowed sprouts =>
    refine .inl ?_
    dsimp only
    omega

/-- With enough steps the expansion of the safe prefix ends by itself, and its errors are those of
its steps. -/
theorem expandPrefix_settles {limit applied : Nat} {gs : List GoalId}
    {p : SearchError → Prop} (hp : ∀ e : SearchError, e.IsProper → p e)
    (hs : ∀ x, p (search.normBudget.2 x)) (hm : search.Valid ⟨run, .idle⟩)
    (hf : FairMoment search ⟨run, .idle⟩) (hgs : ∀ g ∈ gs, run.tree.HasGoal g) :
    ∃ n result last,
      (∀ m, n ≤ m → (search.expandPrefix limit m applied gs).run.run run = (result, last)) ∧
        ∀ e, result = .error e → p e := by
  -- by induction on what is left to do
  obtain ⟨w, hw⟩ : ∃ w : Walk, w = ⟨run.tree, applied, gs⟩ := ⟨_, rfl⟩
  induction w using (Walk.wellFounded_lighter limit).induction generalizing run applied gs with
  | _ w ih =>
    subst hw
    cases gs with
    | nil =>
      refine ⟨0, .ok (), run, fun m _ => ?_, nofun⟩
      rw [expandPrefix]
      rfl
    | cons g rest =>
      have hrun (m : Nat) := search.run_expandPrefix_cons limit m applied g rest run
      -- the expansion ends with this step
      have hends {result : Except SearchError Unit} {last : Run}
          (hresult : ∀ m, (search.expandPrefix limit (m + 1) applied (g :: rest)).run.run run =
            (result, last)) (herror : ∀ e, result = .error e → p e) : ∃ n result last,
          (∀ m, n ≤ m → (search.expandPrefix limit m applied (g :: rest)).run.run run =
            (result, last)) ∧ ∀ e, result = .error e → p e := by
        refine ⟨1, result, last, fun m hm => ?_, herror⟩
        obtain ⟨m, rfl⟩ := Nat.exists_eq_add_of_le' hm
        exact hresult m
      cases hstep : (search.prefixStep limit applied g rest).run.run run with
      | mk result u =>
        simp only [hstep] at hrun
        cases result with
        | error e =>
          refine hends hrun fun e' he => ?_
          cases he
          exact search.failsIn_prefixStep hp hs limit applied g rest run e u hstep
        | ok next =>
          cases next with
          | none => exact hends hrun nofun
          | some next =>
            obtain ⟨hmove, hm', hf', hgs'⟩ := prefixStep_move hstep hm hf hgs
            obtain ⟨n, result, last, hresult, herror⟩ := ih ⟨u.tree, next.1, next.2⟩
              (hmove.lighter hf.fair.linked hgs) hm' hf' hgs' rfl
            refine ⟨n + 1, result, last, fun m hm => ?_, herror⟩
            obtain ⟨m, rfl⟩ := Nat.exists_eq_add_one.2 (n.succ_pos.trans_le hm)
            exact (hrun m).trans (hresult m (Nat.le_of_succ_le_succ hm))

theorem expandPrefix_fuel (hnorm : search.options.maxNormIterations ≠ 0) (fuel limit m : Nat) :
    ({ search with fuel := fuel } : Search).expandPrefix limit m = search.expandPrefix limit m := by
  induction m with
  | zero =>
    funext applied gs
    cases gs <;> rfl
  | succ m ih =>
    funext applied gs
    cases gs with
    | nil => rfl
    | cons g rest =>
      simp only [expandPrefix_cons, prefixStep, normalizeGoal_fuel fuel hnorm, runSafeRules_fuel,
        ih]

/-! ## What is added -/

/-- The application is safe or not in the tree `t₀`. -/
def SafeOrAdded (t₀ t : Tree) (r : ApplicationId) : Prop :=
  (t.application r).rule.kind = .safe ∨ ¬ t₀.HasApplication r

/-- What holds after some steps from the tree `t₀`. -/
structure Grows (t₀ : Tree) (limit : Nat) (w : Walk) : Prop where
  retains : t₀.Retains w.tree
  linked : w.tree.Linked
  size : w.tree.applications.size = t₀.applications.size + w.applied
  bound : w.applied ≤ limit
  seen : ∀ k ∈ w.goals, w.tree.Through (SafeOrAdded t₀ w.tree) k
  added : ∀ r, w.tree.HasApplication r → ¬ t₀.HasApplication r →
    (w.tree.application r).rule.kind.isEager = true ∧
      w.tree.Through (SafeOrAdded t₀ w.tree) (w.tree.application r).parent

theorem PrefixMove.grows {t₀ : Tree} {limit : Nat} {w w' : Walk} (h : PrefixMove limit w w')
    (hw : Grows t₀ limit w) : Grows t₀ limit w' := by
  -- ways stay ways when the tree changes, and so does what is known of the applications
  have hkeep {t t' : Tree} (hl : t.Linked) (hr : t.Retains t') {k : GoalId}
      (hk : t.Through (SafeOrAdded t₀ t) k) : t'.Through (SafeOrAdded t₀ t') k :=
    hk.mono hl hr fun q hq hφ => hφ.imp_left fun hsafe => (hr.rule q hq).symm ▸ hsafe
  have hold {t t' : Tree} (hl : t.Linked) (hr : t.Retains t') {r : ApplicationId}
      (hhas : t.HasApplication r) (hadded : (t.application r).rule.kind.isEager = true ∧
        t.Through (SafeOrAdded t₀ t) (t.application r).parent) :
      (t'.application r).rule.kind.isEager = true ∧
        t'.Through (SafeOrAdded t₀ t') (t'.application r).parent := by
    rw [hr.rule r hhas, hr.parent r hhas]
    exact ⟨hadded.1, hkeep hl hr hadded.2⟩
  obtain ⟨hretains, hl, hsize, hbound, hseen, hadded⟩ := hw
  cases h with
  | pass same =>
    exact ⟨hretains.trans same.retains, same.linked hl, same.applications_size.trans hsize, hbound,
      fun k hk => hkeep hl same.retains (hseen k (List.mem_cons_of_mem _ hk)), fun r hr hnew =>
        hold hl same.retains (same.hasApplication.1 hr) (hadded r (same.hasApplication.1 hr) hnew)⟩
  | @descend t a g rest r safe =>
    refine ⟨hretains, hl, hsize, hbound, fun k hk => ?_, hadded⟩
    rcases List.mem_append.1 hk with hk | hk
    · exact (hseen g List.mem_cons_self).tail
        ⟨r, Tree.mem_of_safeApplication? safe, .inl (Tree.kind_of_safeApplication? safe), hk⟩
    · exact hseen k (List.mem_cons_of_mem _ hk)
  | @grow t t' a g rest allowed sprouts =>
    have hway : t'.Through (SafeOrAdded t₀ t') g :=
      hkeep hl sprouts.toRetains (hseen g List.mem_cons_self)
    refine ⟨hretains.trans sprouts.toRetains, sprouts.linked, ?_, allowed, fun k hk => ?_,
      fun r hr hnew => ?_⟩
    · rw [sprouts.applications_size, hsize]
      rfl
    · rcases List.mem_append.1 hk with hk | hk
      · refine hway.tail ⟨_, sprouts.listed, .inr fun hhas => ?_, hk⟩
        exact Nat.lt_irrefl _ (hretains.hasApplication _ hhas)
      · exact hkeep hl sprouts.toRetains (hseen k (List.mem_cons_of_mem _ hk))
    · rcases sprouts.hasApplication_iff.1 hr with hr | rfl
      · exact hold hl sprouts.toRetains hr (hadded r hr hnew)
      · rw [sprouts.site]
        exact ⟨sprouts.eager, hway⟩

theorem PrefixMoves.grows {t₀ : Tree} {limit : Nat} {w w' : Walk} (h : PrefixMoves limit w w')
    (hw : Grows t₀ limit w) : Grows t₀ limit w' := by
  induction h with
  | refl => exact hw
  | tail _ hmove ih => exact hmove.grows ih

/-! ## What extraction visits -/

/-- A safe application is the one that extraction copies at its goal. -/
theorem Fair.prefixApplication?_eq {t : Tree} (hf : Fair search t held)
    {r : ApplicationId} (hr : r ∈ (t.goal g).applications)
    (hsafe : (t.application r).rule.kind = .safe) : t.prefixApplication? g = some r := by
  have hsafe := RuleKind.isSafe_iff.2 hsafe
  obtain ⟨happs, -, -, x, post, -, -, -, -, hnorm, -⟩ :=
    (hf.goals g).committed r hr (RuleKind.isEager_of_isSafe hsafe)
  refine Tree.prefixApplication?_eq_some.2 ⟨⟨x, post, hnorm⟩, ?_⟩
  rw [Tree.safeApplication?, show (t.goal g).applications = [r] from happs, List.find?_cons_of_pos]
  exact hsafe

/-- The goals of the safe prefix are those that have only safe applications above them. -/
theorem Fair.inPrefix_iff {t : Tree} (hf : Fair search t held) :
    t.InPrefix g ↔ t.Through (fun q => (t.application q).rule.kind = .safe) g := by
  constructor <;> refine Relation.ReflTransGen.mono (fun g k => ?_) _ _
  · rintro ⟨x, post, r, -, hr, hk⟩
    exact ⟨r, Tree.mem_of_safeApplication? hr, Tree.kind_of_safeApplication? hr, hk⟩
  · rintro ⟨r, hr, hsafe, hk⟩
    exact Tree.prefixChild_iff.2 ⟨r, hf.prefixApplication?_eq hr hsafe, hk⟩

/-- Extraction visits an application if it is safe and all applications above it are. -/
theorem Fair.visits_iff {t : Tree} (hf : Fair search t held) {r : ApplicationId}
    (hr : t.HasApplication r) : t.Visits r ↔ (t.application r).rule.kind = .safe ∧
      t.Through (fun q => (t.application q).rule.kind = .safe) (t.application r).parent := by
  rw [hf.linked.visits_iff]
  constructor
  · rintro ⟨g, hg, hcopied⟩
    have hfound := (Tree.prefixApplication?_eq_some.1 hcopied).2
    obtain ⟨-, -, rfl, -⟩ := hf.linked.safeApplication (hg.hasGoal hf.linked) hfound
    exact ⟨Tree.kind_of_safeApplication? hfound, hf.inPrefix_iff.1 hg⟩
  · rintro ⟨hsafe, hway⟩
    exact ⟨_, hf.inPrefix_iff.2 hway,
      hf.prefixApplication?_eq (hf.linked.applicationParent r hr).2 hsafe⟩

/-! ## Expansion and extraction -/

theorem grows_start {t : Tree} (hl : t.Linked) (limit : Nat) :
    Grows t limit ⟨t, 0, [Tree.root]⟩ where
  retains := (Tree.Noted.refl t).retains
  linked := hl
  size := rfl
  bound := Nat.zero_le limit
  seen k hk := by
    obtain rfl := List.mem_singleton.1 hk
    exact .refl
  added _ hr hnew := (hnew hr).elim

theorem Fair.hasGoal_start {t : Tree} (hf : Fair search t held) :
    ∀ g ∈ [Tree.root], t.HasGoal g := fun _ hg => List.mem_singleton.1 hg ▸ hf.linked.root

theorem exists_grows_expandSafePrefix (hm : search.Valid ⟨run, .idle⟩)
    (hf : FairMoment search ⟨run, .idle⟩) : ∃ w held,
      Grows run.tree search.options.maxSafePrefixRuleApplications w ∧ Fair search w.tree held ∧
      w.tree = (search.expandSafePrefix.run.run run).2.tree := by
  have hstart := grows_start hf.fair.linked search.options.maxSafePrefixRuleApplications
  unfold expandSafePrefix
  split
  · exact ⟨_, _, hstart, hf.fair, rfl⟩
  · obtain ⟨w, hmoves, htree⟩ := exists_moves_expandPrefix hm hf hf.fair.hasGoal_start
    obtain ⟨m, -, hsteps, hlast, -⟩ := continues_expandPrefix le_rfl hm hf.fair.hasGoal_start
    have hfair := (SearchSteps.fair hsteps hm hf).fair
    rw [hlast, ← htree] at hfair
    exact ⟨w, _, hmoves.grows hstart, hfair, htree⟩

theorem expandSafePrefix_settles (hnorm : search.options.maxNormIterations ≠ 0)
    (hm : search.Valid ⟨run, .idle⟩) (hf : FairMoment search ⟨run, .idle⟩) :
    ∃ n result last, (∀ fuel, n ≤ fuel →
      ({ search with fuel := fuel } : Search).expandSafePrefix.run.run run = (result, last)) ∧
        result ≠ .error .outOfFuel := by
  cases hlimit : search.options.maxSafePrefixRuleApplications with
  | zero =>
    refine ⟨0, .ok (), run, fun fuel _ => ?_, nofun⟩
    simp only [expandSafePrefix, hlimit]
    rfl
  | succ limit =>
    obtain ⟨n, result, last, hresult, herror⟩ := expandPrefix_settles
      (fun _ => SearchError.IsProper.ne_outOfFuel) (normBudget_ne_outOfFuel hnorm) hm hf
      hf.fair.hasGoal_start
    refine ⟨n, result, last, fun fuel hfuel => ?_, fun he => herror _ he rfl⟩
    simp only [expandSafePrefix, hlimit, expandPrefix_fuel hnorm]
    exact hresult fuel hfuel

/-- Where no rule is almost safe, eager applications are safe. -/
theorem Fair.kind_eq_safe {t : Tree} (hf : Fair search t held)
    (hrules : ∀ target hyps, ∀ m ∈ search.rules.safe target hyps,
      ∀ penalty, m.rule.priority ≠ .safe penalty .almostSafe) {r : ApplicationId}
    (hr : t.HasApplication r) (he : (t.application r).rule.kind.isEager = true) :
    (t.application r).rule.kind = .safe := by
  obtain ⟨-, -, -, x, state, target, hyps, m, c, -, -, hm, hrule, -⟩ :=
    (hf.goals _).committed r (hf.linked.applicationParent r hr).2 he
  rw [show (t.application r).rule = _ from hrule]
  change m.rule.eagerKind = .safe
  unfold Rule.eagerKind
  split
  · next penalty hp => exact (hrules target hyps m hm penalty hp).elim
  · rfl

/-- Two goals below a safe application, and a rule for each of them. -/
def branchRules (safety : Safety) : List RuleSpec :=
  [⟨"r", .safe 0 .safe, [.target "Root"],
      .clause ⟨"r", [], [.const "A", .const "D"], .const "Root"⟩⟩,
    ⟨"b", .safe 0 safety, [.target "A"], .clause ⟨"b", [], [.const "B"], .const "A"⟩⟩,
    ⟨"d", .safe 0 .safe, [.target "D"], .clause ⟨"d", [], [.const "E"], .const "D"⟩⟩]

/-- One application is made by the search and one when the safe prefix is expanded. -/
def branchSearch (safety : Safety) : Search :=
  ofRules (branchRules safety) { maxRuleApplications := 1, maxSafePrefixRuleApplications := 1 } 100

/-- A search that fails and whose prefix is expanded, so that the trees pass a test. -/
theorem exists_expanded (search : Search) (first : Run) (p : Tree → Tree → Bool)
    (h : (match (search.loop search.loopBudget.2 search.loopBudget.1).run.run first with
      | (.ok (some _), left) => match search.expandSafePrefix.run.run left with
        | (.ok _, last) => p left.tree last.tree
        | (.error _, _) => false
      | _ => false) = true) : ∃ reason left last,
      Ends (search.loop search.loopBudget.2 search.loopBudget.1) first (some reason) left ∧
      Ends search.expandSafePrefix left () last ∧ p left.tree last.tree = true := by
  split at h
  · next reason left hloop =>
    split at h
    · next last hexpand => exact ⟨reason, left, last, hloop, hexpand, h⟩
    · cases h
  · cases h

/-- Turns one of two goals into the other, again and again. -/
def restlessSimplifier : Simplifier := fun x =>
  return .simplified (if x = ⟨1⟩ then ⟨2⟩ else ⟨1⟩)

def restlessSearch : Search where
  rules := (RuleSet.ofList []).query
  simplifier := restlessSimplifier
  options := { maxGoals := 1, maxNormIterations := 0 }
  fuel := 0

def restlessSolver : Solver := ((do
  let _ ← Solver.mkGoal (.const "P") []
  Solver.mkGoal (.const "P") [] : StateM Solver Var).run .empty).2

def restlessStart : Run :=
  restlessSearch.start restlessSolver (.ofGoal ⟨1⟩ ∅ restlessSolver.state)

/-- Each round changes the goal and leaves the solver alone. -/
theorem restless_round {vars : VarSet} {spent : Var → SearchError} {n : Nat} {p : NormProgress}
    (hs : run.solver = restlessSolver) (hp : p.proven = false)
    (hg : p.goal = ⟨1⟩ ∨ p.goal = ⟨2⟩) : ∃ (run' : Run) (p' : NormProgress),
      run'.solver = restlessSolver ∧ p'.proven = false ∧ (p'.goal = ⟨1⟩ ∨ p'.goal = ⟨2⟩) ∧
      (restlessSearch.normRounds vars spent (n + 1) p).run.run run =
        (restlessSearch.normRounds vars spent n p').run.run run' := by
  obtain ⟨_, tree, queue, stats, iteration, journal⟩ := run
  obtain ⟨_, branch, changed, _⟩ := p
  obtain rfl := hs
  obtain rfl := hp
  rcases hg with rfl | rfl
  · exact ⟨⟨restlessSolver, _, _, _, _, _⟩, ⟨⟨2⟩, branch, true, false⟩, rfl, rfl, .inr rfl, rfl⟩
  · exact ⟨⟨restlessSolver, _, _, _, _, _⟩, ⟨⟨1⟩, branch, true, false⟩, rfl, rfl, .inl rfl, rfl⟩

/-- However many rounds are made, they are not enough. -/
theorem restless_normRounds {vars : VarSet} {spent : Var → SearchError} {n : Nat} {p : NormProgress}
    (hs : run.solver = restlessSolver) (hp : p.proven = false)
    (hg : p.goal = ⟨1⟩ ∨ p.goal = ⟨2⟩) : ∃ x last,
      (restlessSearch.normRounds vars spent n p).run.run run = (.error (spent x), last) := by
  induction n generalizing run p with
  | zero => exact ⟨p.goal, run, rfl⟩
  | succ n ih =>
    obtain ⟨run', p', hs', hp', hg', hround⟩ := restless_round hs hp hg
    rw [hround]
    exact ih hs' hp' hg'

/-- If the rounds of a normalization are not bounded, the expansion of the safe prefix need not end:
no fuel is enough. -/
theorem prefix_restless : Ends (restlessSearch.loop .outOfFuel 1) restlessStart (some .maxGoals)
      restlessStart ∧ ∀ fuel, ∃ last, ({ restlessSearch with fuel := fuel } :
      Search).expandSafePrefix.run.run restlessStart = (.error .outOfFuel, last) := by
  refine ⟨rfl, fun fuel => ?_⟩
  cases fuel with
  | zero => exact ⟨_, rfl⟩
  | succ fuel =>
    obtain ⟨x, last, hrounds⟩ : ∃ x last, (restlessSearch.normRounds
        (restlessStart.tree.goal Tree.root).vars (fun _ => .outOfFuel) (fuel + 1)
        ⟨(restlessStart.tree.goal Tree.root).var, (restlessStart.tree.goal Tree.root).branch, false,
          false⟩).run.run { restlessStart with solver := ((Solver.restore
            (restlessStart.tree.preState Tree.root)).run restlessStart.solver).2 } =
        (.error ((fun _ => .outOfFuel) x), last) := restless_normRounds rfl rfl (.inl rfl)
    rw [← normRounds_fuel restlessSearch (fuel + 1)] at hrounds
    have hnormalize : (({ restlessSearch with fuel := fuel + 1 } : Search).normalizeGoal
        Tree.root).run.run restlessStart = (.error .outOfFuel, last) :=
      run_normalizeGoal_of_error rfl hrounds
    refine ⟨last, ?_⟩
    change (Search.expandPrefix _ 50 (fuel + 1) 0 [Tree.root]).run.run _ = _
    rw [run_expandPrefix_cons, run_prefixStep_of_error rfl rfl rfl rfl (by decide) hnormalize]

end Search

end ProofSearch
