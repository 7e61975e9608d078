import ProofSearch.Proofs.Answer.Provenance

/-!
# Global declarations in a proof

Normalization and rules may declare auxiliary lemmas, each on its own branch of the tree.  A proof
collects them from the branches that it is copied from, and two branches may have declared the same
name.

1. `EnvStep`: what one normalization or one application has done to the global declarations.
2. `Tree.ProofStep`, `Tree.proofSteps`: the steps of a proof, and their list in the order in which
   they are copied.
3. `Collects`: computations that add what a list of steps has gained, an earlier step before a later
   one.  `collects_mergeEnv` says so of one step and `collects_extractGoal` of a proof.
4. `Tree.gained_declared`: what a step has gained is declared in the proof, unless an earlier step
   has declared the name differently.
-/

namespace ProofSearch

open Solver

/-! ## Steps -/

/-- The global declarations before and after a normalization or an application. -/
structure EnvStep where
  before : Environment
  after : Environment
deriving DecidableEq

namespace EnvStep

/-- The value that a step gives to a name which had none. -/
def gained? (step : EnvStep) (name : String) : Option Term :=
  if step.before.contains name then none else step.after.get? name

/-- The first value that one of the steps gives to a name. -/
def firstGained? (steps : List EnvStep) (name : String) : Option Term :=
  steps.findSome? (·.gained? name)

@[simp] theorem firstGained?_nil (name : String) : firstGained? [] name = none := rfl

theorem firstGained?_append (steps later : List EnvStep) (name : String) :
    firstGained? (steps ++ later) name = (firstGained? steps name).or (firstGained? later name) :=
  List.findSome?_append

theorem firstGained?_singleton (step : EnvStep) (name : String) :
    firstGained? [step] name = step.gained? name := by
  simp [firstGained?]

/-- A step gives a name its first value if no earlier step gives it another one. -/
theorem firstGained?_eq_some {earlier later : List EnvStep} {step : EnvStep} {name : String}
    {value : Term} (hstep : step.gained? name = some value)
    (h : ∀ e ∈ earlier, ∀ v, e.gained? name = some v → v = value) :
    firstGained? (earlier ++ step :: later) name = some value := by
  rw [firstGained?_append]
  cases hfirst : firstGained? earlier name with
  | none => simp [firstGained?, hstep]
  | some v =>
    obtain ⟨e, he, hv⟩ := List.exists_of_findSome?_eq_some hfirst
    rw [h e he v hv]
    rfl

end EnvStep

namespace Tree

/-- A step that the proof of the root is copied from. -/
inductive ProofStep (t : Tree) : EnvStep → Prop
  | norm {g : GoalId} {post : Snapshot} : t.Contributes g → (t.goal g).normPost? = some post →
      t.ProofStep ⟨(t.preState g).env, post.env⟩
  | applied {g : GoalId} {x : Var} {post : Snapshot} {r : ApplicationId} :
      t.Contributes g → (t.goal g).norm = .normal x post →
      ((t.goal g).applications.find? fun r => (t.application r).state.isProven) = some r →
      t.ProofStep ⟨post.env, (t.application r).post.env⟩

/-- The steps that the proof of a goal is copied from, nested at most `fuel` times: a goal before
those below it, and clusters in their order. -/
def stepsFrom (t : Tree) : Nat → GoalId → List EnvStep
  | 0, _ => []
  | fuel + 1, g =>
    match (t.goal g).norm with
    | .notNormal => []
    | .proven post => [⟨(t.preState g).env, post.env⟩]
    | .normal _ post =>
      ⟨(t.preState g).env, post.env⟩ ::
        match (t.goal g).applications.find? fun r => (t.application r).state.isProven with
        | none => []
        | some r =>
          ⟨post.env, (t.application r).post.env⟩ ::
            (t.application r).clusters.flatMap fun c =>
              match (t.cluster c).goals.find? fun g => (t.goal g).state.isProven with
              | none => []
              | some k => t.stepsFrom fuel k

/-- The steps of the proof of the root. -/
def proofSteps (t : Tree) : List EnvStep := t.stepsFrom (t.goals.size + 1) root

theorem proofStep_of_mem {t : Tree} {g : GoalId} (hg : t.Contributes g) {fuel : Nat}
    {step : EnvStep} (h : step ∈ t.stepsFrom fuel g) : t.ProofStep step := by
  induction fuel generalizing g with
  | zero => cases h
  | succ fuel ih =>
    unfold stepsFrom at h
    split at h
    · cases h
    · next post hn =>
      obtain rfl := List.mem_singleton.1 h
      exact .norm hg (by rw [Goal.normPost?, hn])
    · next x post hn =>
      rcases List.mem_cons.1 h with rfl | h
      · exact .norm hg (by rw [Goal.normPost?, hn])
      · split at h
        · cases h
        · next r hr =>
          rcases List.mem_cons.1 h with rfl | h
          · exact .applied hg hn hr
          · obtain ⟨c, hc, h⟩ := List.mem_flatMap.1 h
            split at h
            · cases h
            · next k hk => exact ih (.member hg hn hr hc hk) h

end Tree

/-! ## Collecting -/

/-- A computation that ends has declared every name as before, or else as the first of the steps
that gained it. -/
def Collects {ε α : Type} (steps : List EnvStep) (c : SolverM ε α) : Prop :=
  ∀ s a u, Ends c s a u → ∀ name,
    u.env.get? name = (s.env.get? name).or (EnvStep.firstGained? steps name)

section

variable {ε α β : Type} {l : List EnvStep}

theorem collects_of_env {c : SolverM ε α} (h : ∀ s a u, Ends c s a u → ∀ name,
    u.env.get? name = s.env.get? name) : Collects [] c := by
  intro s a u hend name
  rw [h s a u hend name, EnvStep.firstGained?_nil, Option.or_none]

theorem collects_throw (e : ε) : Collects l (throw e : SolverM ε α) :=
  fun _ _ _ h => (ends_throw h).elim

theorem collects_orThrow (e : Except ε α) : Collects [] (SolverM.orThrow e) := by
  refine collects_of_env fun s a u h name => ?_
  obtain ⟨-, rfl⟩ := ends_solver_orThrow.1 h
  rfl

theorem collects_bind {l' : List EnvStep} {c : SolverM ε α} {f : α → SolverM ε β}
    (hc : Collects l c) (hf : ∀ a, Collects l' (f a)) : Collects (l ++ l') (c >>= f) := by
  intro s b v h name
  obtain ⟨a, u, hu, hv⟩ := ends_bind.1 h
  rw [hf a u b v hv name, hc s a u hu name, EnvStep.firstGained?_append, Option.or_assoc]

theorem collects_forM {f : α → SolverM ε PUnit} {k : α → List EnvStep} {as : List α}
    (hf : ∀ a ∈ as, Collects (k a) (f a)) : Collects (as.flatMap k) (as.forM f) := by
  induction as with
  | nil =>
    refine collects_of_env fun s a u h name => ?_
    obtain ⟨-, rfl⟩ := ends_pure.1 h
    rfl
  | cons a as ih =>
    exact collects_bind (hf a List.mem_cons_self) fun _ =>
      ih fun b hb => hf b (List.mem_cons_of_mem a hb)

/-- Copying a variable declares no global name: it could only come from the recorded declarations,
which do not matter here. -/
theorem collects_copyBinding (source : Context) (guard : DepthGuard) (x : Var) :
    Collects [] (Transplant.copyBinding source guard x) := by
  refine collects_of_env fun s a u h name => ?_
  have hadds : Snapshot.Adds (· = ⟨source, .empty⟩) s.state u.state :=
    addsOnly_copyBinding (S := (· = ⟨source, .empty⟩)) (m := ⟨source, .empty⟩) rfl guard x s a u h
  have hnone : Environment.empty.get? name = none := rfl
  refine Option.ext fun value => ⟨fun hu => ?_, hadds.keeps (.global name value)⟩
  rcases hadds.source (.global name value) hu with hs | ⟨m, rfl, hm⟩
  · exact hs
  · exact nomatch hnone.symm.trans hm

theorem get?_addMissing (decls : List (String × Term)) (s : Solver) (name : String) :
    ((decls.forM fun d => do
      if !(← get).env.contains d.1 then
        addDeclaration d.1 d.2 : StateM Solver Unit).run s).2.env.get? name =
        (s.env.get? name).or
          (decls.findSome? fun d => if name = d.1 then some d.2 else none) := by
  induction decls generalizing s with
  | nil => exact Option.or_none.symm
  | cons d decls ih =>
    have hstep : ((do if !(← get).env.contains d.1 then addDeclaration d.1 d.2 :
        StateM Solver Unit).run s).2.env.get? name =
          (s.env.get? name).or (if name = d.1 then some d.2 else none) := by
      rw [run_addMissing]
      cases hv : s.env.get? d.1 with
      | none =>
        rw [if_neg (by simp [Environment.contains, hv])]
        refine (Environment.get?_add ..).trans ?_
        by_cases hname : name = d.1
        · rw [if_pos hname, if_pos hname, hname, hv, Option.none_or]
        · rw [if_neg hname, if_neg hname, Option.or_none]
      | some v =>
        rw [if_pos (by simp [Environment.contains, hv])]
        by_cases hname : name = d.1
        · rw [hname, hv, Option.some_or]
        · rw [if_neg hname, Option.or_none]
    calc
      _ = (((s.env.get? name).or (if name = d.1 then some d.2 else none)).or
          (decls.findSome? fun d => if name = d.1 then some d.2 else none)) :=
        (ih _).trans (congrArg (Option.or · _) hstep)
      _ = _ := by
        rw [Option.or_assoc, List.findSome?_cons]
        split <;> rfl

/-- The names that an environment has gained have one value each. -/
theorem Environment.findSome?_addedSince (env earlier : Environment) (name : String) :
    ((env.addedSince earlier).findSome? fun d => if name = d.1 then some d.2 else none) =
      EnvStep.gained? ⟨earlier, env⟩ name := by
  have hmem {value : Term} : (name, value) ∈ env.addedSince earlier ↔
      EnvStep.gained? ⟨earlier, env⟩ name = some value := by
    have hget : env.get? name = some value ↔ (name, value) ∈ env.toList :=
      SortedMap.lookup_eq_some_iff env.decls.increasing
    rw [Environment.addedSince, List.mem_filter, ← hget, EnvStep.gained?]
    cases earlier.contains name <;> simp
  cases hgained : EnvStep.gained? ⟨earlier, env⟩ name with
  | none =>
    refine List.findSome?_eq_none_iff.2 fun d hd => if_neg ?_
    rintro rfl
    exact nomatch hgained.symm.trans (hmem.1 hd)
  | some value =>
    have hsome : ((env.addedSince earlier).findSome? fun d =>
        if name = d.1 then some d.2 else none).isSome = true :=
      List.findSome?_isSome_iff.2 ⟨_, hmem.2 hgained, by simp⟩
    obtain ⟨v, hv⟩ := Option.isSome_iff_exists.1 hsome
    obtain ⟨d, hd, hdv⟩ := List.exists_of_findSome?_eq_some hv
    obtain ⟨rfl, hval⟩ := Option.ite_none_right_eq_some.1 hdv
    cases hval
    exact hv.trans ((hmem.1 hd).symm.trans hgained)

theorem collects_mergeEnv (env earlier : Environment) :
    Collects [⟨earlier, env⟩]
      (liftM (Transplant.mergeEnv env earlier) : SolverM SearchError Unit) := by
  intro s a u h name
  rw [ends_lift] at h
  rw [show u = ((Transplant.mergeEnv env earlier).run s).2 by rw [h],
    EnvStep.firstGained?_singleton, ← Environment.findSome?_addedSince]
  exact get?_addMissing (env.addedSince earlier) s name

end

/-! ## Proofs -/

namespace Tree

variable {t : Tree}

theorem collects_copyNormalization (guard : DepthGuard) (g : GoalId) (post : Snapshot) :
    Collects [⟨(t.preState g).env, post.env⟩] (t.copyNormalization guard g post) :=
  collects_bind (collects_copyBinding _ _ _) fun _ => collects_mergeEnv _ _

theorem collects_copyApplication (guard : DepthGuard) (r : ApplicationId) (previous : Snapshot)
    (x : Var) : Collects [⟨previous.env, (t.application r).post.env⟩]
      (t.copyApplication guard r previous x) := by
  have hassigned : Collects ((t.application r).assigned.toList.flatMap fun _ => [])
      ((t.application r).assigned.toList.forM
        (Transplant.copyBinding (t.application r).post.context guard)) :=
    collects_forM fun y _ => collects_copyBinding _ guard y
  rw [List.flatMap_eq_nil_iff.2 fun _ _ => rfl] at hassigned
  exact collects_bind (collects_copyBinding _ _ _) fun _ =>
    collects_bind hassigned fun _ => collects_mergeEnv _ _

theorem collects_extractGoal (fuel : Nat) (guard : DepthGuard) (g : GoalId) :
    Collects (t.stepsFrom fuel g) (t.extractGoal fuel guard g) := by
  induction fuel generalizing guard g with
  | zero => exact collects_throw _
  | succ fuel ih =>
    unfold extractGoal stepsFrom
    cases hn : (t.goal g).norm with
    | notNormal => exact collects_throw _
    | proven post => exact collects_copyNormalization guard g post
    | normal x post =>
      refine collects_bind (l := [_]) (collects_copyNormalization guard g post) fun _ => ?_
      cases hr : (t.goal g).applications.find? fun r => (t.application r).state.isProven with
      | none => exact collects_throw _
      | some r =>
        refine collects_bind (l := [_]) (collects_copyApplication guard r post x) fun _ => ?_
        refine collects_forM fun c _ => ?_
        cases hk : (t.cluster c).goals.find? fun g => (t.goal g).state.isProven with
        | none => exact collects_throw _
        | some k => exact collects_bind (collects_orThrow _) fun inner => ih inner k

theorem ends_of_mem_forM {ε α σ : Type} {f : α → ExceptT ε (StateM σ) PUnit} {as : List α}
    {s u : σ} {a : α} (h : Ends (as.forM f) s () u) (ha : a ∈ as) :
    ∃ s' u', Ends (f a) s' () u' := by
  induction as generalizing s with
  | nil => cases ha
  | cons b as ih =>
    obtain ⟨⟨⟩, v, hb, h⟩ := ends_bind.1 h
    rcases List.mem_cons.1 ha with rfl | ha
    · exact ⟨s, v, hb⟩
    · exact ih h ha

/-- A proof that is put together passes all contributing goals. -/
theorem Contributes.exists_ends {fuel : Nat} {guard : DepthGuard} {s u : Solver}
    (h : Ends (t.extractGoal fuel guard Tree.root) s () u) {g : GoalId} (hg : t.Contributes g) :
    ∃ n guard' s' u', Ends (t.extractGoal n guard' g) s' () u' ∧
      ∀ step ∈ t.stepsFrom n g, step ∈ t.stepsFrom fuel Tree.root := by
  induction hg with
  | root => exact ⟨fuel, guard, s, u, h, fun _ => id⟩
  | @member g k x post r c _ hn hr hc hk ih =>
    obtain ⟨n, guard', s', u', hend, hsub⟩ := ih
    cases n with
    | zero => exact (ends_throw hend).elim
    | succ n =>
      simp only [extractGoal, hn, hr, ends_bind] at hend
      obtain ⟨_, _, -, _, _, -, hend⟩ := hend
      obtain ⟨v, w, hend⟩ := ends_of_mem_forM hend hc
      simp only [hk, ends_bind] at hend
      obtain ⟨inner, v', -, hend⟩ := hend
      refine ⟨n, inner, v', w, hend, fun step hstep => hsub step ?_⟩
      simp only [stepsFrom, hn, hr]
      refine List.mem_cons_of_mem _ (List.mem_cons_of_mem _ (List.mem_flatMap.2 ⟨c, hc, ?_⟩))
      rwa [hk]

/-- The list of the steps of a proof is complete. -/
theorem ProofStep.mem {fuel : Nat} {guard : DepthGuard} {s u : Solver}
    (h : Ends (t.extractGoal fuel guard root) s () u) {step : EnvStep} (hstep : t.ProofStep step) :
    step ∈ t.stepsFrom fuel root := by
  cases hstep with
  | @norm g post hg hpost =>
    obtain ⟨n, guard', s', u', hend, hsub⟩ := hg.exists_ends h
    refine hsub _ ?_
    cases n with
    | zero => exact (ends_throw hend).elim
    | succ n =>
      unfold Goal.normPost? at hpost
      unfold stepsFrom
      split at hpost <;> cases hpost <;> simp [*]
  | @applied g x post r hg hn hr =>
    obtain ⟨n, guard', s', u', hend, hsub⟩ := hg.exists_ends h
    refine hsub _ ?_
    cases n with
    | zero => exact (ends_throw hend).elim
    | succ n => simp [stepsFrom, hn, hr]

theorem extractProof_ends {limit : Nat} {s s' : Solver} {proof : Proof}
    (h : Ends (t.extractProof limit) s proof s') : proof.state = s'.state ∧
      Ends (t.extractGoal (t.goals.size + 1) (.ofLimit limit) root)
        { s with state := t.rootState } () s' := by
  simp only [extractProof_eq, ends_bind, ends_restore, ends_get] at h
  obtain ⟨_, _, rfl, _, v, hv, _, _, ⟨rfl, rfl⟩, hend⟩ := h
  split at hend
  · obtain ⟨rfl, rfl⟩ := ends_pure.1 hend
    exact ⟨rfl, hv⟩
  · exact (ends_throw hend).elim

/-- A proof declares a name as the state in which the search began, or else as the first of the
steps that it is copied from that gained the name.  So it has the value that a step has given to the
name, unless the first state or an earlier step gives it another one. -/
theorem gained_declared (t : Tree) (limit : Nat) (s s' : Solver) (proof : Proof)
    (h : Ends (t.extractProof limit) s proof s') :
    (∀ step, step ∈ t.proofSteps ↔ t.ProofStep step) ∧
    (∀ name, proof.state.env.get? name =
      (t.rootState.env.get? name).or (EnvStep.firstGained? t.proofSteps name)) ∧
    ∀ earlier step later name value, t.proofSteps = earlier ++ step :: later →
      step.gained? name = some value →
      (∀ v, t.rootState.env.get? name = some v → v = value) →
      (∀ e ∈ earlier, ∀ v, e.gained? name = some v → v = value) →
      proof.state.env.get? name = some value := by
  obtain ⟨hstate, hend⟩ := extractProof_ends h
  have hget (name : String) : proof.state.env.get? name =
      (t.rootState.env.get? name).or (EnvStep.firstGained? t.proofSteps name) := by
    rw [hstate]
    exact collects_extractGoal _ _ _ _ _ _ hend name
  refine ⟨fun step => ⟨proofStep_of_mem .root, ProofStep.mem hend⟩, hget, ?_⟩
  intro earlier step later name value hsteps hgained hroot hearlier
  rw [hget, hsteps, EnvStep.firstGained?_eq_some hgained hearlier]
  cases hv : t.rootState.env.get? name with
  | none => rfl
  | some v => rw [hroot v hv]; rfl

/-- Proves any goal by a lemma `aux` and declares the lemmas. -/
def declaring (lemmas : List (String × Term)) : Procedure := fun input => do
  let pre := (← get).state
  lemmas.forM fun d => addDeclaration d.1 d.2
  (Solver.assign input.goal (.const "aux")).adapt .metavar
  return ⟨[.capture pre (← get) []], none⟩

/-- A search that splits the root into two goals.  Each is proven by a lemma `aux` of its own. -/
def twoLemmas : Search where
  rules := (RuleSet.ofList [
    ⟨"c", .tentative .hundred, [.target "Root"],
      Clause.procedure ⟨"c", [], [.const "A", .const "B"], .const "Root"⟩⟩,
    ⟨"a", .tentative .hundred, [.target "A"], declaring [("aux", .const "la")]⟩,
    ⟨"b", .tentative .hundred, [.target "B"],
      declaring [("aux", .const "lb"), ("own", .const "lc")]⟩]).query
  simplifier := .none
  options := {}
  fuel := 100

/-- The tree in which the root is proven. -/
def twoLemmasTree : Tree := (twoLemmas.finalRun Search.rootSolver ⟨1⟩).tree

theorem ends_extractProof_twoLemmas : ∃ proof s',
    Ends (twoLemmasTree.extractProof 0) .empty proof s' ∧
      proof.state.env.get? "aux" = some (.const "la") := by
  obtain ⟨proof, s', h, haux⟩ := exists_ends (x := twoLemmasTree.extractProof 0) (s := .empty)
    (fun proof _ => decide (proof.state.env.get? "aux" = some (.const "la"))) (by decide +kernel)
  exact ⟨proof, s', h, of_decide_eq_true haux⟩

/-- The application of the second rule. -/
theorem exists_step_twoLemmas : ∃ step ∈ twoLemmasTree.proofSteps,
    step.gained? "aux" = some (.const "lb") ∧ step.gained? "own" = some (.const "lc") := by
  have hany : twoLemmasTree.proofSteps.any (fun step =>
      decide (step.gained? "aux" = some (.const "lb") ∧
        step.gained? "own" = some (.const "lc"))) = true := by decide +kernel
  obtain ⟨step, hstep, h⟩ := List.any_eq_true.1 hany
  exact ⟨step, hstep, of_decide_eq_true h⟩

theorem gained_declared_twoLemmas : ∃ proof s' step,
    Ends (twoLemmasTree.extractProof 0) .empty proof s' ∧ twoLemmasTree.ProofStep step ∧
    step.gained? "own" = some (.const "lc") ∧ proof.state.env.get? "own" = some (.const "lc") := by
  obtain ⟨proof, s', h, -⟩ := ends_extractProof_twoLemmas
  obtain ⟨step, hstep, -, hown⟩ := exists_step_twoLemmas
  obtain ⟨hsteps, -, hkept⟩ := gained_declared twoLemmasTree 0 .empty s' proof h
  obtain ⟨earlier, later, hsplit⟩ := List.append_of_mem hstep
  have hone : twoLemmasTree.proofSteps.all (fun e =>
      (e.gained? "own").all fun v => decide (v = .const "lc")) = true := by decide +kernel
  have hroot : twoLemmasTree.rootState.env.get? "own" = none := by decide +kernel
  refine ⟨proof, s', step, h, (hsteps step).1 hstep, hown,
    hkept earlier step later "own" _ hsplit hown (fun v hv => nomatch hroot.symm.trans hv) ?_⟩
  intro e he v hv
  have hall := List.all_eq_true.1 hone e (hsplit ▸ List.mem_append_left _ he)
  rw [hv] at hall
  exact of_decide_eq_true hall

/-- The proof keeps the lemma `aux` of the first goal, and the one of the second goal is lost. -/
theorem gained_lost : ∃ proof s' step, twoLemmasTree.rootIsProven = true ∧
    Ends (twoLemmasTree.extractProof 0) .empty proof s' ∧ twoLemmasTree.ProofStep step ∧
    step.gained? "aux" = some (.const "lb") ∧ proof.state.env.get? "aux" = some (.const "la") := by
  obtain ⟨proof, s', h, haux⟩ := ends_extractProof_twoLemmas
  obtain ⟨step, hstep, hgained, -⟩ := exists_step_twoLemmas
  exact ⟨proof, s', step, by decide +kernel, h, proofStep_of_mem .root hstep, hgained, haux⟩

end Tree

end ProofSearch
