import ProofSearch.Proofs.Answer.Nesting
import ProofSearch.Proofs.Search.Stepwise

/-!
# Errors of a search

The report of a failed search is made at one place only, after the loop has ended.

1. `failsIn_loop`: the loop fails with proper errors, the error of its own budget or that of a
   normalization.
2. `inner_loop`: the loop makes no report.
3. `inner_expandPrefix`: expanding the safe prefix makes no report either.
4. `finish_failsIn`: a report carries the reason with which the loop ended.
-/

namespace ProofSearch

namespace SearchError

/-- The error does not report a failed search. -/
def IsInner : SearchError → Prop
  | .nonTerminal .. => False
  | _ => True

/-- The error neither reports a failed search nor that a loop was cut off. -/
def IsProper : SearchError → Prop
  | .nonTerminal .. | .outOfFuel => False
  | _ => True

theorem IsProper.isInner {e : SearchError} (h : e.IsProper) : e.IsInner := by
  cases e <;> first | exact h | trivial

theorem IsProper.ne_outOfFuel {e : SearchError} (h : e.IsProper) : e ≠ .outOfFuel := by
  rintro rfl
  exact h

end SearchError

/-! ## Extracting answers -/

namespace Transplant

theorem inner_enter (guard : DepthGuard) :
    FailsIn SearchError.IsInner (SolverM.orThrow guard.enter) := by
  refine failsIn_solver_orThrow fun err he => ?_
  unfold DepthGuard.enter at he
  split at he
  · cases he
    trivial
  · cases he

theorem inner_copyVarsWith {copy : Var → SolverM SearchError Unit}
    (hc : ∀ x, FailsIn SearchError.IsInner (copy x)) (t : Term) :
    FailsIn SearchError.IsInner (copyVarsWith copy t) := failsIn_forM hc _

theorem inner_copyDeclWith {copy : DepthGuard → Var → SolverM SearchError Unit}
    (hc : ∀ guard x, FailsIn SearchError.IsInner (copy guard x)) (source : Context)
    (guard : DepthGuard) (x : Var) :
    FailsIn SearchError.IsInner (copyDeclWith source copy guard x) := by
  unfold copyDeclWith
  refine failsIn_bind failsIn_get fun _ => ?_
  split
  · exact failsIn_pure
  · split
    · exact failsIn_throw trivial
    · exact failsIn_bind (failsIn_adapt (fun _ => trivial) _) fun _ =>
        failsIn_bind (inner_enter guard) fun inner =>
          failsIn_bind (inner_copyVarsWith (hc inner) _) fun _ =>
            failsIn_forM (fun _ => inner_copyVarsWith (hc inner) _) _

theorem inner_copyNested (source : Context) (fuel : Nat) (guard : DepthGuard) (x : Var) :
    FailsIn SearchError.IsInner (copyNested source fuel guard x) := by
  induction fuel generalizing guard x with
  | zero => exact failsIn_throw trivial
  | succ fuel ih =>
    unfold copyNested
    refine failsIn_bind (inner_copyDeclWith ih source guard x) fun _ =>
      failsIn_bind failsIn_get fun _ => ?_
    split
    · exact failsIn_pure
    · split
      · exact failsIn_pure
      · exact failsIn_bind (inner_enter guard) fun inner =>
          failsIn_bind (inner_copyVarsWith (ih inner) _) fun _ =>
            failsIn_adapt (fun _ => trivial) _
      · exact failsIn_bind (inner_enter guard) fun inner =>
          failsIn_bind (ih inner _) fun _ => failsIn_adapt (fun _ => trivial) _

theorem inner_copyBinding (source : Context) (guard : DepthGuard) (x : Var) :
    FailsIn SearchError.IsInner (copyBinding source guard x) := by
  rw [copyBinding_eq]
  exact inner_copyNested source _ guard x

end Transplant

namespace Tree

theorem inner_copyNormalization (t : Tree) (guard : DepthGuard) (g : GoalId) (post : Snapshot) :
    FailsIn SearchError.IsInner (t.copyNormalization guard g post) :=
  failsIn_bind (Transplant.inner_copyBinding _ _ _) fun _ => failsIn_lift _

theorem inner_copyApplication (t : Tree) (guard : DepthGuard) (r : ApplicationId)
    (previous : Snapshot) (x : Var) :
    FailsIn SearchError.IsInner (t.copyApplication guard r previous x) :=
  failsIn_bind (Transplant.inner_copyBinding _ _ _) fun _ =>
    failsIn_bind (failsIn_forM (fun _ => Transplant.inner_copyBinding _ _ _) _) fun _ =>
      failsIn_lift _

theorem inner_extractGoal (t : Tree) (fuel : Nat) (guard : DepthGuard) (g : GoalId) :
    FailsIn SearchError.IsInner (t.extractGoal fuel guard g) := by
  induction fuel generalizing guard g with
  | zero => exact failsIn_throw trivial
  | succ fuel ih =>
    unfold extractGoal
    split
    · exact failsIn_throw trivial
    · exact t.inner_copyNormalization guard g _
    · refine failsIn_bind (t.inner_copyNormalization guard g _) fun _ => ?_
      split
      · exact failsIn_throw trivial
      · refine failsIn_bind (t.inner_copyApplication guard _ _ _) fun _ =>
          failsIn_forM (fun c => ?_) _
        split
        · exact failsIn_throw trivial
        · exact failsIn_bind (Transplant.inner_enter guard) fun inner => ih inner _

theorem inner_extractProof (t : Tree) (limit : Nat) :
    FailsIn SearchError.IsInner (t.extractProof limit) := by
  rw [extractProof_eq]
  refine failsIn_bind (failsIn_lift _) fun _ => failsIn_bind (t.inner_extractGoal _ _ _) fun _ =>
    failsIn_bind failsIn_get fun _ => ?_
  dsimp only
  split
  · exact failsIn_pure
  · exact failsIn_throw trivial

theorem inner_leaveOpen (source : Snapshot) (guard : DepthGuard) (x : Var) (found : List Var) :
    FailsIn SearchError.IsInner (leaveOpen source guard x found) := by
  unfold leaveOpen
  refine failsIn_bind (Transplant.inner_copyDeclWith (Transplant.inner_copyBinding _) _ _ _)
    fun _ => failsIn_bind failsIn_get fun _ => ?_
  split <;> exact failsIn_pure

theorem inner_prefixGoal (t : Tree) (fuel : Nat) (guard : DepthGuard) (g : GoalId)
    (found : List Var) : FailsIn SearchError.IsInner (t.prefixGoal fuel guard g found) := by
  induction fuel generalizing guard g found with
  | zero => exact failsIn_throw trivial
  | succ fuel ih =>
    unfold prefixGoal
    split
    · exact inner_leaveOpen _ _ _ _
    · exact failsIn_bind (t.inner_copyNormalization guard g _) fun _ => failsIn_pure
    · refine failsIn_bind (t.inner_copyNormalization guard g _) fun _ => ?_
      split
      · exact inner_leaveOpen _ _ _ _
      · exact failsIn_bind (t.inner_copyApplication guard _ _ _) fun _ =>
          failsIn_foldlM
            (fun _ _ => failsIn_bind (Transplant.inner_enter guard) fun _ => ih _ _ _) _ _

theorem inner_extractSafePrefix (t : Tree) (limit : Nat) :
    FailsIn SearchError.IsInner (t.extractSafePrefix limit) := by
  rw [extractSafePrefix_eq]
  exact failsIn_bind (failsIn_lift _) fun _ => failsIn_bind (t.inner_prefixGoal _ _ _ _) fun _ =>
    failsIn_bind failsIn_get fun _ => failsIn_pure

end Tree

/-! ## Expanding goals

What is said of the errors of one step holds of every set of errors that has all proper ones. -/

namespace Search

open SearchM

theorem isProper_of_examine (r : Rule) (pre : Snapshot) (b : Bool)
    (result : Except RuleError RuleOutput) {err : SearchError}
    (h : r.examine pre b result = .error err) : err.IsProper := by
  have hcheck (p : Proposal) {err : SearchError} (h : p.check r.name pre b = .error err) :
      err.IsProper := by
    simp only [Proposal.check, checkEffect, bind, Except.bind, pure, Except.pure] at h
    grind [SearchError.IsProper]
  have hmap (ps : List Proposal) {err : SearchError}
      (h : ps.mapM (·.check r.name pre b) = .error err) : err.IsProper := by
    induction ps with
    | nil => cases h
    | cons p ps ih =>
      rw [List.mapM_cons] at h
      cases hp : p.check r.name pre b with
      | error e =>
        rw [hp] at h
        cases h
        exact hcheck p hp
      | ok c =>
        rw [hp] at h
        cases hps : ps.mapM (·.check r.name pre b) with
        | error e =>
          rw [hps] at h
          cases h
          exact ih hps
        | ok cs =>
          rw [hps] at h
          cases h
  unfold Rule.examine at h
  split at h
  · cases h
  · cases h
  · next proposals branch _ =>
    cases hps : proposals.mapM (·.check r.name pre b) with
    | error e =>
      rw [hps] at h
      cases h
      exact hmap proposals hps
    | ok cs =>
      rw [hps] at h
      cases h

theorem isProper_of_checkNorm (r : Rule) (vars : VarSet) (candidates : List Candidate)
    {err : SearchError} (h : r.checkNorm vars candidates = .error err) : err.IsProper := by
  unfold Rule.checkNorm at h
  split at h
  · split at h
    · cases h
      trivial
    · split at h
      · cases h
        trivial
      · cases h
  · cases h
    trivial

theorem isProper_of_addApplication {t : Tree} {new : NewApplication} {s s' : Solver}
    {e : SearchError} (h : (t.addApplication new).run.run s = (.error e, s')) : e.IsProper := by
  refine (?_ : FailsIn SearchError.IsProper (t.addApplication new)) s e s' h
  unfold Tree.addApplication Tree.carrySiblings
  refine failsIn_bind ?_ fun _ => failsIn_bind (failsIn_adapt (fun _ => trivial) _) fun _ =>
    failsIn_pure
  dsimp only
  split
  · exact failsIn_pure
  · exact failsIn_bind (failsIn_lift _) fun _ =>
      failsIn_bind (failsIn_adapt (fun _ => trivial) _) fun _ =>
        failsIn_bind failsIn_get fun _ => failsIn_pure

theorem isProper_of_describeGoal {x : Var} {run run' : Run} {e : SearchError}
    (h : (describeGoal x).run.run run = (.error e, run')) : e.IsProper :=
  (failsIn_bind (failsIn_onSolverM (failsIn_adapt (fun _ => trivial) _)) fun _ =>
    failsIn_bind (failsIn_onSolverM (failsIn_adapt (fun _ => trivial) _)) fun _ => failsIn_pure :
    FailsIn SearchError.IsProper (describeGoal x)) run e run' h

/-- An expansion fails with proper errors, or because normalization has used up its rounds. -/
theorem ExpansionFault.isProper_or {search : Search} {g : GoalId} {s : Expansion} {e : SearchError}
    {run : Run} (h : ExpansionFault search g s e run) :
    e.IsProper ∨ ∃ x, e = search.normBudget.2 x := by
  cases h with
  | normRule _ _ _ error | safeRule _ error | queuedRule _ error =>
    exact .inl (isProper_of_examine _ _ _ _ error)
  | normCheck _ _ _ _ error => exact .inl (isProper_of_checkNorm _ _ _ error)
  | simplifier => exact .inl trivial
  | noRounds | spent => exact .inr ⟨_, rfl⟩
  | firstGoal _ _ error | normGoal _ error | goal _ _ error =>
    exact .inl (isProper_of_describeGoal error)
  | commit error | attach _ error => exact .inl (isProper_of_addApplication error)

theorem failsIn_getTree {p : SearchError → Prop} : FailsIn p getTree :=
  failsIn_bind failsIn_get fun _ => failsIn_pure

theorem ExpansionFault.satisfies {search : Search} {g : GoalId} {s : Expansion} {e : SearchError}
    {run : Run} {p : SearchError → Prop} (h : ExpansionFault search g s e run)
    (hp : ∀ e : SearchError, e.IsProper → p e) (hs : ∀ x, p (search.normBudget.2 x)) : p e := by
  rcases h.isProper_or with hproper | ⟨x, rfl⟩
  · exact hp e hproper
  · exact hs x

theorem failsIn_expandGoal {p : SearchError → Prop} (hp : ∀ e : SearchError, e.IsProper → p e)
    (search : Search) (hs : ∀ x, p (search.normBudget.2 x)) (g : GoalId) :
    FailsIn p (search.expandGoal g) := by
  intro run e run' he
  obtain ⟨s, -, hfault⟩ := stepwise_expandGoal.of_error he
  exact hfault.satisfies hp hs

/-! ## Whole searches -/

/-- The loop fails with the errors of its steps, or because it is cut off. -/
theorem failsIn_loop {p : SearchError → Prop} (hp : ∀ e : SearchError, e.IsProper → p e)
    (search : Search) (hs : ∀ x, p (search.normBudget.2 x)) {spent : SearchError} (hspent : p spent)
    (n : Nat) : FailsIn p (search.loop spent n) := by
  induction n with
  | zero => exact failsIn_throw hspent
  | succ n ih =>
    unfold loop
    refine failsIn_bind failsIn_getTree fun _ => ?_
    split
    · exact failsIn_pure
    · refine failsIn_bind (failsIn_bind failsIn_get fun _ => failsIn_bind (failsIn_set _) fun _ =>
        failsIn_pure) fun _ => ?_
      split
      · exact failsIn_pure
      · exact failsIn_bind (failsIn_modify _) fun _ =>
          failsIn_bind (search.failsIn_expandGoal hp hs _) fun _ => ih

variable (search : Search)

theorem inner_normBudget (x : Var) : (search.normBudget.2 x).IsInner := by
  unfold normBudget
  split <;> trivial

/-- The loop makes no report. -/
theorem inner_loop (n : Nat) : FailsIn SearchError.IsInner (search.loop search.loopBudget.2 n) := by
  refine failsIn_loop (fun _ => SearchError.IsProper.isInner) search search.inner_normBudget ?_ n
  unfold loopBudget
  split <;> trivial

theorem failsIn_prefixStep {p : SearchError → Prop} (hp : ∀ e : SearchError, e.IsProper → p e)
    (hs : ∀ x, p (search.normBudget.2 x)) (limit applied : Nat) (g : GoalId)
    (rest : List GoalId) : FailsIn p (search.prefixStep limit applied g rest) := by
  intro run e run' he
  cases prefixStep_outcome he with
  | fail _ _ fault => exact fault.satisfies hp hs

theorem inner_expandPrefix (limit fuel applied : Nat) (gs : List GoalId) :
    FailsIn SearchError.IsInner (search.expandPrefix limit fuel applied gs) := by
  induction fuel generalizing applied gs with
  | zero =>
    cases gs with
    | nil => exact failsIn_pure
    | cons g rest => exact failsIn_throw trivial
  | succ fuel ih =>
    cases gs with
    | nil => exact failsIn_pure
    | cons g rest =>
      rw [expandPrefix_cons]
      refine failsIn_bind (search.failsIn_prefixStep (fun _ => SearchError.IsProper.isInner)
        search.inner_normBudget _ _ _ _) fun next => ?_
      split
      · exact failsIn_pure
      · exact ih _ _

/-- A report that is made after the loop carries the reason with which the loop ended. -/
theorem finish_failsIn (verdict : Option FailureReason) :
    FailsIn (fun e => e.IsInner ∨ ∃ reason message, verdict = some reason ∧
      e = .nonTerminal reason message) (search.finish verdict) := by
  have hmono {α : Type} {x : SearchM α} (h : FailsIn SearchError.IsInner x) :
      FailsIn (fun e => e.IsInner ∨ ∃ reason message, verdict = some reason ∧
        e = .nonTerminal reason message) x := fun s e s' he => .inl (h s e s' he)
  cases verdict with
  | none =>
    exact hmono (failsIn_bind failsIn_getTree fun _ =>
      failsIn_bind (failsIn_onSolverM (Tree.inner_extractProof _ _)) fun _ =>
        failsIn_bind failsIn_get fun _ => failsIn_pure)
  | some reason =>
    unfold finish
    refine failsIn_bind failsIn_get fun run => ?_
    dsimp only
    split
    · exact failsIn_throw (.inr ⟨reason, _, rfl, rfl⟩)
    · refine hmono (failsIn_bind ?_ fun _ => failsIn_bind failsIn_getTree fun _ =>
        failsIn_bind (failsIn_onSolverM (Tree.inner_extractSafePrefix _ _)) fun _ =>
          failsIn_bind failsIn_get fun _ => failsIn_pure)
      unfold expandSafePrefix
      split
      · exact failsIn_pure
      · exact search.inner_expandPrefix _ _ _ _

end Search

end ProofSearch
