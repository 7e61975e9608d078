import ProofSearch.Proofs.Ends
import ProofSearch.Answer.SafePrefix

/-!
# Nesting

A transplant counts the levels at which its steps are nested, and the steps share the count.  Every
level that is entered is left again, whether the steps on it succeed or fail, so the depth at which
a step runs is known when it begins.  A transplant is then a solver computation that has its depth
as a parameter.

1. `TransplantM.Balanced`: a transplant ends at the depth where it begins, and what it does there.
   `TransplantM.balanced_deeper`: one level deeper and back.
2. `Transplant.copyBinding_eq`: copying a variable, with the depth as a parameter.
3. `Tree.extractProof_eq`, `Tree.extractSafePrefix_eq`: the walks through a tree, with the depth as
   a parameter.
-/

namespace ProofSearch

/-- Leaving a level leads back to where it was entered. -/
theorem DepthGuard.leave_of_enter {guard inner : DepthGuard} (h : guard.enter = .ok inner) :
    inner.leave = guard := by
  unfold enter at h
  split at h
  · cases h
  · cases h
    rfl

/-! ## Balanced transplants -/

namespace TransplantM

variable {α β : Type}

/-- At every depth `x` does to the solver what `f` does at this depth, and ends at it. -/
def Balanced (x : TransplantM α) (f : DepthGuard → SolverM SearchError α) : Prop :=
  ∀ guard s, x.run.run ⟨s, guard⟩ =
    (((f guard).run.run s).1, ⟨((f guard).run.run s).2, guard⟩)

theorem Balanced.runAt_eq {x : TransplantM α} {f : DepthGuard → SolverM SearchError α}
    (h : Balanced x f) (guard : DepthGuard) : x.runAt guard = f guard := by
  funext s
  show ((x.run.run ⟨s, guard⟩).1, (x.run.run ⟨s, guard⟩).2.solver) = _
  rw [h guard s]
  rfl

theorem balanced_pure (a : α) : Balanced (pure a) fun _ => pure a := fun _ _ => rfl

theorem balanced_throw (e : SearchError) : Balanced (throw e : TransplantM α) fun _ => throw e :=
  fun _ _ => rfl

theorem balanced_getSolver : Balanced getSolver fun _ => get := fun _ _ => rfl

theorem balanced_onSolverM (x : SolverM SearchError α) : Balanced (onSolverM x) fun _ => x :=
  fun _ _ => rfl

theorem balanced_bind {x : TransplantM α} {f : DepthGuard → SolverM SearchError α}
    {y : α → TransplantM β} {g : α → DepthGuard → SolverM SearchError β} (hx : Balanced x f)
    (hy : ∀ a, Balanced (y a) (g a)) : Balanced (x >>= y) fun guard => f guard >>= (g · guard) := by
  intro guard s
  rw [run_bind, run_bind, hx guard s]
  cases (f guard).run.run s with
  | mk r u =>
    cases r with
    | ok a => exact hy a guard u
    | error e => rfl

/-- A level that was entered is left also if the steps on it fail. -/
theorem balanced_deeper {x : TransplantM α} {f : DepthGuard → SolverM SearchError α}
    (hx : Balanced x f) :
    Balanced (deeper x) fun guard => SolverM.orThrow guard.enter >>= f := by
  intro guard s
  rw [run_bind]
  show deeper x ⟨s, guard⟩ = _
  unfold deeper
  cases henter : guard.enter with
  | error e => rfl
  | ok inner =>
    simp only [hx inner s, DepthGuard.leave_of_enter henter]
    rfl

theorem balanced_forM {x : α → TransplantM Unit} {f : DepthGuard → α → SolverM SearchError Unit}
    (h : ∀ a, Balanced (x a) fun guard => f guard a) (as : List α) :
    Balanced (as.forM x) fun guard => as.forM (f guard) := by
  induction as with
  | nil => exact balanced_pure ()
  | cons a as ih => exact balanced_bind (h a) fun _ => ih

theorem balanced_foldlM {x : β → α → TransplantM β}
    {f : DepthGuard → β → α → SolverM SearchError β}
    (h : ∀ b a, Balanced (x b a) fun guard => f guard b a) (as : List α) (b : β) :
    Balanced (as.foldlM x b) fun guard => as.foldlM (f guard) b := by
  induction as generalizing b with
  | nil => exact balanced_pure b
  | cons a as ih =>
    simp only [List.foldlM_cons]
    exact balanced_bind (h b a) ih

end TransplantM

/-! ## Copying variables -/

namespace Transplant

/-- Copies, by the given way of copying one variable, all variables of a term. -/
def copyVarsWith (copy : Var → SolverM SearchError Unit) (t : Term) : SolverM SearchError Unit :=
  t.vars.toList.forM copy

/-- Declares `x` as recorded in `source` and copies, one level deeper, the variables that its type
and hypotheses mention. -/
def copyDeclWith (source : Context) (copy : DepthGuard → Var → SolverM SearchError Unit)
    (guard : DepthGuard) (x : Var) : SolverM SearchError Unit := do
  if (← get).context.isDeclared x then
    return
  else
    match source.decl? x with
    | none => throw (.extraction (.undeclared x))
    | some decl =>
      (Solver.declare x decl).adapt .metavar
      let inner ← SolverM.orThrow guard.enter
      copyVarsWith (copy inner) decl.type
      decl.hyps.forM fun h => copyVarsWith (copy inner) h.type

/-- Copies the declaration and the binding of `x`, nested at most `fuel` times. -/
def copyNested (source : Context) : Nat → DepthGuard → Var → SolverM SearchError Unit
  | 0, _, _ => throw .outOfFuel
  | fuel + 1, guard, x => do
    copyDeclWith source (copyNested source fuel) guard x
    if (← get).isAssigned x then
      return
    else
      match source.binding? x with
      | none => return
      | some (.value t) =>
        let inner ← SolverM.orThrow guard.enter
        copyVarsWith (copyNested source fuel inner) t
        (Solver.assign x t).adapt .metavar
      | some (.delayed p) =>
        let inner ← SolverM.orThrow guard.enter
        copyNested source fuel inner p
        (Solver.assignDelayed x p).adapt .metavar

/-- Copies the declaration of a variable with all that it mentions. -/
def copyDecl (source : Context) (guard : DepthGuard) (x : Var) : SolverM SearchError Unit :=
  copyDeclWith source (copyBinding source) guard x

end Transplant

namespace TransplantM

theorem balanced_copyDeclWith {copy : Var → TransplantM Unit}
    {f : DepthGuard → Var → SolverM SearchError Unit}
    (h : ∀ x, Balanced (copy x) fun guard => f guard x) (source : Context) (x : Var) :
    Balanced (copyDeclWith source copy x) fun guard =>
      Transplant.copyDeclWith source f guard x := by
  refine balanced_bind balanced_getSolver fun s => ?_
  split
  · exact balanced_pure ()
  · cases source.decl? x with
    | none => exact balanced_throw _
    | some decl =>
      refine balanced_bind (balanced_onSolverM _) fun _ => balanced_deeper ?_
      exact balanced_bind (balanced_forM h _) fun _ => balanced_forM (fun _ => balanced_forM h _) _

theorem balanced_copyNested (source : Context) (fuel : Nat) (x : Var) :
    Balanced (copyNested source fuel x) fun guard =>
      Transplant.copyNested source fuel guard x := by
  induction fuel generalizing x with
  | zero => exact balanced_throw _
  | succ fuel ih =>
    refine balanced_bind (balanced_copyDeclWith ih source x) fun _ =>
      balanced_bind balanced_getSolver fun s => ?_
    split
    · exact balanced_pure ()
    · cases source.binding? x with
      | none => exact balanced_pure ()
      | some b =>
        cases b with
        | value t =>
          exact balanced_deeper (balanced_bind (balanced_forM ih _) fun _ => balanced_onSolverM _)
        | delayed p =>
          exact balanced_deeper (balanced_bind (ih p) fun _ => balanced_onSolverM _)

end TransplantM

/-- Copying a variable is copying nested at most as often as its source allows. -/
theorem Transplant.copyBinding_eq (source : Context) (guard : DepthGuard) (x : Var) :
    copyBinding source guard x = copyNested source (nestingBound source) guard x :=
  (TransplantM.balanced_copyNested source _ x).runAt_eq guard

namespace TransplantM

theorem balanced_copyBinding (source : Context) (x : Var) :
    Balanced (copyBinding source x) fun guard => Transplant.copyBinding source guard x := by
  simp only [Transplant.copyBinding_eq]
  exact balanced_copyNested source _ x

theorem balanced_copyDecl (source : Context) (x : Var) :
    Balanced (copyDecl source x) fun guard => Transplant.copyDecl source guard x :=
  balanced_copyDeclWith (balanced_copyBinding source) source x

end TransplantM

/-! ## Walking through a tree -/

namespace Tree

/-- Copies what an application contributed to the proof of the goal `x` since `previous`. -/
def copyApplication (t : Tree) (guard : DepthGuard) (r : ApplicationId) (previous : Snapshot)
    (x : Var) : SolverM SearchError Unit := do
  let node := t.application r
  Transplant.copyBinding node.post.context guard x
  node.assigned.toList.forM (Transplant.copyBinding node.post.context guard)
  Transplant.mergeEnv node.post.env previous.env

/-- Copies what normalization contributed to the proof of a goal. -/
def copyNormalization (t : Tree) (guard : DepthGuard) (g : GoalId) (post : Snapshot) :
    SolverM SearchError Unit := do
  Transplant.copyBinding post.context guard (t.goal g).var
  Transplant.mergeEnv post.env (t.preState g).env

/-- Copies the proof of a goal, nested at most `fuel` times. -/
def extractGoal (t : Tree) : Nat → DepthGuard → GoalId → SolverM SearchError Unit
  | 0, _, _ => throw .outOfFuel
  | fuel + 1, guard, g =>
    match (t.goal g).norm with
    | .notNormal => throw (.extraction (.neverNormalized g))
    | .proven post => t.copyNormalization guard g post
    | .normal x post => do
      t.copyNormalization guard g post
      match (t.goal g).applications.find? fun r => (t.application r).state.isProven with
      | none => throw (.extraction (.noProvenApplication g))
      | some r =>
        t.copyApplication guard r post x
        (t.application r).clusters.forM fun c =>
          match (t.cluster c).goals.find? fun g => (t.goal g).state.isProven with
          | none => throw (.extraction (.unprovenCluster r c))
          | some g => do
            let inner ← SolverM.orThrow guard.enter
            t.extractGoal fuel inner g

/-- Declares a goal that stays open, and lists it unless it is assigned or listed already. -/
def leaveOpen (source : Snapshot) (guard : DepthGuard) (x : Var) (found : List Var) :
    SolverM SearchError (List Var) := do
  Transplant.copyDecl source.context guard x
  if (← get).isAssigned x || x ∈ found then return found else return found ++ [x]

/-- Copies the safe prefix below a goal, nested at most `fuel` times, and lists the goals left open
behind those already found. -/
def prefixGoal (t : Tree) : Nat → DepthGuard → GoalId → List Var →
    SolverM SearchError (List Var)
  | 0, _, _, _ => throw .outOfFuel
  | fuel + 1, guard, g, found =>
    match (t.goal g).norm with
    | .notNormal => leaveOpen (t.preState g) guard (t.goal g).var found
    | .proven post => do
      t.copyNormalization guard g post
      return found
    | .normal x post => do
      t.copyNormalization guard g post
      match t.safeApplication? g with
      | none => leaveOpen post guard x found
      | some r =>
        t.copyApplication guard r post x
        (t.subgoalIds r).foldlM (fun found g => do
          let inner ← SolverM.orThrow guard.enter
          t.prefixGoal fuel inner g found) found

end Tree

namespace TransplantM

theorem balanced_copyApplication (t : Tree) (r : ApplicationId) (previous : Snapshot) (x : Var) :
    Balanced (copyApplication t r previous x) fun guard =>
      t.copyApplication guard r previous x :=
  balanced_bind (balanced_copyBinding _ x) fun _ =>
    balanced_bind (balanced_forM (balanced_copyBinding _) _) fun _ => balanced_onSolverM _

theorem balanced_copyNormalization (t : Tree) (g : GoalId) (post : Snapshot) :
    Balanced (copyNormalization t g post) fun guard => t.copyNormalization guard g post :=
  balanced_bind (balanced_copyBinding _ _) fun _ => balanced_onSolverM _

theorem balanced_extractGoal (t : Tree) (fuel : Nat) (g : GoalId) :
    Balanced (extractGoal t fuel g) fun guard => t.extractGoal fuel guard g := by
  induction fuel generalizing g with
  | zero => exact balanced_throw _
  | succ fuel ih =>
    unfold extractGoal Tree.extractGoal
    cases (t.goal g).norm with
    | notNormal => exact balanced_throw _
    | proven post => exact balanced_copyNormalization t g post
    | normal x post =>
      refine balanced_bind (balanced_copyNormalization t g post) fun _ => ?_
      cases (t.goal g).applications.find? fun r => (t.application r).state.isProven with
      | none => exact balanced_throw _
      | some r =>
        refine balanced_bind (balanced_copyApplication t r post x) fun _ =>
          balanced_forM (fun c => ?_) _
        cases (t.cluster c).goals.find? fun g => (t.goal g).state.isProven with
        | none => exact balanced_throw _
        | some g' => exact balanced_deeper (ih g')

theorem balanced_leaveOpen (source : Snapshot) (x : Var) (found : List Var) :
    Balanced (leaveOpen source x found) fun guard => Tree.leaveOpen source guard x found := by
  refine balanced_bind (balanced_copyDecl _ x) fun _ => balanced_bind balanced_getSolver fun _ => ?_
  split <;> exact balanced_pure _

theorem balanced_prefixGoal (t : Tree) (fuel : Nat) (g : GoalId) (found : List Var) :
    Balanced (prefixGoal t fuel g found) fun guard => t.prefixGoal fuel guard g found := by
  induction fuel generalizing g found with
  | zero => exact balanced_throw _
  | succ fuel ih =>
    unfold prefixGoal Tree.prefixGoal
    cases (t.goal g).norm with
    | notNormal => exact balanced_leaveOpen _ _ _
    | proven post =>
      exact balanced_bind (balanced_copyNormalization t g post) fun _ => balanced_pure _
    | normal x post =>
      refine balanced_bind (balanced_copyNormalization t g post) fun _ => ?_
      cases t.safeApplication? g with
      | none => exact balanced_leaveOpen _ _ _
      | some r =>
        exact balanced_bind (balanced_copyApplication t r post x) fun _ =>
          balanced_foldlM (fun _ _ => balanced_deeper (ih _ _)) _ _

end TransplantM

namespace Tree

theorem extractProof_eq (t : Tree) (limit : Nat) : t.extractProof limit = (do
    Solver.restore t.rootState
    t.extractGoal (t.goals.size + 1) (.ofLimit limit) root
    let s ← get
    let term := s.context.instantiate (.var (t.goal root).var)
    match term.vars.toList with
    | [] => return ⟨term, s.state⟩
    | x :: xs => throw (.extraction (.openTerm term x (xs.length + 1)))) := by
  rw [← (TransplantM.balanced_extractGoal t _ root).runAt_eq]
  rfl

theorem extractSafePrefix_eq (t : Tree) (limit : Nat) : t.extractSafePrefix limit = (do
    Solver.restore t.rootState
    let goals ← t.prefixGoal (t.goals.size + 1) (.ofLimit limit) root []
    let s ← get
    return ⟨goals, s.context.instantiate (.var (t.goal root).var), s.state⟩) := by
  rw [← (TransplantM.balanced_prefixGoal t _ root []).runAt_eq]
  rfl

end Tree

end ProofSearch
