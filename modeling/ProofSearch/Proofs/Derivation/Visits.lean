import ProofSearch.Proofs.Derivation.Prefix

/-!
# The visits of an extraction

The safe prefix is put together by a recursion over the tree that carries a guard and a list along.

1. `Tree.visitOrder`: the goals that the recursion comes to, one after the other.
2. `Tree.Linked.extractSafePrefix_eq_visits`: extraction consists of the visits in this order and of
   nothing else.
3. `Tree.Linked.visits_iff`: the applications copied are those of the safe prefix.
-/

namespace ProofSearch

/-- The guard at a depth, if the limit allows to go that deep. -/
def DepthGuard.reach (limit depth : Nat) : Except SearchError DepthGuard :=
  if limit ≠ 0 ∧ limit < depth then .error (.recursionLimit limit) else .ok ⟨depth, limit⟩

theorem DepthGuard.enter_eq_reach (depth limit : Nat) :
    (⟨depth, limit⟩ : DepthGuard).enter = reach limit (depth + 1) := by
  simp only [enter, reach, Nat.lt_succ_iff]

namespace Tree

variable {t : Tree} {g k : GoalId} {r : ApplicationId}

/-! ## The order of the visits -/

/-- The application that is copied when a goal is visited. -/
def prefixApplication? (t : Tree) (g : GoalId) : Option ApplicationId :=
  match (t.goal g).norm with
  | .normal _ _ => t.safeApplication? g
  | .notNormal | .proven _ => none

/-- The goals that are visited from `g` on, nested at most `fuel` times, each with its depth. -/
def visitsFrom (t : Tree) : Nat → Nat → GoalId → List (Nat × GoalId)
  | 0, _, _ => []
  | fuel + 1, depth, g => (depth, g) :: match t.prefixApplication? g with
    | none => []
    | some r => (t.subgoalIds r).flatMap (t.visitsFrom fuel (depth + 1))

/-- The goals that are visited, each with its depth. -/
def visitOrder (t : Tree) : List (Nat × GoalId) := t.visitsFrom (t.goals.size + 1) 0 root

/-- The application is copied at a visit. -/
def Visits (t : Tree) (r : ApplicationId) : Prop :=
  ∃ v ∈ t.visitOrder, t.prefixApplication? v.2 = some r

/-- A visit copies the normalization of the goal and its application, or leaves the goal open. -/
def visit (t : Tree) (limit : Nat) (found : List Var) (v : Nat × GoalId) :
    SolverM SearchError (List Var) := do
  let guard ← SolverM.orThrow (DepthGuard.reach limit v.1)
  match (t.goal v.2).norm with
  | .notNormal => leaveOpen (t.preState v.2) guard (t.goal v.2).var found
  | .proven post => do
    t.copyNormalization guard v.2 post
    return found
  | .normal x post => do
    t.copyNormalization guard v.2 post
    match t.safeApplication? v.2 with
    | none => leaveOpen post guard x found
    | some r =>
      t.copyApplication guard r post x
      return found

/-- Makes all visits, one after the other. -/
def visitAll (t : Tree) (limit : Nat) : SolverM SearchError SafePrefix := do
  Solver.restore t.rootState
  let goals ← t.visitOrder.foldlM (t.visit limit) []
  let s ← get
  return ⟨goals, s.context.instantiate (.var (t.goal root).var), s.state⟩

/-! ## The recursion makes the visits -/

theorem mem_of_safeApplication? (h : t.safeApplication? g = some r) :
    r ∈ (t.goal g).applications := List.mem_of_find?_eq_some h

theorem kind_of_safeApplication? (h : t.safeApplication? g = some r) :
    (t.application r).rule.kind = .safe := by
  have hsafe := List.find?_some h
  exact RuleKind.isSafe_iff.1 hsafe

/-- A visit that would be too deep fails, and so do all visits that begin with it. -/
theorem foldlM_visitsFrom_of_error {fuel limit depth : Nat} {e : SearchError} {found : List Var}
    (hfuel : 0 < fuel) (h : DepthGuard.reach limit depth = .error e) (g : GoalId) :
    (t.visitsFrom fuel depth g).foldlM (t.visit limit) found = throw e := by
  obtain ⟨fuel, rfl⟩ := Nat.exists_eq_add_one.2 hfuel
  rw [visitsFrom, List.foldlM_cons, visit, h]
  rfl

/-- The goals of an application are visited one after the other. -/
theorem foldlM_prefixGoal {fuel limit depth : Nat} {gs : List GoalId} {found : List Var}
    (h : ∀ g ∈ gs, 0 < fuel ∧ ∀ guard found, DepthGuard.reach limit depth = .ok guard →
      t.prefixGoal fuel guard g found =
        (t.visitsFrom fuel depth g).foldlM (t.visit limit) found) :
    gs.foldlM (fun found g => do
        let inner ← SolverM.orThrow (DepthGuard.reach limit depth)
        t.prefixGoal fuel inner g found) found =
      (gs.flatMap (t.visitsFrom fuel depth)).foldlM (t.visit limit) found := by
  induction gs generalizing found with
  | nil => rfl
  | cons g gs ih =>
    obtain ⟨hfuel, hg⟩ := h g List.mem_cons_self
    have hfirst : (do
        let inner ← SolverM.orThrow (DepthGuard.reach limit depth)
        t.prefixGoal fuel inner g found) =
        (t.visitsFrom fuel depth g).foldlM (t.visit limit) found := by
      cases hreach : DepthGuard.reach limit depth with
      | error e => exact (foldlM_visitsFrom_of_error hfuel hreach g).symm
      | ok guard => exact hg guard found hreach
    rw [List.foldlM_cons, List.flatMap_cons, List.foldlM_append, hfirst]
    exact bind_congr fun found => ih fun k hk => h k (List.mem_cons_of_mem g hk)

/-- With fuel for the goals younger than `g`, the recursion from `g` makes the visits from `g`. -/
theorem Linked.prefixGoal_eq_visits (hl : t.Linked) {fuel limit depth : Nat} {guard : DepthGuard}
    {found : List Var} (hg : t.HasGoal g) (hfuel : t.goals.size ≤ g.index + fuel)
    (hreach : DepthGuard.reach limit depth = .ok guard) : t.prefixGoal fuel guard g found =
      (t.visitsFrom fuel depth g).foldlM (t.visit limit) found := by
  induction fuel generalizing g depth guard found with
  | zero => exact absurd hg (Nat.not_lt.2 hfuel)
  | succ fuel ih =>
    have hvisit : (t.visitsFrom (fuel + 1) depth g).foldlM (t.visit limit) found =
        t.visit limit found (depth, g) >>= fun found => (match t.prefixApplication? g with
          | none => []
          | some r => (t.subgoalIds r).flatMap (t.visitsFrom fuel (depth + 1))).foldlM
            (t.visit limit) found := List.foldlM_cons
    have hguard : (SolverM.orThrow (DepthGuard.reach limit depth) : SolverM SearchError _) =
        pure guard := by
      rw [hreach]
      rfl
    rw [hvisit, visit, hguard, prefixGoal, prefixApplication?, pure_bind]
    cases hnorm : (t.goal g).norm with
    | notNormal => simp
    | proven post => simp
    | normal x post =>
      cases hsafe : t.safeApplication? g with
      | none => simp
      | some r =>
        obtain rfl : guard = ⟨depth, limit⟩ := by
          unfold DepthGuard.reach at hreach
          split at hreach
          · cases hreach
          · exact (Except.ok.inj hreach).symm
        simp only [bind_assoc, pure_bind, DepthGuard.enter_eq_reach]
        refine bind_congr fun _ => bind_congr fun _ => foldlM_prefixGoal fun k hk => ?_
        obtain ⟨hgoal, hlt⟩ := hl.index_lt_of_mem_subgoalIds (mem_of_safeApplication? hsafe) hk
        have hgoal' : k.index < t.goals.size := hgoal
        exact ⟨by omega, fun guard found => ih hgoal (by omega)⟩

/-- Extraction consists of the visits and of nothing else. -/
theorem Linked.extractSafePrefix_eq_visits (hl : t.Linked) (limit : Nat) :
    t.extractSafePrefix limit = t.visitAll limit := by
  have hreach : DepthGuard.reach limit 0 = .ok (.ofLimit limit) := if_neg (by simp)
  have hgoals : t.prefixGoal (t.goals.size + 1) (.ofLimit limit) Tree.root [] =
      t.visitOrder.foldlM (t.visit limit) [] :=
    hl.prefixGoal_eq_visits hl.root (Nat.le_succ_of_le (Nat.le_add_left _ _)) hreach
  rw [extractSafePrefix_eq, hgoals]
  rfl

/-! ## The goals visited -/

theorem prefixApplication?_eq_some : t.prefixApplication? g = some r ↔
    (∃ x post, (t.goal g).norm = .normal x post) ∧ t.safeApplication? g = some r := by
  unfold prefixApplication?
  cases (t.goal g).norm with
  | notNormal | proven | normal => simp

theorem prefixChild_iff : t.PrefixChild g k ↔
    ∃ r, t.prefixApplication? g = some r ∧ k ∈ t.subgoalIds r := by
  simp only [prefixApplication?_eq_some, PrefixChild]
  constructor
  · rintro ⟨x, post, r, hnorm, hr, hk⟩
    exact ⟨r, ⟨⟨x, post, hnorm⟩, hr⟩, hk⟩
  · rintro ⟨r, ⟨⟨x, post, hnorm⟩, hr⟩, hk⟩
    exact ⟨x, post, r, hnorm, hr, hk⟩

theorem prefixBelow_of_mem {fuel depth : Nat} {v : Nat × GoalId}
    (h : v ∈ t.visitsFrom fuel depth g) : t.PrefixBelow g v.2 := by
  induction fuel generalizing depth g with
  | zero => cases h
  | succ fuel ih =>
    rw [visitsFrom, List.mem_cons] at h
    rcases h with rfl | h
    · exact .refl
    · split at h
      · cases h
      · next r hr =>
        obtain ⟨k, hk, h⟩ := List.mem_flatMap.1 h
        exact .head (prefixChild_iff.2 ⟨r, hr, hk⟩) (ih h)

theorem Linked.exists_mem_visitsFrom (hl : t.Linked) {fuel depth : Nat} (hg : t.HasGoal g)
    (hfuel : t.goals.size ≤ g.index + fuel) (h : t.PrefixBelow g k) :
    ∃ v ∈ t.visitsFrom fuel depth g, v.2 = k := by
  induction fuel generalizing depth g with
  | zero => exact absurd hg (Nat.not_lt.2 hfuel)
  | succ fuel ih =>
    rw [visitsFrom]
    rcases Relation.ReflTransGen.cases_head h with rfl | ⟨j, hj, hjk⟩
    · exact ⟨_, List.mem_cons_self, rfl⟩
    · obtain ⟨r, hr, hj⟩ := prefixChild_iff.1 hj
      obtain ⟨hgoal, hlt⟩ := hl.index_lt_of_mem_subgoalIds
        (mem_of_safeApplication? (prefixApplication?_eq_some.1 hr).2) hj
      have hbelow : ∃ v ∈ t.visitsFrom fuel (depth + 1) j, v.2 = k := ih hgoal (by omega) hjk
      obtain ⟨v, hv, hk⟩ := hbelow
      rw [hr]
      exact ⟨v, List.mem_cons_of_mem _ (List.mem_flatMap.2 ⟨j, hj, hv⟩), hk⟩

/-- The applications copied are the first safe ones of the goals of the safe prefix. -/
theorem Linked.visits_iff (hl : t.Linked) :
    t.Visits r ↔ ∃ g, t.InPrefix g ∧ t.prefixApplication? g = some r := by
  constructor
  · rintro ⟨v, hv, hr⟩
    exact ⟨v.2, prefixBelow_of_mem hv, hr⟩
  · rintro ⟨g, hg, hr⟩
    have hvisited : ∃ v ∈ t.visitOrder, v.2 = g :=
      hl.exists_mem_visitsFrom hl.root (Nat.le_succ_of_le (Nat.le_add_left _ _)) hg
    obtain ⟨v, hv, rfl⟩ := hvisited
    exact ⟨v, hv, hr⟩

end Tree

end ProofSearch
