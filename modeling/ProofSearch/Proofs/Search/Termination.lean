import Mathlib.Data.Finset.Basic
import Mathlib.Data.Multiset.DershowitzManna
import Mathlib.Data.Prod.Lex
import ProofSearch.Proofs.Search.Effects
import ProofSearch.Proofs.Search.Errors

/-!
# Every limit stops the search

A pass expands a goal, which brings new goals one level deeper or leaves the goal with fewer rules.

1. `Lighter`: what is left of the limits, the ranks of the goals that are still to be expanded, and
   the length of the queue; `Steady.lighter_pass` says that every pass makes them smaller.
2. `loop_settles`: with enough passes the loop ends by itself.
3. `limits_stop`: fuel beyond some amount makes no difference, and the loop is not cut off.
-/

namespace ProofSearch

namespace Search

open SearchM

variable {search : Search} {g : GoalId}

/-! ## The weight of a run -/

/-- Goals that are replaced by goals of smaller rank make the multiset of ranks smaller. -/
theorem isDershowitzMannaLT_map {α β : Type} [Preorder β] {as bs : Finset α} {f f' : α → β} {a : α}
    (ha : a ∈ as) (h : ∀ b ∈ bs, b ∈ as ∧ b ≠ a ∧ f' b = f b ∨ f' b < f a) :
    (bs.val.map f').IsDershowitzMannaLT (as.val.map f) := by
  classical
  let kept := bs.filter fun b => b ∈ as ∧ b ≠ a ∧ f' b = f b
  have hbs : kept ⊆ bs := Finset.filter_subset _ _
  have has : kept ⊆ as := fun b hb => (Finset.mem_filter.1 hb).2.1
  have hsplit {cs : Finset α} (hcs : kept ⊆ cs) (k : α → β) :
      cs.val.map k = kept.val.map k + (cs \ kept).val.map k := by
    rw [← Multiset.map_add, Finset.sdiff_val, add_tsub_cancel_of_le (Finset.val_le_iff.2 hcs)]
  refine ⟨kept.val.map f, (bs \ kept).val.map f', (as \ kept).val.map f, ?_, ?_, hsplit has f, ?_⟩
  · have hmem : f a ∈ (as \ kept).val.map f :=
      Multiset.mem_map_of_mem f (Finset.mem_sdiff.2 ⟨ha, fun hk => (Finset.mem_filter.1 hk).2.2.1 rfl⟩)
    exact fun he => Multiset.notMem_zero _ (he ▸ hmem)
  · rw [hsplit hbs f', Multiset.map_congr rfl fun b hb => (Finset.mem_filter.1 hb).2.2.2]
  · intro y hy
    obtain ⟨b, hb, rfl⟩ := Multiset.mem_map.1 hy
    obtain ⟨hb, hnot⟩ := Finset.mem_sdiff.1 hb
    refine ⟨f a, Multiset.mem_map_of_mem f (Finset.mem_sdiff.2
      ⟨ha, fun hk => (Finset.mem_filter.1 hk).2.2.1 rfl⟩), ?_⟩
    exact (h b hb).resolve_left fun hkeep => hnot (Finset.mem_filter.2 ⟨hb, hkeep⟩)

/-- How far a goal is from having nothing left to try: the levels below it that the depth limit
allows, whether its rules are still to be selected, and the number of its rules. -/
def rank (search : Search) (a : Goal) : Nat ×ₗ Nat ×ₗ Nat :=
  toLex (search.options.maxRuleApplicationDepth - a.depth,
    toLex (if a.selected then 0 else 1, a.queue.length))

/-- The goals with rules left to try. -/
def liveGoals (t : Tree) : Finset Nat :=
  (Finset.range t.goals.size).filter fun i => (t.goal ⟨i⟩).isLive

/-- What is left of the limits on goals and applications. -/
def allowance (search : Search) (t : Tree) : Nat :=
  search.options.maxGoals - t.goals.size +
    (search.options.maxRuleApplications - t.applications.size)

/-- The ranks of the goals that are still to be expanded. -/
def work (search : Search) (t : Tree) : Multiset (Nat ×ₗ Nat ×ₗ Nat) :=
  (liveGoals t).val.map fun i => search.rank (t.goal ⟨i⟩)

/-- `run'` has less to do than `run`. -/
def Lighter (search : Search) (run' run : Run) : Prop :=
  Prod.Lex (· < ·) (Prod.Lex Multiset.IsDershowitzMannaLT (· < ·))
    (search.allowance run'.tree, search.work run'.tree, run'.queue.pending.length)
    (search.allowance run.tree, search.work run.tree, run.queue.pending.length)

theorem wellFounded_lighter (search : Search) : WellFounded search.Lighter :=
  InvImage.wf (fun run : Run =>
    (search.allowance run.tree, search.work run.tree, run.queue.pending.length))
    (WellFounded.prod_lex wellFounded_lt
      (WellFounded.prod_lex Multiset.wellFounded_isDershowitzMannaLT wellFounded_lt))

section

variable {t t' : Tree} {run run' : Run}

theorem mem_liveGoals {i : Nat} :
    i ∈ liveGoals t ↔ t.HasGoal ⟨i⟩ ∧ (t.goal ⟨i⟩).isLive = true := by
  rw [liveGoals, Finset.mem_filter, Finset.mem_range]
  rfl

theorem rank_eq_of_calms {a b : Goal} (h : a.Calms b) : search.rank b = search.rank a := by
  rw [rank, rank, h.depth, h.selected, h.queue]

/-- A goal that is still live after its expansion has a smaller rank. -/
theorem Turned.rank_lt (h : Turned g run run') (hlive : (run'.tree.goal g).isLive = true)
    (hdepth : (run'.tree.goal g).depth = (run.tree.goal g).depth) :
    search.rank (run'.tree.goal g) < search.rank (run.tree.goal g) := by
  obtain ⟨hselected, hrules⟩ := h.rules hlive
  rw [rank, rank, hdepth, hselected, Prod.Lex.toLex_lt_toLex]
  refine .inr ⟨rfl, Prod.Lex.toLex_lt_toLex.2 ?_⟩
  cases hsel : (run.tree.goal g).selected with
  | false => exact .inl Nat.zero_lt_one
  | true =>
    rw [hsel] at hrules
    exact .inr ⟨rfl, hrules.resolve_left nofun⟩

/-- Under a depth limit new goals have a smaller rank than the goal they belong to. -/
theorem rank_lt_of_fresh {a b : Goal} (hlimit : search.options.maxRuleApplicationDepth ≠ 0)
    (hdepth : b.depth = a.depth + 1) (hshallow : search.tooDeep a.depth = false) :
    search.rank b < search.rank a := by
  have hlt : a.depth < search.options.maxRuleApplicationDepth := by
    simpa [tooDeep, hlimit] using hshallow
  rw [rank, rank, hdepth, Prod.Lex.toLex_lt_toLex]
  exact .inl (by simp only; omega)

/-- The expansion of a live goal leaves less work, unless it adds goals where no depth limit
holds. -/
theorem work_lt_of_live (hs : Spread search g run.tree run'.tree) (ht : Turned g run run')
    (hg : run.tree.HasGoal g) (hlive : (run.tree.goal g).isLive = true)
    (hfresh : ∀ k, ¬ run.tree.HasGoal k → run'.tree.HasGoal k →
      search.options.maxRuleApplicationDepth ≠ 0) :
    (search.work run'.tree).IsDershowitzMannaLT (search.work run.tree) := by
  refine isDershowitzMannaLT_map (a := g.index) (mem_liveGoals.2 ⟨hg, hlive⟩) fun k hk => ?_
  obtain ⟨hk, hkl⟩ := mem_liveGoals.1 hk
  by_cases hold : run.tree.HasGoal ⟨k⟩
  · by_cases hkg : (⟨k⟩ : GoalId) = g
    · rw [hkg] at hkl ⊢
      exact .inr (ht.rank_lt hkl hs.depth)
    · have hcalms := hs.other ⟨k⟩ hold hkg
      exact .inl ⟨mem_liveGoals.2 ⟨hold, hcalms.isLive hkl⟩, fun he => hkg (by rw [he]),
        rank_eq_of_calms hcalms⟩
  · obtain ⟨hdepth, hshallow, -⟩ := hs.fresh ⟨k⟩ hold hk
    exact .inr (rank_lt_of_fresh (hfresh ⟨k⟩ hold hk) hdepth hshallow)

/-- The expansion of a goal without rules adds no work. -/
theorem work_le_of_idle (hs : Spread search g run.tree run'.tree) (ht : Turned g run run')
    (hsel : (run.tree.goal g).selected = true) (hnil : (run.tree.goal g).queue = []) :
    search.work run'.tree = search.work run.tree ∨
      (search.work run'.tree).IsDershowitzMannaLT (search.work run.tree) := by
  have hkeep (k : Nat) (hk : k ∈ liveGoals run'.tree) : k ∈ liveGoals run.tree ∧
      search.rank (run'.tree.goal ⟨k⟩) = search.rank (run.tree.goal ⟨k⟩) := by
    obtain ⟨hk, hkl⟩ := mem_liveGoals.1 hk
    have hold : run.tree.HasGoal ⟨k⟩ := lt_of_lt_of_eq hk (ht.idle hsel hnil).2
    have hkg : (⟨k⟩ : GoalId) ≠ g := by
      rintro rfl
      have hrules := (ht.rules hkl).2
      rw [hsel, hnil] at hrules
      exact hrules.elim nofun (Nat.not_lt_zero _)
    have hcalms := hs.other ⟨k⟩ hold hkg
    exact ⟨mem_liveGoals.2 ⟨hold, hcalms.isLive hkl⟩, rank_eq_of_calms hcalms⟩
  by_cases hsub : liveGoals run.tree ⊆ liveGoals run'.tree
  · have heq : liveGoals run'.tree = liveGoals run.tree :=
      Finset.Subset.antisymm (fun k hk => (hkeep k hk).1) hsub
    refine .inl ?_
    rw [work, work, ← heq]
    exact Multiset.map_congr rfl fun k hk => (hkeep k hk).2
  · obtain ⟨k, hk, hk'⟩ := Finset.not_subset.1 hsub
    exact .inr (isDershowitzMannaLT_map hk fun j hj =>
      .inl ⟨(hkeep j hj).1, fun he => hk' (he ▸ hj), (hkeep j hj).2⟩)

theorem firstActive?_length {es rest : List QueueEntry}
    (h : firstActive? t es = (some g, rest)) : rest.length < es.length := by
  induction es with
  | nil => cases h
  | cons e es ih =>
    unfold firstActive? at h
    split at h
    · cases h
      exact Nat.lt_succ_self _
    · exact (ih h).trans (Nat.lt_succ_self _)

/-- While a search goes on its limits are not reached. -/
theorem verdict?_none_limits (h : search.verdict? t = none) :
    (search.options.maxGoals ≠ 0 → t.goals.size < search.options.maxGoals) ∧
      (search.options.maxRuleApplications ≠ 0 →
        t.applications.size < search.options.maxRuleApplications) := by
  unfold verdict? at h
  dsimp only at h
  split at h
  · cases h
  · split at h
    · cases h
    · split at h
      · cases h
      · next hgoals =>
        split at h
        · cases h
        · next happs =>
          exact ⟨fun hne => not_le.1 fun hle => hgoals ⟨hne, hle⟩,
            fun hne => not_le.1 fun hle => happs ⟨hne, hle⟩⟩

/-- An expansion that adds goals uses up some of the limits on goals and applications, if there are
any. -/
theorem allowance_lt_of_fresh (hs : Spread search g t t') (hv : search.verdict? t = none)
    {k : GoalId} (hk : ¬ t.HasGoal k) (hk' : t'.HasGoal k)
    (hlimit : search.options.maxGoals ≠ 0 ∨ search.options.maxRuleApplications ≠ 0) :
    search.allowance t' < search.allowance t := by
  obtain ⟨hgoals, happs⟩ := verdict?_none_limits hv
  have hgrown : t.goals.size < t'.goals.size := lt_of_le_of_lt (not_lt.1 hk) hk'
  have hadded := (hs.fresh k hk hk').2.2
  unfold allowance
  rcases hlimit with hne | hne
  · have := hgoals hne
    omega
  · have := happs hne
    omega

theorem allowance_le (hs : Spread search g t t') : search.allowance t' ≤ search.allowance t :=
  Nat.add_le_add (Nat.sub_le_sub_left hs.goals _) (Nat.sub_le_sub_left hs.applications _)

/-- An active goal has rules left or had its rules selected and tried. -/
theorem isLive_or_idle {a : Goal} (ha : a.isActive = true) :
    a.isLive = true ∨ a.selected = true ∧ a.queue = [] := by
  have hforced : a.forced = false := by
    simp only [Goal.isActive, Bool.and_eq_true, Bool.not_eq_true'] at ha
    exact ha.2
  cases hex : a.isExhausted with
  | false => exact .inl (by rw [Goal.isLive, ha, hex]; rfl)
  | true =>
    refine .inr ?_
    simpa [Goal.isExhausted, hforced] using hex

/-- Every pass leaves less to do, if there is a limit on goals, applications or the depth. -/
theorem Steady.lighter_pass {mid : Run} (h : Steady search Tree.nowhere run.tree run.queue)
    (hv : search.verdict? run.tree = none) (hn : Ends nextActiveGoal? run (some g) mid)
    (he : Ends (search.expandGoal g) (countIteration mid) () run')
    (hlimit : search.options.maxGoals ≠ 0 ∨ search.options.maxRuleApplications ≠ 0 ∨
      search.options.maxRuleApplicationDepth ≠ 0) : search.Lighter run' run := by
  obtain ⟨ha, hg, htree, -, last, hm, ho⟩ := h.pass_moves hn he
  have hopen := h.not_closed hg ha
  obtain ⟨rest, hfirst, rfl⟩ := ends_nextActiveGoal?.1 hn
  obtain ⟨first, hmid⟩ : ∃ first, countIteration
      { run with queue := { run.queue with pending := rest } } = first := ⟨_, rfl⟩
  have htree : first.tree = run.tree := hmid ▸ rfl
  have hqueue : first.queue.pending = rest := hmid ▸ rfl
  rw [hmid] at he hm
  rw [← htree] at ha hg hopen hv
  have hs : Spread search g first.tree run'.tree :=
    (hm.spread hg).trans (ho.spread ((hm.spread hg).hasGoal hg)) hg
  have ht : Turned g first run' := turned_expandGoal he hg ha hopen
  unfold Lighter
  rw [← htree, Prod.lex_def]
  rcases (allowance_le hs).lt_or_eq with hlt | heq
  · exact .inl hlt
  -- no new goals, unless the depth limit makes up for them
  have hfresh (k : GoalId) (hk : ¬ first.tree.HasGoal k) (hk' : run'.tree.HasGoal k) :
      search.options.maxRuleApplicationDepth ≠ 0 := by
    by_contra hdepth
    refine heq.not_lt (allowance_lt_of_fresh hs hv hk hk' ?_)
    rcases hlimit with hne | hne | hne
    · exact .inl hne
    · exact .inr hne
    · exact (hne hdepth).elim
  refine .inr ⟨heq, Prod.lex_def.2 ?_⟩
  rcases isLive_or_idle ha with hlive | ⟨hsel, hnil⟩
  · exact .inl (work_lt_of_live hs ht hg hlive hfresh)
  · rcases work_le_of_idle hs ht hsel hnil with hwork | hwork
    · refine .inr ⟨hwork, ?_⟩
      rw [(ht.idle hsel hnil).1, hqueue]
      exact firstActive?_length hfirst
    · exact .inl hwork

/-! ## The loop -/

/-- One pass of the loop. -/
theorem run_loop_succ (spent : SearchError) (n : Nat) (run : Run) :
    (search.loop spent (n + 1)).run.run run = match search.verdict? run.tree with
      | some verdict => (.ok verdict, run)
      | none => match nextActiveGoal?.run.run run with
        | (.ok none, mid) => (.ok (some .exhausted), mid)
        | (.ok (some g), mid) => match (search.expandGoal g).run.run (countIteration mid) with
          | (.ok _, run') => (search.loop spent n).run.run run'
          | (.error e, run') => (.error e, run')
        | (.error e, mid) => (.error e, mid) := by
  rw [loop, run_bind]
  show (match search.verdict? run.tree with
    | some verdict => (pure verdict : SearchM (Option FailureReason))
    | none => _).run.run run = _
  cases search.verdict? run.tree with
  | some verdict => rfl
  | none =>
    simp only [run_bind]
    cases nextActiveGoal?.run.run run with
    | mk result mid =>
      cases result with
      | error e => rfl
      | ok next =>
        cases next with
        | none => rfl
        | some g =>
          show (search.expandGoal g >>= fun _ => search.loop spent n).run.run
            (countIteration mid) = _
          rw [run_bind]
          dsimp only
          cases (search.expandGoal g).run.run (countIteration mid) with
          | mk result run' => cases result <;> rfl

/-- With enough passes the loop ends by itself, if there is a limit on goals, applications or the
depth. -/
theorem loop_settles (hlimit : search.options.maxGoals ≠ 0 ∨
      search.options.maxRuleApplications ≠ 0 ∨ search.options.maxRuleApplicationDepth ≠ 0)
    (run : Run) (h : Steady search Tree.nowhere run.tree run.queue) :
    ∃ n result, ∀ spent k, n ≤ k → (search.loop spent k).run.run run = result := by
  -- by induction on what is left to do
  induction run using (wellFounded_lighter search).induction with
  | _ run ih =>
    have hpass (spent : SearchError) (n : Nat) := search.run_loop_succ spent n run
    -- the loop ends in this pass
    have hends {result : Except SearchError (Option FailureReason) × Run}
        (hresult : ∀ spent n, (search.loop spent (n + 1)).run.run run = result) :
        ∃ n result, ∀ spent k, n ≤ k → (search.loop spent k).run.run run = result := by
      refine ⟨1, result, fun spent k hk => ?_⟩
      obtain ⟨n, rfl⟩ := Nat.exists_eq_add_of_le' hk
      exact hresult spent n
    cases hv : search.verdict? run.tree with
    | some verdict =>
      simp only [hv] at hpass
      exact hends hpass
    | none =>
      cases hn : nextActiveGoal?.run.run run with
      | mk next mid =>
        simp only [hv, hn] at hpass
        cases next with
        | error e => exact hends hpass
        | ok next =>
          cases next with
          | none => exact hends hpass
          | some g =>
            cases he : (search.expandGoal g).run.run (countIteration mid) with
            | mk result run' =>
              simp only [he] at hpass
              cases result with
              | error e => exact hends hpass
              | ok =>
                obtain ⟨n, result, hresult⟩ := ih run' (h.lighter_pass hv hn he hlimit)
                  (h.pass hn he)
                refine ⟨n + 1, result, fun spent k hk => ?_⟩
                obtain ⟨k, rfl⟩ := Nat.exists_eq_add_one.2 (n.succ_pos.trans_le hk)
                exact (hpass spent k).trans (hresult spent k (Nat.le_of_succ_le_succ hk))

end

/-! ## Fuel -/

section

variable (search : Search) (fuel : Nat)

theorem tryNormRules_fuel :
    ({ search with fuel := fuel } : Search).tryNormRules = search.tryNormRules := by
  funext vars x branch ms
  induction ms generalizing branch with
  | nil => rfl
  | cons m ms ih =>
    simp only [tryNormRules, ih]
    rfl

theorem normPhase_fuel : ({ search with fuel := fuel } : Search).normPhase = search.normPhase := by
  funext vars p phase
  simp only [normPhase, tryNormRules_fuel]
  rfl

theorem normRounds_fuel :
    ({ search with fuel := fuel } : Search).normRounds = search.normRounds := by
  funext vars spent n p
  induction n generalizing p with
  | zero => rfl
  | succ n ih => simp only [normRounds, normPhase_fuel, ih]

theorem trySafeRules_fuel :
    ({ search with fuel := fuel } : Search).trySafeRules = search.trySafeRules := by
  funext g x state postpone ms
  induction ms with
  | nil => rfl
  | cons m ms ih =>
    simp only [trySafeRules, ih]
    rfl

theorem runSafeRules_fuel :
    ({ search with fuel := fuel } : Search).runSafeRules = search.runSafeRules := by
  funext g x state postpone
  simp only [runSafeRules, trySafeRules_fuel]

theorem tryQueued_fuel : ({ search with fuel := fuel } : Search).tryQueued = search.tryQueued := by
  funext g x state queue
  induction queue with
  | nil => rfl
  | cons entry rest ih =>
    simp only [tryQueued, ih]
    rfl

theorem expandNormal_fuel :
    ({ search with fuel := fuel } : Search).expandNormal = search.expandNormal := by
  funext g x state
  simp only [expandNormal, runSafeRules_fuel, expandTentative, tryQueued_fuel]
  rfl

variable {search}

/-- Where the rounds of a normalization are bounded it makes no use of fuel. -/
theorem normalizeGoal_fuel (hnorm : search.options.maxNormIterations ≠ 0) :
    ({ search with fuel := fuel } : Search).normalizeGoal = search.normalizeGoal := by
  have hbudget : ({ search with fuel := fuel } : Search).normBudget = search.normBudget := by
    unfold normBudget
    split
    · next h => exact (hnorm h).elim
    · rfl
  funext g
  simp only [normalizeGoal, normalizeAnew, normRounds_fuel, hbudget]

/-- Where the rounds of a normalization are bounded an expansion makes no use of fuel. -/
theorem expandGoal_fuel (hnorm : search.options.maxNormIterations ≠ 0) :
    ({ search with fuel := fuel } : Search).expandGoal = search.expandGoal := by
  funext g
  simp only [expandGoal, normalizeGoal_fuel fuel hnorm, expandNormal_fuel]
  rfl

theorem loop_fuel (hnorm : search.options.maxNormIterations ≠ 0) (spent : SearchError) (n : Nat) :
    ({ search with fuel := fuel } : Search).loop spent n = search.loop spent n := by
  induction n with
  | zero => rfl
  | succ n ih =>
    simp only [loop, ih, expandGoal_fuel fuel hnorm]
    rfl

end

/-- The loop of a search that is given the stated fuel. -/
def loopWithFuel (search : Search) (fuel : Nat) : SearchM (Option FailureReason) :=
  let search := { search with fuel := fuel }
  search.loop search.loopBudget.2 search.loopBudget.1

theorem normBudget_ne_outOfFuel (hnorm : search.options.maxNormIterations ≠ 0) (x : Var) :
    search.normBudget.2 x ≠ .outOfFuel := by
  unfold normBudget
  split
  · next h => exact (hnorm h).elim
  · exact nofun

/-- Where the rounds of a normalization are bounded the loop is cut off by its own budget only. -/
theorem loop_ne_outOfFuel (hnorm : search.options.maxNormIterations ≠ 0) {spent : SearchError}
    (hspent : spent ≠ .outOfFuel) (n : Nat) :
    FailsIn (· ≠ .outOfFuel) (search.loop spent n) :=
  failsIn_loop (fun _ => SearchError.IsProper.ne_outOfFuel) search (normBudget_ne_outOfFuel hnorm)
    hspent n

/-- Any one limit stops the search: fuel beyond some amount makes no difference to its loop, and the
loop ends before that fuel is used up. -/
theorem limits_stop (search : Search) (s : Solver) (goal : Var)
    (hd : s.context.isDeclared goal = true) (hnorm : search.options.maxNormIterations ≠ 0)
    (hlimit : search.options.maxGoals ≠ 0 ∨ search.options.maxRuleApplications ≠ 0 ∨
      search.options.maxRuleApplicationDepth ≠ 0 ∨ search.options.maxRecursionDepth ≠ 0) :
    ∃ vars, s.context.dependencies goal = .ok vars ∧ ∃ n result final,
      (∀ fuel, n ≤ fuel → (search.loopWithFuel fuel).run.run
        (search.start s (.ofGoal goal vars s.state)) = (result, final)) ∧
      result ≠ .error .outOfFuel := by
  obtain ⟨vars, hvars⟩ := Context.exists_dependencies hd
  refine ⟨vars, hvars, ?_⟩
  obtain ⟨first, hfirst⟩ : ∃ first, search.start s (.ofGoal goal vars s.state) = first := ⟨_, rfl⟩
  have hsteady : Steady search Tree.nowhere first.tree first.queue := hfirst ▸ steady_start s goal vars
  rw [hfirst]
  -- the errors of the loop, whatever its budget
  have hproper (spent : SearchError) (hspent : spent ≠ .outOfFuel) (n : Nat) :
      ((search.loop spent n).run.run first).1 ≠ .error .outOfFuel := fun he =>
    loop_ne_outOfFuel hnorm hspent n first _ _ (Prod.ext he rfl) rfl
  obtain ⟨n, outcome, hsame, hne⟩ : ∃ n outcome,
      (∀ fuel, n ≤ fuel → (search.loopWithFuel fuel).run.run first = outcome) ∧
        outcome.1 ≠ .error .outOfFuel := by
    cases hrecursion : search.options.maxRecursionDepth with
    | zero =>
      rw [hrecursion, ne_self_iff_false, or_false] at hlimit
      obtain ⟨n, outcome, hsettled⟩ := loop_settles hlimit first hsteady
      refine ⟨n, outcome, fun fuel hfuel => ?_, ?_⟩
      · rw [loopWithFuel, loop_fuel fuel hnorm]
        simp only [loopBudget, hrecursion]
        exact hsettled _ _ hfuel
      · rw [← hsettled (.recursionLimit 0) n le_rfl]
        exact hproper (.recursionLimit 0) nofun n
    | succ limit =>
      -- the loop has a budget of its own
      refine ⟨0, (search.loop (.recursionLimit (limit + 1)) (limit + 1)).run.run first,
        fun fuel _ => ?_, hproper (.recursionLimit (limit + 1)) nofun _⟩
      rw [loopWithFuel, loop_fuel fuel hnorm]
      simp only [loopBudget, hrecursion]
  exact ⟨n, outcome.1, outcome.2, hsame, hne⟩

/-- A search that reduces `P` to `P` again and again, with no limit but the depth. -/
def circling : Search where
  rules := (RuleSet.ofList [⟨"again", .tentative .ninety, [],
    Clause.procedure ⟨"again", [], [.const "P"], .const "P"⟩⟩]).query
  simplifier := .none
  options := { maxGoals := 0, maxRuleApplications := 0, maxRuleApplicationDepth := 3,
               maxRecursionDepth := 0 }
  fuel := 10

theorem limits_stop_circling : ∃ s : Solver, s.context.isDeclared ⟨1⟩ = true ∧
    circling.options.maxNormIterations ≠ 0 ∧ circling.options.maxRuleApplicationDepth ≠ 0 ∧
    (∃ n result final, (∀ fuel, n ≤ fuel → (circling.loopWithFuel fuel).run.run
      (circling.start s (.ofGoal ⟨1⟩ ∅ s.state)) = (result, final)) ∧
      result ≠ .error .outOfFuel) ∧
    ∃ final, Ends (circling.loopWithFuel 10) (circling.start s (.ofGoal ⟨1⟩ ∅ s.state))
      (some .unprovable) final := by
  obtain ⟨s, hs⟩ : ∃ s : Solver, s = ((Solver.mkGoal (.const "P") []).run .empty).2 := ⟨_, rfl⟩
  have hd : s.context.isDeclared ⟨1⟩ = true := by
    rw [hs]
    decide
  have hv : s.context.dependencies ⟨1⟩ = .ok ∅ := by
    rw [hs]
    rfl
  obtain ⟨vars, hvars, hstop⟩ := limits_stop circling s ⟨1⟩ hd (by decide)
    (.inr (.inr (.inl (by decide))))
  obtain rfl : ∅ = vars := Except.ok.inj (hv.symm.trans hvars)
  obtain ⟨verdict, final, hends, hverdict⟩ := exists_ends (x := circling.loopWithFuel 10)
    (s := circling.start s (.ofGoal ⟨1⟩ ∅ s.state))
    (fun verdict _ => decide (verdict = some .unprovable)) (by
      rw [hs]
      decide +kernel)
  obtain rfl := of_decide_eq_true hverdict
  exact ⟨s, hd, by decide, by decide, hstop, final, hends⟩

end Search

end ProofSearch
