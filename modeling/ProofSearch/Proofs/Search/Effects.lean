import Mathlib.Data.Nat.Basic
import Mathlib.Order.Basic
import ProofSearch.Proofs.Search.Progress

/-!
# What an expansion leaves to do

The expansion of a goal calms the other goals, brings new goals one level deeper, and leaves the
goal itself with fewer rules to try.

1. `Goal.isLive`: the goals with rules left to try.
2. `Spread`: what the expansion of a goal does to the other goals.
3. `Turned`: what it leaves of the rules of the goal itself.
-/

namespace ProofSearch

/-- The goal is active and has rules left to try. -/
def Goal.isLive (a : Goal) : Bool := a.isActive && !a.isExhausted

/-- `b` has the depth and the rules of `a`, and is not active if `a` is not. -/
structure Goal.Calms (a b : Goal) : Prop where
  depth : b.depth = a.depth
  selected : b.selected = a.selected
  queue : b.queue = a.queue
  active : b.isActive = true → a.isActive = true

theorem Goal.Calms.refl (a : Goal) : a.Calms a := ⟨rfl, rfl, rfl, id⟩

theorem Goal.Calms.trans {a b c : Goal} (h : a.Calms b) (h' : b.Calms c) : a.Calms c :=
  ⟨h'.depth.trans h.depth, h'.selected.trans h.selected, h'.queue.trans h.queue,
    fun hc => h.active (h'.active hc)⟩

theorem Goal.Settles.calms {a b : Goal} (h : a.Settles b) : a.Calms b := by
  refine ⟨by rw [h.eq], by rw [h.eq], by rw [h.eq], fun hb => ?_⟩
  simp only [isActive, Bool.and_eq_true, Bool.not_eq_true', GoalState.isUnknown_iff] at hb ⊢
  refine ⟨⟨?_, ?_⟩, ?_⟩
  · by_contra hu
    exact hu ((h.state hu).symm.trans hb.1.1)
  · by_contra hm
    exact nomatch (h.mark (by simpa using hm)).symm.trans hb.1.2
  · have hf : b.forced = a.forced := by rw [h.eq]
    exact hf.symm.trans hb.2

theorem Goal.Calms.isLive {a b : Goal} (h : a.Calms b) (hb : b.isLive = true) :
    a.isLive = true := by
  have hforced {c : Goal} (hc : c.isActive = true) : c.forced = false := by
    simp only [isActive, Bool.and_eq_true, Bool.not_eq_true'] at hc
    exact hc.2
  simp only [Goal.isLive, Bool.and_eq_true] at hb ⊢
  refine ⟨h.active hb.1, ?_⟩
  have hex := hb.2
  simp only [isExhausted, hforced hb.1, Bool.false_or, h.selected, h.queue] at hex
  simpa only [isExhausted, hforced (h.active hb.1), Bool.false_or] using hex

namespace Search

open SearchM

variable {search : Search} {g : GoalId}

/-! ## The other goals -/

/-- What the expansion of the goal `g` does to the tree: other goals calm down, and new goals come
with a new application and one level below `g`. -/
structure Spread (search : Search) (g : GoalId) (t t' : Tree) : Prop where
  goals : t.goals.size ≤ t'.goals.size
  applications : t.applications.size ≤ t'.applications.size
  depth : (t'.goal g).depth = (t.goal g).depth
  other : ∀ k, t.HasGoal k → k ≠ g → (t.goal k).Calms (t'.goal k)
  fresh : ∀ k, ¬ t.HasGoal k → t'.HasGoal k → (t'.goal k).depth = (t.goal g).depth + 1 ∧
    search.tooDeep (t.goal g).depth = false ∧ t.applications.size < t'.applications.size

section

variable {t t' t'' : Tree}

theorem Spread.refl (t : Tree) : Spread search g t t :=
  ⟨le_rfl, le_rfl, rfl, fun _ _ _ => .refl _, fun _ hk hk' => (hk hk').elim⟩

theorem Spread.hasGoal (h : Spread search g t t') {k : GoalId} (hk : t.HasGoal k) :
    t'.HasGoal k := lt_of_lt_of_le hk h.goals

theorem Spread.trans (h : Spread search g t t') (h' : Spread search g t' t'') (hg : t.HasGoal g) :
    Spread search g t t'' := by
  refine ⟨h.goals.trans h'.goals, h.applications.trans h'.applications, h'.depth.trans h.depth,
    fun k hk hne => (h.other k hk hne).trans (h'.other k (h.hasGoal hk) hne), fun k hk hk' => ?_⟩
  by_cases hk'' : t'.HasGoal k
  · obtain ⟨hdepth, hshallow, happs⟩ := h.fresh k hk hk''
    have hne : k ≠ g := fun he => hk (he ▸ hg)
    exact ⟨(h'.other k hk'' hne).depth.trans hdepth, hshallow, happs.trans_le h'.applications⟩
  · obtain ⟨hdepth, hshallow, happs⟩ := h'.fresh k hk'' hk'
    rw [h.depth] at hdepth hshallow
    exact ⟨hdepth, hshallow, h.applications.trans_lt happs⟩

theorem spread_modifyGoal {f : Goal → Goal} (hdepth : ∀ a, (f a).depth = a.depth) :
    Spread search g t (t.modifyGoal g f) := by
  refine ⟨by simp [Tree.modifyGoal], le_rfl, ?_, fun k _ hne => ?_, fun k hk hk' => ?_⟩
  · rw [Tree.goal_modifyGoal]
    split
    · exact hdepth _
    · rfl
  · rw [Tree.goal_modifyGoal, if_neg fun h => hne h.1]
    exact .refl _
  · exact (hk (by simpa [Tree.HasGoal, Tree.modifyGoal] using hk')).elim

theorem spread_settle (h : t.Settling t') : Spread search g t t' :=
  ⟨h.goals_size.ge, h.applications_size.ge, by rw [(h.goal g).eq], fun k _ _ => (h.goal k).calms,
    fun _ hk hk' => (hk (h.hasGoal.1 hk')).elim⟩

/-- A new application brings goals one level below its own. -/
theorem spread_addApplication {x : Var} {state : Snapshot} (hr : Ready search t g x state)
    {new : NewApplication} {added : AddedApplication} {s s' : Solver} (hp : new.parent = g)
    (hadd : Ends (t.addApplication new) s (added, t') s') : Spread search g t t' := by
  subst hp
  obtain ⟨new', copies, groups, u, -, -, hparent, hgrow, -, -, ht⟩ :=
    Tree.addApplication_growth hadd hr.has
  have hu : Spread search new.parent t u := by
    rw [← hparent]
    refine ⟨by rw [hgrow.goals_size]; omega, by rw [hgrow.applications_size]; omega,
      by rw [hgrow.goal_parent], fun k hk hne => ?_, fun k hk hk' => ?_⟩
    · rw [hgrow.goal_old k hk hne]
      exact .refl _
    · obtain ⟨c, m, -, -, -, -, he⟩ := hgrow.goal_new k hk hk'
      rw [he, hparent]
      refine ⟨?_, hr.shallow, by rw [hgrow.applications_size]; omega⟩
      rw [← hparent]
      rfl
  rcases ht with ⟨-, rfl⟩ | ⟨-, rfl⟩
  · exact hu.trans (spread_settle (Tree.settling_markApplicationProven u _)) hr.has
  · exact hu

end

theorem Move.spread {run run' : Run} (h : Move search g run run') :
    Spread search g run.tree run'.tree := by
  cases h with
  | solve ht =>
    rw [ht]
    exact .refl _
  | note hf ht _ =>
    rw [ht]
    exact spread_modifyGoal fun a => by rw [hf]
  | normalize _ ht _ | postpone _ _ ht _ | select _ _ ht _ | take _ _ ht _ =>
    rw [ht]
    exact spread_modifyGoal fun _ => rfl
  | attach hr hp hadd ht _ =>
    rw [ht]
    exact spread_addApplication hr hp hadd

theorem Moves.spread {run run' : Run} (h : Moves search g run run') (hg : run.tree.HasGoal g) :
    Spread search g run.tree run'.tree := by
  induction h with
  | refl => exact .refl _
  | tail _ hmove ih => exact ih.trans hmove.spread hg

theorem Outcome.spread {run run' : Run} (h : Outcome search g run run') (hg : run.tree.HasGoal g) :
    Spread search g run.tree run'.tree := by
  cases h with
  | giveUp hu _ ht _ =>
    rw [ht, Tree.markForcedUnprovable, if_neg (by simpa using hu)]
    refine Spread.trans ?_ (spread_settle (Tree.settling_markUnprovable _ g)) hg
    exact spread_modifyGoal fun _ => rfl
  | close _ _ _ ht _ =>
    rw [ht]
    refine Spread.trans ?_ (spread_settle (Tree.settling_markProvenByNorm _ g)) hg
    exact spread_modifyGoal fun _ => rfl
  | commit hr hp hadd ht _ =>
    rw [ht]
    exact (spread_addApplication hr hp hadd).trans (spread_modifyGoal fun _ => rfl) hg
  | check _ ht _ =>
    rw [ht]
    exact spread_settle (Tree.settling_checkExhausted _ g)

/-! ## The rules of the expanded goal -/

/-- The goal has the same rules left to try in both trees. -/
def SameRules (g : GoalId) (t t' : Tree) : Prop :=
  (t'.goal g).selected = (t.goal g).selected ∧ (t'.goal g).queue = (t.goal g).queue

section

variable {run run' : Run} {s s' : Expansion}

theorem SameRules.trans {t t' t'' : Tree} (h : SameRules g t t') (h' : SameRules g t' t'') :
    SameRules g t t'' := ⟨h'.1.trans h.1, h'.2.trans h.2⟩

theorem sameRules_settle {t t' : Tree} (h : t.Settling t') : SameRules g t t' :=
  ⟨(h.goal g).calms.selected, (h.goal g).calms.queue⟩

theorem sameRules_modifyGoal {t : Tree} {f : Goal → Goal}
    (hselected : ∀ a, (f a).selected = a.selected) (hqueue : ∀ a, (f a).queue = a.queue) :
    SameRules g t (t.modifyGoal g f) := by
  unfold SameRules
  rw [Tree.goal_modifyGoal]
  split
  · exact ⟨hselected _, hqueue _⟩
  · exact ⟨rfl, rfl⟩

theorem sameRules_addApplication {t t' : Tree} {new : NewApplication} {added : AddedApplication}
    {s s' : Solver} (hg : t.HasGoal new.parent)
    (hadd : Ends (t.addApplication new) s (added, t') s') : SameRules new.parent t t' := by
  obtain ⟨new', copies, groups, u, -, -, hparent, hgrow, -, -, ht⟩ :=
    Tree.addApplication_growth hadd hg
  have hu : SameRules new.parent t u := by
    rw [← hparent, SameRules, hgrow.goal_parent]
    exact ⟨rfl, rfl⟩
  rcases ht with ⟨-, rfl⟩ | ⟨-, rfl⟩
  · exact hu.trans (sameRules_settle (Tree.settling_markApplicationProven u _))
  · exact hu

/-- Nothing is queued and no goals are added. -/
structure Idle (run run' : Run) : Prop where
  queue : run'.queue = run.queue
  size : run'.tree.goals.size = run.tree.goals.size

/-- What an expansion leaves of the rules of its goal: if the goal is still live it has rules
selected that it had not before, or fewer rules.  Without rules nothing is queued or added. -/
structure Turned (g : GoalId) (run run' : Run) : Prop where
  rules : (run'.tree.goal g).isLive = true → (run'.tree.goal g).selected = true ∧
    ((run.tree.goal g).selected = false ∨
      (run'.tree.goal g).queue.length < (run.tree.goal g).queue.length)
  idle : (run.tree.goal g).selected = true → (run.tree.goal g).queue = [] → Idle run run'

theorem not_isLive_of_queue {a : Goal} (hs : a.selected = true) (hq : a.queue = []) :
    ¬ a.isLive = true := by
  simp [Goal.isLive, Goal.isExhausted, hs, hq]

theorem not_isLive_of_decided {a : Goal} (h : a.state ≠ .unknown ∨ a.forced = true) :
    ¬ a.isLive = true := by
  rcases h with h | h
  · simp [Goal.isLive, Goal.isActive, GoalState.isUnknown, h]
  · simp [Goal.isLive, Goal.isActive, h]

/-- The rules of the goal are selected during its expansion, or `n` is smaller than the number of
rules it had. -/
def Fewer (g : GoalId) (run : Run) (n : Nat) : Prop :=
  (run.tree.goal g).selected = false ∨ n < (run.tree.goal g).queue.length

/-- What is left of the rules of the goal at each stage of its expansion, which began in `run`. -/
abbrev Remaining (g : GoalId) (run : Run) (s : Expansion) : Prop :=
  match s.stage with
  | .waiting | .entered | .norm _ | .normal .. =>
    SameRules g run.tree s.run.tree ∧ Idle run s.run
  | .safe .. | .eager .. => (run.tree.goal g).selected = false
  | .queued _ _ queue => (s.run.tree.goal g).queue = queue ∧ (Fewer g run queue.length ∨
      queue = (run.tree.goal g).queue ∧ Idle run s.run)
  | .taken _ _ _ rest => (s.run.tree.goal g).queue = rest ∧ Fewer g run rest.length
  | .offered .. => (s.run.tree.goal g).selected = true ∧
      Fewer g run (s.run.tree.goal g).queue.length
  | .tried => (s.run.tree.goal g).selected = true ∧
      (Fewer g run (s.run.tree.goal g).queue.length ∨
        (s.run.tree.goal g).queue = [] ∧ Idle run s.run)
  | .done _ => Turned g run s.run

theorem Idle.trans {run'' : Run} (h : Idle run run') (h' : Idle run' run'') : Idle run run'' :=
  ⟨h'.queue.trans h.queue, h'.size.trans h.size⟩

theorem idle_modifyGoal (f : Goal → Goal) : Idle run (run.modifyGoal g f) :=
  ⟨rfl, Array.size_modify ..⟩

theorem Fewer.elim {n : Nat} {p : Prop} (h : Fewer g run n)
    (hs : (run.tree.goal g).selected = true) (hq : (run.tree.goal g).queue = []) : p := by
  rcases h with h | h
  · cases h.symm.trans hs
  · rw [hq] at h
    exact (Nat.not_lt_zero n h).elim

/-- Rules that are tried leave fewer of them, whether or not they settle the goal. -/
theorem live_of_tried {t : Tree} (hs : s.stage = .tried) (hr : Remaining g run s)
    (ht : s.run.tree.Settling t) (hlive : (t.goal g).isLive = true) :
    (t.goal g).selected = true ∧ Fewer g run (t.goal g).queue.length := by
  obtain ⟨u, _⟩ := s
  cases hs
  have hsame : SameRules g u.tree t := sameRules_settle ht
  have hsel : (t.goal g).selected = true := hsame.1.trans hr.1
  refine ⟨hsel, ?_⟩
  rcases hr.2 with hfewer | ⟨hnil, -⟩
  · rw [hsame.2]
    exact hfewer
  · exact (not_isLive_of_queue hsel (hsame.2.trans hnil) hlive).elim

/-- A goal that is settled has no rules left to try. -/
theorem turned_of_decided (hd : (run'.tree.goal g).state ≠ .unknown ∨
    (run'.tree.goal g).forced = true) (hi : Idle run run') : Turned g run run' :=
  ⟨fun hlive => (not_isLive_of_decided hd hlive).elim, fun _ _ => hi⟩

theorem ExpansionStep.remaining (h : ExpansionStep search true g s s') (ht : Tending search g s)
    (hr : Remaining g run s) : Remaining g run s' := by
  cases h with
  | enter =>
    exact ⟨hr.1.trans (sameRules_modifyGoal (fun _ => rfl) fun _ => rfl),
      hr.2.trans (idle_modifyGoal _)⟩
  | @giveUp u u' _ next =>
    obtain ⟨hg, ha, -⟩ := ht
    simp only [Tree.isActive, Goal.isActive, Bool.and_eq_true, GoalState.isUnknown_iff] at ha
    let v := u.modifyGoal g fun goal => { goal with expandedIn := u.iteration }
    have hv : v.tree.HasGoal g := Tree.hasGoal_modifyGoal _ hg
    have hunknown : (v.tree.goal g).state = .unknown := by
      rw [Tree.goal_modifyGoal_self hg]
      exact ha.1.1
    have hi : Idle run v := hr.2.trans (idle_modifyGoal _)
    refine turned_of_decided (.inr ?_) (hi.trans ⟨next.queue, ?_⟩)
    · rw [next.tree]
      exact v.tree.markForcedUnprovable_forced hv hunknown
    · rw [next.tree]
      exact (Tree.sameLinks_settleGoal v.tree g .givenUp).goals_size
  | known => exact hr
  | leave norm => exact (ht.2 _ norm).elim
  | begin => exact ⟨hr.1, hr.2.queue, hr.2.size⟩
  | round _ next | normFail _ _ _ _ next | rewrite _ _ _ _ _ next | simplify _ _ _ next =>
    exact ⟨next.tree ▸ hr.1, next.queue.trans hr.2.queue, next.tree ▸ hr.2.size⟩
  | normalize =>
    exact ⟨hr.1.trans (sameRules_modifyGoal (fun _ => rfl) fun _ => rfl),
      hr.2.trans (idle_modifyGoal _)⟩
  | @close u u' p norm proven next =>
    have hi := hr.2.trans (idle_modifyGoal (g := g) fun goal =>
      { goal with branch := p.branch, norm := .proven u.solver.state })
    refine turned_of_decided (.inl ?_) (hi.trans ⟨next.queue, ?_⟩)
    · rw [next.tree, Tree.markProvenByNorm_state]
      · decide
      · exact Tree.hasGoal_modifyGoal _ ht.1.has
      · rw [Tree.recordNorm, Tree.goal_modifyGoal_self ht.1.has]
        exact ht.1.unknown
    · rw [next.tree]
      exact (Tree.settling_markProvenByNorm _ g).goals_size
  | pick first => exact hr.1.1.symm.trans (first rfl)
  | fail | postpone | choose => exact hr
  | skip unset => cases unset
  | commit ends next =>
    obtain ⟨x, state, hready⟩ := ht
    subst next
    refine ⟨fun _ => ⟨?_, .inl hr⟩, fun hsel => by cases hr.symm.trans hsel⟩
    rw [Tree.goal_modifyGoal_self (hready.toTended.addApplication rfl ends).has]
  | select => exact ⟨rfl, .inl (.inl hr)⟩
  | resume => exact ⟨rfl, .inr ⟨hr.1.2, hr.2⟩⟩
  | @take u x state entry rest =>
    refine ⟨by rw [Tree.goal_modifyGoal_self ht.1.has], ?_⟩
    rcases hr.2 with (hsel | hlt) | ⟨hqueue, -⟩
    · exact .inl hsel
    · exact .inr (Nat.lt_of_succ_lt hlt)
    · exact .inr (by rw [← hqueue]; exact Nat.lt_succ_self _)
  | reject _ _ next =>
    rw [Remaining, next.tree]
    exact ⟨by rw [Tree.goal_modifyGoal_self ht.1.has]; exact hr.1, .inl hr.2⟩
  | offer _ _ next =>
    rw [Remaining, next.tree]
    exact ⟨ht.2, hr.1 ▸ hr.2⟩
  | @attach u _ _ _ _ _ _ _ tree _ _ ends next =>
    obtain ⟨x, state, htended⟩ := ht
    subst next
    have hsame : SameRules g u.tree tree := sameRules_addApplication htended.has ends
    exact ⟨hsame.1.trans hr.1, hsame.2 ▸ hr.2⟩
  | finish => exact ⟨hr.1, .inl hr.2⟩
  | exhaust =>
    refine ⟨ht.2, ?_⟩
    rw [hr.1]
    exact hr.2.imp_right fun h => ⟨rfl, h.2⟩
  | @retire u tree next ended =>
    have hs := next ▸ Tree.settling_checkExhausted u.tree g
    refine ⟨live_of_tried rfl hr hs, fun hsel hnil => ?_⟩
    rcases hr.2 with hfewer | ⟨-, hi⟩
    · exact hfewer.elim hsel hnil
    · exact hi.trans ⟨rfl, hs.goals_size⟩
  | @requeue u tree next active more =>
    have hs := next ▸ Tree.settling_checkExhausted u.tree g
    refine ⟨live_of_tried rfl hr hs, fun hsel hnil => ?_⟩
    rcases hr.2 with hfewer | ⟨hempty, -⟩
    · exact hfewer.elim hsel hnil
    · -- a goal without rules is not queued again
      rw [hs.isExhausted_eq] at more
      simp [Goal.isExhausted, hr.1, hempty] at more

theorem turned_expandGoal (h : Ends (search.expandGoal g) run () run') (hg : run.tree.HasGoal g)
    (ha : run.tree.isActive g = true) (hnp : ∀ post, (run.tree.goal g).norm ≠ .proven post) :
    Turned g run run' := by
  obtain ⟨s', hsteps, rfl, hdone⟩ := Stepwise.of_ends stepwise_expandGoal h
  have hremaining : Tending search g s' ∧ Remaining g run s' := by
    clear h hdone
    induction hsteps with
    | refl => exact ⟨⟨hg, ha, hnp⟩, ⟨rfl, rfl⟩, rfl, rfl⟩
    | tail _ hstep ih => exact ⟨hstep.tending ih.1, hstep.remaining ih.1 ih.2⟩
  obtain ⟨ending, hending⟩ := ExpansionStage.isDone_iff.1 hdone
  rw [Remaining, hending] at hremaining
  exact hremaining.2

end

end Search

end ProofSearch
