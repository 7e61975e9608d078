import ProofSearch.Proofs.AndOr.RuleRecords
import ProofSearch.Proofs.Search.Progress

/-!
# The steps of a search

A search takes one goal after the other and expands it, first in its loop and then in the expansion
of the safe prefix.  A search that is cut off leaves a tree on the way of the one that is not.

1. `SearchStep`: what can happen next.  Goals are expanded by the steps of `ExpansionStep`.
2. `Valid`, `SearchSteps.valid`: the tree is linked, and queues name goals of the tree and rules of
   the search.
3. `Continues`: a computation that takes steps, even if it fails, and goes on from where another one
   was cut off.
4. `continues_loop`, `continues_expandPrefix`: the two loops of a search, with fewer and more
   passes.
5. `treeAfter`, `tree_runAll`: the trees between these passes, and the one that a search ends with.
-/

namespace ProofSearch

namespace Tree

variable {t t' : Tree} {g k : GoalId}

/-- The subgoals of an application are the goals that name it as their parent. -/
theorem Linked.mem_subgoalIds (hl : t.Linked) {r : ApplicationId} (hr : t.HasApplication r)
    {g : GoalId} : g ∈ t.subgoalIds r ↔ t.HasGoal g ∧ t.parentApplication? g = some r := by
  simp only [subgoalIds, List.mem_flatMap, parentApplication?]
  constructor
  · rintro ⟨c, hc, hg⟩
    obtain ⟨hcluster, hparent⟩ := hl.clusterChild r hr c hc
    obtain ⟨hgoal, rfl⟩ := hl.member c hcluster g hg
    exact ⟨hgoal, hparent⟩
  · rintro ⟨hg, hparent⟩
    obtain ⟨hcluster, hmem⟩ := hl.home g hg
    exact ⟨_, (hl.clusterParent _ r hcluster hparent).2, hmem⟩

/-- Goals below an application are younger than the goal above it. -/
theorem Linked.index_lt_of_mem_subgoalIds (hl : t.Linked) {g k : GoalId} {r : ApplicationId}
    (hr : r ∈ (t.goal g).applications) (hk : k ∈ t.subgoalIds r) :
    t.HasGoal k ∧ g.index < k.index := by
  obtain ⟨hhas, hparent⟩ := hl.applicationChild g (hasGoal_of_mem hr) r hr
  obtain ⟨hgoal, habove⟩ := (hl.mem_subgoalIds hhas).1 hk
  exact ⟨hgoal, hparent ▸ hl.earlier k r hgoal habove⟩

theorem mem_queue_modifyGoal {f : Goal → Goal} {e : QueuedRule}
    (h : e ∈ ((t.modifyGoal g f).goal k).queue) :
    e ∈ (t.goal k).queue ∨ k = g ∧ e ∈ (f (t.goal g)).queue := by
  rw [goal_modifyGoal] at h
  split at h
  · next hk =>
    obtain ⟨rfl, -⟩ := hk
    exact .inr ⟨rfl, h⟩
  · exact .inl h

/-- The goals of a new application are queued, and they are in the tree. -/
theorem mem_queueAdded {new : NewApplication} {added : AddedApplication} {s s' : Solver}
    {q : GoalQueue} {e : QueueEntry} (h : Ends (t.addApplication new) s (added, t') s')
    (hp : t.HasGoal new.parent) (he : e ∈ (queueAdded q t' added).pending) :
    e ∈ q.pending ∨ t'.HasGoal e.goal := by
  obtain ⟨new', copies, groups, u, -, -, -, -, -, hadded, ht⟩ := addApplication_growth h hp
  rcases List.mem_append.1 ((GoalQueue.pushAll_perm ..).mem_iff.1 he) with he | he
  · obtain ⟨k, hk, rfl⟩ := List.mem_map.1 he
    exact .inr ((noted_of_added ht).hasGoal.2 ((hadded k).1 hk).2)
  · exact .inl he

end Tree

/-- What a search is busy with. -/
inductive Activity where
  | idle
  /-- The goal `g` is expanded.  Safe rules that are not applied at once are put off if `postpone`
  is set, and left out otherwise. -/
  | expanding (postpone : Bool) (g : GoalId) (stage : ExpansionStage)

/-- A search in progress. -/
structure Moment where
  run : Run
  activity : Activity

namespace Search

open SearchM

variable {search : Search} {postpone : Bool} {m m' : Moment} {g k : GoalId} {s s' : Expansion}
  {x : Var} {state : Snapshot} {run run' : Run}

/-- One step of a search. -/
inductive SearchStep (search : Search) : Moment → Moment → Prop
  /-- The loop takes the next goal off the queue. -/
  | next {run : Run} {g : GoalId} {rest : List QueueEntry} (has : run.tree.HasGoal g)
      (first : firstActive? run.tree run.queue.pending = (some g, rest)) :
      SearchStep search ⟨run, .idle⟩
        ⟨countIteration { run with queue := { run.queue with pending := rest } },
          .expanding true g .waiting⟩
  /-- No active goal is left in the queue. -/
  | drain {run : Run} {rest : List QueueEntry}
      (first : firstActive? run.tree run.queue.pending = (none, rest)) :
      SearchStep search ⟨run, .idle⟩
        ⟨{ run with queue := { run.queue with pending := rest } }, .idle⟩
  /-- The expansion of the safe prefix comes to a goal on which no rule was tried. -/
  | visit {run : Run} {g : GoalId} (has : run.tree.HasGoal g)
      (fresh : (run.tree.goal g).wasExpanded = false) :
      SearchStep search ⟨run, .idle⟩ ⟨run, .expanding false g .entered⟩
  | expand {run run' : Run} {postpone : Bool} {g : GoalId} {stage stage' : ExpansionStage}
      (step : ExpansionStep search postpone g ⟨run, stage⟩ ⟨run', stage'⟩) :
      SearchStep search ⟨run, .expanding postpone g stage⟩ ⟨run', .expanding postpone g stage'⟩
  | leave {run run' : Run} {postpone : Bool} {g : GoalId} {stage : ExpansionStage}
      (ended : stage.isDone = true ∨ postpone = false ∧ ∃ x state, stage = .safe x state [])
      (next : run.Agrees run') :
      SearchStep search ⟨run, .expanding postpone g stage⟩ ⟨run', .idle⟩

/-- Several steps. -/
abbrev SearchSteps (search : Search) : Moment → Moment → Prop :=
  Relation.ReflTransGen (SearchStep search)

theorem ExpansionSteps.searchSteps (h : ExpansionSteps search postpone g s s') :
    SearchSteps search ⟨s.run, .expanding postpone g s.stage⟩
      ⟨s'.run, .expanding postpone g s'.stage⟩ := by
  induction h with
  | refl => exact .refl
  | tail _ hstep ih => exact ih.tail (.expand hstep)

/-! ## What every step keeps -/

/-- The search can come upon the rule. -/
def Knows (search : Search) (r : Rule) : Prop := ∃ target hyps m, m.rule = r ∧
  (m ∈ search.rules.norm target hyps ∨ m ∈ search.rules.safe target hyps ∨
    m ∈ search.rules.tentative target hyps)

/-- The rule may wait to be tried on a goal.  It is not applied as a safe one then. -/
def Queues (search : Search) (e : QueuedRule) : Prop :=
  search.Knows e.rule ∧ e.kind.isEager = false

/-- The rules that an expansion has in hand are rules of the search. -/
abbrev KnowsStage (search : Search) : ExpansionStage → Prop
  | .safe _ _ ms => ∀ m ∈ ms, search.Knows m.rule
  | .eager m .. => search.Knows m.rule
  | .queued _ _ queue => ∀ e ∈ queue, search.Queues e
  | .taken _ _ entry rest => search.Queues entry ∧ ∀ e ∈ rest, search.Queues e
  | .offered entry .. => search.Queues entry
  | _ => True

/-- The tree is linked, and the queues name goals of the tree and rules of the search. -/
structure Stocked (search : Search) (run : Run) : Prop where
  linked : run.tree.Linked
  goals : ∀ e ∈ run.queue.pending, run.tree.HasGoal e.goal
  rules : ∀ g, ∀ e ∈ (run.tree.goal g).queue, search.Queues e

/-- The goal in hand is in the tree, and the rules in hand are rules of the search. -/
abbrev ValidActivity (search : Search) (run : Run) : Activity → Prop
  | .idle => True
  | .expanding _ g stage => Consistent g ⟨run, stage⟩ ∧ search.KnowsStage stage

/-- The invariant of a search. -/
structure Valid (search : Search) (m : Moment) : Prop where
  stocked : search.Stocked m.run
  activity : search.ValidActivity m.run m.activity

/-- Goals that are queued are in the tree. -/
theorem ExpansionStep.pending_cases (h : ExpansionStep search postpone g s s')
    (hg : s.run.tree.HasGoal g) {e : QueueEntry} (he : e ∈ s'.run.queue.pending) :
    e ∈ s.run.queue.pending ∨ s'.run.tree.HasGoal e.goal := by
  cases h with
  | enter | known | leave | begin | normalize | pick | resume | take | finish | exhaust
  | retire => exact .inl he
  | giveUp _ next | round _ next | normFail _ _ _ _ next | rewrite _ _ _ _ _ next
  | simplify _ _ _ next | close _ _ next | fail _ _ next | postpone _ _ _ _ next
  | skip _ _ _ _ next | choose _ _ _ next | reject _ _ next | offer _ _ next =>
    rw [next.queue] at he
    exact .inl he
  | select _ _ next =>
    rw [next] at he
    exact .inl he
  | commit ends next =>
    rw [next] at he ⊢
    exact (Tree.mem_queueAdded ends hg he).imp_right (Tree.hasGoal_modifyGoal _)
  | attach _ ends next =>
    rw [next] at he ⊢
    exact Tree.mem_queueAdded ends hg he
  | requeue next =>
    rcases List.mem_cons.1 ((GoalQueue.push_perm ..).mem_iff.1 he) with rfl | he
    · exact .inr (next ▸ (Tree.settling_checkExhausted _ g).hasGoal.2 hg)
    · exact .inl he

/-- Rules that are queued are rules of the search. -/
theorem ExpansionStep.queue_cases (h : ExpansionStep search postpone g s s')
    (hg : s.run.tree.HasGoal g) (hk : search.KnowsStage s.stage) {e : QueuedRule}
    (he : e ∈ (s'.run.tree.goal k).queue) : e ∈ (s.run.tree.goal k).queue ∨ search.Queues e := by
  have hmodify {t : Tree} {f : Goal → Goal}
      (hf : e ∈ (f (t.goal g)).queue → e ∈ (t.goal g).queue ∨ search.Queues e)
      (he : e ∈ ((t.modifyGoal g f).goal k).queue) : e ∈ (t.goal k).queue ∨ search.Queues e := by
    rcases Tree.mem_queue_modifyGoal he with he | ⟨rfl, he⟩
    · exact .inl he
    · exact hf he
  cases h with
  | known | leave | begin | pick | resume | finish | exhaust => exact .inl he
  | round _ next | normFail _ _ _ _ next | rewrite _ _ _ _ _ next | simplify _ _ _ next
  | skip _ _ _ _ next | choose _ _ _ next | offer _ _ next =>
    rw [next.tree] at he
    exact .inl he
  | enter | normalize => exact hmodify .inl he
  | giveUp _ next =>
    rw [next.tree, (Tree.sameRecord_markForcedUnprovable _ g k).queue] at he
    exact hmodify .inl he
  | close _ _ next =>
    rw [next.tree, ((Tree.settling_markProvenByNorm _ g).sameRecord k).queue] at he
    exact hmodify .inl he
  | fail _ _ next | reject _ _ next =>
    rw [next.tree] at he
    exact hmodify .inl he
  | @postpone run run' x state m ms input candidates value? _ _ _ _ next =>
    rw [next.tree] at he
    refine hmodify (fun he => ?_) he
    refine (List.mem_append.1 he).imp_right fun he => ?_
    rw [List.mem_singleton.1 he]
    exact ⟨hk m List.mem_cons_self, rfl⟩
  | @select run run' x state target hyps _ _ next =>
    rw [next] at he
    refine hmodify (fun he => ?_) he
    refine (List.mem_append.1 ((sortOrdered_perm ..).mem_iff.1 he)).imp_right fun he => ?_
    obtain ⟨m, hm, rfl⟩ := List.mem_map.1 he
    exact ⟨⟨target, hyps, m, rfl, .inr (.inr hm)⟩, rfl⟩
  | @take run x state entry rest =>
    exact hmodify (fun he => .inr (hk e (List.mem_cons_of_mem entry he))) he
  | commit ends next =>
    rw [next] at he
    rcases Tree.mem_queue_modifyGoal he with he | ⟨-, he⟩
    · exact .inl ((Tree.addApplication_goal ends hg).2 k e he)
    · cases he
  | attach _ ends next =>
    rw [next] at he
    exact .inl ((Tree.addApplication_goal ends hg).2 k e he)
  | retire next | requeue next =>
    rw [next, ((Tree.settling_checkExhausted _ g).sameRecord k).queue] at he
    exact .inl he

theorem ExpansionStep.stocked (h : ExpansionStep search postpone g s s')
    (hg : s.run.tree.HasGoal g) (hk : search.KnowsStage s.stage) (hs : search.Stocked s.run) :
    search.Stocked s'.run where
  linked := h.linked hg hs.linked
  goals e he := (h.pending_cases hg he).elim (fun he => h.hasGoal hg (hs.goals e he)) id
  rules k e he := (h.queue_cases hg hk he).elim (hs.rules k e) id

theorem ExpansionStep.knowsStage (h : ExpansionStep search postpone g s s')
    (hs : search.Stocked s.run) (hk : search.KnowsStage s.stage)
    (hg : s.run.tree.HasGoal g) : search.KnowsStage s'.stage := by
  have hstocked := h.stocked hg hk hs
  cases h with
  | enter | giveUp | known | leave | begin | round | normFail | rewrite | simplify | normalize
  | close | commit | finish | exhaust | retire | requeue => trivial
  | @pick run x state target hyps => exact fun m hm => ⟨target, hyps, m, rfl, .inr (.inl hm)⟩
  | @fail run run' x state m | @postpone run run' x state m | @skip run run' x state m =>
    exact fun k hm => hk k (List.mem_cons_of_mem m hm)
  | @choose run run' x state m => exact hk m List.mem_cons_self
  | select | resume => exact hstocked.rules g
  | @take run x state entry rest =>
    exact ⟨hk entry List.mem_cons_self, fun e he => hk e (List.mem_cons_of_mem entry he)⟩
  | reject => exact hk.2
  | offer => exact hk.1
  | attach => exact hk

theorem mem_of_firstActive? {t : Tree} {es : List QueueEntry} {e : QueueEntry}
    (h : e ∈ (firstActive? t es).2) : e ∈ es := by
  induction es with
  | nil => exact h
  | cons k es ih =>
    unfold firstActive? at h
    split at h
    · exact List.mem_cons_of_mem k h
    · exact List.mem_cons_of_mem k (ih h)

theorem SearchStep.valid (h : SearchStep search m m') (hm : search.Valid m) : search.Valid m' := by
  obtain ⟨hs, ha⟩ := hm
  cases h with
  | @next run g rest has first =>
    have hrest := (firstActive?_some first).2.2.1
    exact ⟨⟨hs.linked, fun e he => hs.goals e (hrest e he), hs.rules⟩, ⟨has, trivial⟩, trivial⟩
  | @drain run rest first =>
    refine ⟨⟨hs.linked, fun e he => hs.goals e (mem_of_firstActive? (t := run.tree) ?_), hs.rules⟩,
      trivial⟩
    rwa [first]
  | visit has => exact ⟨hs, ⟨has, trivial⟩, trivial⟩
  | expand step =>
    obtain ⟨hc, hk⟩ := ha
    exact ⟨step.stocked hc.has hk hs, step.consistent hc, step.knowsStage hs hk hc.has⟩
  | leave _ next =>
    refine ⟨⟨next.tree ▸ hs.linked, fun e he => ?_, next.tree ▸ hs.rules⟩, trivial⟩
    rw [next.queue] at he
    exact next.tree ▸ hs.goals e he

theorem SearchSteps.valid (h : SearchSteps search m m') (hm : search.Valid m) :
    search.Valid m' := by
  induction h with
  | refl => exact hm
  | tail _ hstep ih => exact hstep.valid ih

theorem SearchStep.hasGoal (h : SearchStep search m m') (hm : search.Valid m)
    (hk : m.run.tree.HasGoal k) : m'.run.tree.HasGoal k := by
  cases h with
  | next | drain | visit => exact hk
  | expand step => exact step.hasGoal hm.activity.1.has hk
  | leave _ next => exact next.tree ▸ hk

theorem SearchSteps.hasGoal (h : SearchSteps search m m') (hm : search.Valid m)
    (hk : m.run.tree.HasGoal k) : m'.run.tree.HasGoal k := by
  induction h with
  | refl => exact hk
  | tail hsteps hstep ih => exact hstep.hasGoal (SearchSteps.valid hsteps hm) ih

theorem valid_start (s : Solver) (goal : Var) (vars : VarSet) :
    search.Valid ⟨search.start s (.ofGoal goal vars s.state), .idle⟩ := by
  refine ⟨⟨Tree.linked_ofGoal goal vars s.state, fun e he => ?_, fun g e he => ?_⟩, trivial⟩
  · rcases List.mem_cons.1 ((GoalQueue.push_perm ..).mem_iff.1 he) with rfl | he
    · exact Tree.hasGoal_ofGoal.2 rfl
    · cases he
  · change e ∈ ((Tree.ofGoal goal vars s.state).goal g).queue at he
    by_cases hg : (Tree.ofGoal goal vars s.state).HasGoal g
    · rw [Tree.hasGoal_ofGoal.1 hg] at he
      cases he
    · rw [Tree.goal_of_not_has hg] at he
      cases he

/-! ## Computations that go on from one another -/

/-- The computation `y`, started in `run`, takes the steps of a search that is at `m`.  On its way
is the tree that `x` leaves, and if `x` succeeds then so does `y`.  A success of `y` is as `Q` says,
and the search is idle then. -/
def Continues {α : Type} (search : Search) (m : Moment) (x y : SearchM α) (run : Run)
    (Q : α → Run → Prop) : Prop :=
  ∃ m₁ m₂, SearchSteps search m m₁ ∧ m₁.run.tree = (x.run.run run).2.tree ∧
    SearchSteps search m₁ m₂ ∧ m₂.run.tree = (y.run.run run).2.tree ∧
    (∀ a run', Ends x run a run' → Ends y run a run') ∧
    ∀ a run', Ends y run a run' → m₂ = ⟨run', .idle⟩ ∧ Q a run'

/-- The computation takes steps, and its success is as `Q` says. -/
abbrev Takes {α : Type} (search : Search) (m : Moment) (x : SearchM α) (run : Run)
    (Q : α → Run → Prop) : Prop :=
  Continues search m x x run Q

section

variable {α β : Type} {x y : SearchM α} {f f' : α → SearchM β} {Q : α → Run → Prop}
  {Q' : β → Run → Prop} {a : α}

theorem takes_of_ends (h : Ends x run a run') (hs : SearchSteps search m ⟨run', .idle⟩)
    (hq : Q a run') : Takes search m x run Q := by
  have hres : x.run.run run = (.ok a, run') := h
  have htree : run'.tree = (x.run.run run).2.tree := by rw [hres]
  refine ⟨_, _, hs, htree, .refl, htree, fun _ _ => id, fun b u hb => ?_⟩
  cases hres.symm.trans hb
  exact ⟨rfl, hq⟩

theorem takes_pure (hs : SearchSteps search m ⟨run, .idle⟩) (hq : Q a run) :
    Takes search m (pure a) run Q :=
  takes_of_ends (ends_pure.2 ⟨rfl, rfl⟩) hs hq

theorem takes_of_error {e : SearchError} (h : x.run.run run = (.error e, run'))
    (hs : SearchSteps search m m') (htree : m'.run.tree = run'.tree) : Takes search m x run Q := by
  have htree : m'.run.tree = (x.run.run run).2.tree := by rw [htree, h]
  refine ⟨_, _, hs, htree, .refl, htree, fun _ _ => id, fun b u hb => ?_⟩
  cases h.symm.trans hb

/-- A computation that was not begun can be continued. -/
theorem continues_throw {e : SearchError} (h : Takes search m y run Q)
    (htree : m.run.tree = run.tree) : Continues search m (throw e) y run Q := by
  obtain ⟨m₁, m₂, h₁, -, h₂, ht₂, -, hq⟩ := h
  exact ⟨m, m₂, .refl, htree, h₁.trans h₂, ht₂, fun _ _ h => (ends_throw h).elim, hq⟩

theorem Continues.takes (h : Continues search m x y run Q) : Takes search m y run Q := by
  obtain ⟨m₁, m₂, h₁, -, h₂, ht₂, -, hq⟩ := h
  exact ⟨m₂, m₂, h₁.trans h₂, ht₂, .refl, ht₂, fun _ _ => id, hq⟩

theorem Continues.steps (h : Continues search m x y run Q) (hy : Ends y run a run') :
    SearchSteps search m ⟨run', .idle⟩ ∧ Q a run' := by
  obtain ⟨m₁, m₂, h₁, -, h₂, -, -, hq⟩ := h
  obtain ⟨rfl, hqa⟩ := hq a run' hy
  exact ⟨h₁.trans h₂, hqa⟩

theorem Continues.after (h : Continues search m' x y run Q) (hs : SearchSteps search m m') :
    Continues search m x y run Q := by
  obtain ⟨m₁, m₂, h₁, hrest⟩ := h
  exact ⟨m₁, m₂, hs.trans h₁, hrest⟩

/-- Two computations that begin with the same success. -/
theorem continues_of_ends (hx : Ends x run a run') (hy : Ends y run a run')
    (hf : Continues search m (f a) (f' a) run' Q') :
    Continues search m (x >>= f) (y >>= f') run Q' := by
  have hxf : (x >>= f).run.run run = (f a).run.run run' := by
    rw [run_bind, show x.run.run run = (.ok a, run') from hx]
  have hyf : (y >>= f').run.run run = (f' a).run.run run' := by
    rw [run_bind, show y.run.run run = (.ok a, run') from hy]
  obtain ⟨m₁, m₂, h₁, ht₁, h₂, ht₂, hsame, hq⟩ := hf
  refine ⟨m₁, m₂, h₁, by rw [hxf, ht₁], h₂, by rw [hyf, ht₂], fun b u hb => ?_, fun b u hb => ?_⟩
  · exact hyf.trans (hsame b u (hxf.symm.trans hb))
  · exact hq b u (hyf.symm.trans hb)

theorem continues_of_bind (hx : Ends x run a run')
    (hf : Continues search m (f a) (f' a) run' Q') :
    Continues search m (x >>= f) (x >>= f') run Q' :=
  continues_of_ends hx hx hf

theorem continues_bind (hx : Continues search m x y run Q)
    (hf : ∀ a run', SearchSteps search m ⟨run', .idle⟩ → Ends y run a run' → Q a run' →
      Continues search ⟨run', .idle⟩ (f a) (f' a) run' Q') :
    Continues search m (x >>= f) (y >>= f') run Q' := by
  obtain ⟨m₁, m₂, h₁, ht₁, h₂, ht₂, hsame, hq⟩ := hx
  have hsuccess {a : α} {v : Run} (hy : Ends y run a v) : SearchSteps search m ⟨v, .idle⟩ ∧
      SearchSteps search m₁ ⟨v, .idle⟩ ∧ Continues search ⟨v, .idle⟩ (f a) (f' a) v Q' := by
    obtain ⟨rfl, hqa⟩ := hq a v hy
    have hs := h₁.trans h₂
    exact ⟨hs, h₂, hf a v hs hy hqa⟩
  cases hx : x.run.run run with
  | mk res u =>
    cases res with
    | ok a =>
      have hy : Ends y run a u := hsame a u hx
      obtain ⟨hs, -, hrest⟩ := hsuccess hy
      exact continues_of_ends hx hy (hrest.after hs)
    | error e =>
      -- only `y` gets beyond its first part
      have hxf : (x >>= f).run.run run = (.error e, u) := by rw [run_bind, hx]
      have hnone (b : β) (v : Run) (hb : Ends (x >>= f) run b v) : Ends (y >>= f') run b v := by
        cases hxf.symm.trans hb
      replace ht₁ : m₁.run.tree = ((x >>= f).run.run run).2.tree := by rw [ht₁, hx, hxf]
      cases hy : y.run.run run with
      | mk res v =>
        cases res with
        | ok a =>
          have hyf : (y >>= f').run.run run = (f' a).run.run v := by rw [run_bind, hy]
          obtain ⟨-, hs, m₃, m₄, h₃, -, h₄, ht₄, -, hq'⟩ := hsuccess hy
          exact ⟨m₁, m₄, h₁, ht₁, hs.trans (h₃.trans h₄), by rw [hyf, ht₄], hnone,
            fun b w hb => hq' b w (hyf.symm.trans hb)⟩
        | error e' =>
          have hyf : (y >>= f').run.run run = (.error e', v) := by rw [run_bind, hy]
          refine ⟨m₁, m₂, h₁, ht₁, h₂, by rw [hyf, ht₂, hy], hnone, fun b w hb => ?_⟩
          cases hyf.symm.trans hb

/-- A goal is expanded by the first part of a computation. -/
theorem continues_of_stepwise {Q : α → Expansion → Prop}
    (hx : Stepwise search postpone g s x run Q)
    (hf : ∀ a s', ExpansionSteps search postpone g s s' → Q a s' →
      Continues search ⟨s'.run, .expanding postpone g s'.stage⟩ (f a) (f' a) s'.run Q') :
    Continues search ⟨s.run, .expanding postpone g s.stage⟩ (x >>= f) (x >>= f') run Q' := by
  obtain ⟨s', hsteps, ⟨a, ha, hq⟩ | ⟨e, u, he, hfault⟩⟩ := hx
  · exact continues_of_bind ha ((hf a s' hsteps hq).after hsteps.searchSteps)
  · have hxf : (x >>= f).run.run run = (.error e, u) := by rw [run_bind, he]
    have hxf' : (x >>= f').run.run run = (.error e, u) := by rw [run_bind, he]
    refine ⟨_, _, hsteps.searchSteps, ?_, .refl, ?_, fun b v hb => ?_, fun b v hb => ?_⟩
    · rw [hxf, hfault.tree_eq]
    · rw [hxf', hfault.tree_eq]
    · cases hxf.symm.trans hb
    · cases hxf'.symm.trans hb

end

/-! ## Loops -/

theorem takes_expandGoal {rest : List QueueEntry} (hm : search.Valid ⟨run, .idle⟩)
    (first : firstActive? run.tree run.queue.pending = (some g, rest)) :
    Takes search ⟨run, .idle⟩ (search.expandGoal g)
      (countIteration { run with queue := { run.queue with pending := rest } })
      fun _ _ => True := by
  obtain ⟨-, ⟨e, he, rfl⟩, -⟩ := firstActive?_some first
  rw [← bind_pure (search.expandGoal e.goal)]
  refine Continues.after ?_ (.single (.next (hm.stocked.goals e he) first))
  refine continues_of_stepwise stepwise_expandGoal ?_
  rintro ⟨⟩ ⟨run', stage⟩ - hdone
  exact takes_pure (.single (.leave (.inl hdone) (.refl _))) trivial

/-- The passes of a loop take steps. -/
theorem Reached.steps {first : Run} (h : Reached search first run)
    (hm : search.Valid ⟨first, .idle⟩) : SearchSteps search ⟨first, .idle⟩ ⟨run, .idle⟩ := by
  induction h with
  | first => exact .refl
  | pass _ _ hn he ih =>
    obtain ⟨rest, hfirst, rfl⟩ := ends_nextActiveGoal?.1 hn
    exact ih.trans ((takes_expandGoal (SearchSteps.valid ih hm) hfirst).steps he).1

theorem continues_loop {spent : SearchError} {n n' : Nat} (hn : n ≤ n')
    (hm : search.Valid ⟨run, .idle⟩) :
    Continues search ⟨run, .idle⟩ (search.loop spent n) (search.loop spent n') run
      fun _ _ => True := by
  induction n' generalizing n run with
  | zero =>
    obtain rfl := Nat.le_zero.1 hn
    exact takes_of_error rfl .refl rfl
  | succ n' ih =>
    -- both loops make a pass, unless the first one is cut off before
    have hpass {k : Nat} (hk : k ≤ n') : Continues search ⟨run, .idle⟩ (search.loop spent (k + 1))
        (search.loop spent (n' + 1)) run fun _ _ => True := by
      rw [loop, loop]
      refine continues_of_bind (ends_getTree.2 ⟨rfl, rfl⟩) ?_
      split
      · exact takes_pure .refl trivial
      · cases hfirst : firstActive? run.tree run.queue.pending with
        | mk next rest =>
          refine continues_of_bind (ends_nextActiveGoal?.2 ⟨rest, hfirst, rfl⟩) ?_
          cases next with
          | none => exact takes_pure (.single (.drain hfirst)) trivial
          | some g =>
            refine continues_of_bind (a := ()) (ends_modify.2 rfl) ?_
            refine continues_bind (takes_expandGoal hm hfirst) fun _ run' hs _ _ => ?_
            exact ih hk (SearchSteps.valid hs hm)
    cases n with
    | zero => exact continues_throw (hpass le_rfl).takes rfl
    | succ n => exact hpass (Nat.le_of_succ_le_succ hn)

/-- One step of expanding the safe prefix. -/
theorem takes_prefixStep {limit applied : Nat} {rest : List GoalId}
    (hm : search.Valid ⟨run, .idle⟩) (hgs : ∀ k ∈ g :: rest, run.tree.HasGoal k) :
    Takes search ⟨run, .idle⟩ (search.prefixStep limit applied g rest) run fun next run' =>
      ∀ a gs, next = some (a, gs) → ∀ k ∈ gs, run'.tree.HasGoal k := by
  have hrest : ∀ k ∈ rest, run.tree.HasGoal k := fun k hk => hgs k (List.mem_cons_of_mem g hk)
  have hnext {t : Tree} {b : Nat} {ks : List GoalId} (hks : ∀ k ∈ ks, t.HasGoal k) (a : Nat)
      (gs : List GoalId) (he : some (b, ks) = some (a, gs)) : ∀ k ∈ gs, t.HasGoal k := by
    cases he
    exact hks
  -- a goal that no rule was tried on is normalized and given to the safe rules
  have hvisit {s : Expansion} (hfresh : (run.tree.goal g).wasExpanded = false)
      (hs : ExpansionSteps search false g ⟨run, .entered⟩ s) :
      SearchSteps search ⟨run, .idle⟩ ⟨s.run, .expanding false g s.stage⟩ :=
    .head (.visit (hgs g List.mem_cons_self) hfresh) hs.searchSteps
  cases hrun : (search.prefixStep limit applied g rest).run.run run with
  | mk result run' =>
    cases prefixStep_outcome hrun with
    | skip => exact takes_of_ends hrun .refl (hnext hrest)
    | descend safe =>
      refine takes_of_ends hrun .refl (hnext fun k hk => ?_)
      rcases List.mem_append.1 hk with hk | hk
      · exact (hm.stocked.linked.index_lt_of_mem_subgoalIds (List.mem_of_find?_eq_some safe) hk).1
      · exact hrest k hk
    | full => exact takes_of_ends hrun .refl nofun
    | leave fresh steps ended =>
      have hs := hvisit fresh steps
      refine takes_of_ends hrun (hs.tail (.leave ?_ (.refl _))) (hnext fun k hk => ?_)
      · exact ended.imp (fun h => ExpansionStage.isDone_iff.2 ⟨_, h⟩) fun h => ⟨rfl, h⟩
      · exact SearchSteps.hasGoal hs hm (hrest k hk)
    | grow fresh allowed steps ended next added =>
      have hs := (hvisit fresh steps).tail
        (.leave (.inl (ExpansionStage.isDone_iff.2 ⟨_, ended⟩)) next)
      refine takes_of_ends hrun hs (hnext fun k hk => ?_)
      rcases List.mem_append.1 hk with hk | hk
      · have hlinked : run'.tree.Linked := (SearchSteps.valid hs hm).stocked.linked
        subst added
        cases hlast : (run'.tree.goal g).applications.getLast? with
        | none =>
          rw [hlast] at hk
          cases hk
        | some r =>
          rw [hlast] at hk
          exact (hlinked.index_lt_of_mem_subgoalIds (List.mem_of_getLast? hlast) hk).1
      · exact SearchSteps.hasGoal hs hm (hrest k hk)
    | fail fresh steps fault => exact takes_of_error hrun (hvisit fresh steps) fault.tree_eq.symm

theorem continues_expandPrefix {limit n n' applied : Nat} {gs : List GoalId} (hn : n ≤ n')
    (hm : search.Valid ⟨run, .idle⟩) (hgs : ∀ g ∈ gs, run.tree.HasGoal g) :
    Continues search ⟨run, .idle⟩ (search.expandPrefix limit n applied gs)
      (search.expandPrefix limit n' applied gs) run fun _ _ => True := by
  induction n' generalizing n run applied gs with
  | zero =>
    obtain rfl := Nat.le_zero.1 hn
    cases gs with
    | nil => exact takes_pure .refl trivial
    | cons g rest => exact takes_of_error rfl .refl rfl
  | succ n' ih =>
    cases gs with
    | nil =>
      rw [expandPrefix, expandPrefix]
      exact takes_pure .refl trivial
    | cons g rest =>
      -- both make a step, unless the first one is cut off before
      have hstep {k : Nat} (hk : k ≤ n') : Continues search ⟨run, .idle⟩
          (search.expandPrefix limit (k + 1) applied (g :: rest))
          (search.expandPrefix limit (n' + 1) applied (g :: rest)) run fun _ _ => True := by
        rw [expandPrefix_cons, expandPrefix_cons]
        refine continues_bind (takes_prefixStep hm hgs) fun next run' hs _ hnext => ?_
        cases next with
        | none => exact takes_pure .refl trivial
        | some next => exact ih hk (SearchSteps.valid hs hm) (hnext next.1 next.2 rfl)
      cases n with
      | zero => exact continues_throw (hstep le_rfl).takes rfl
      | succ n => exact hstep (Nat.le_of_succ_le_succ hn)

/-! ## Searches -/

/-- Putting a result together leaves the tree as it is, even if it fails. -/
theorem tree_onSolverM_bind {α : Type} (x : SolverM SearchError α)
    (f : α → Run → SearchResult) (run : Run) :
    ((do let a ← onSolverM x; return f a (← get) : SearchM SearchResult).run.run run).2.tree =
      run.tree := by
  rw [run_bind]
  cases hx : x.run.run run.solver with
  | mk result s =>
    rw [run_onSolverM hx]
    cases result <;> rfl

/-- Expands the safe prefix by at most `m` steps. -/
def expandPrefixSteps (search : Search) (m : Nat) : SearchM Unit :=
  match search.options.maxSafePrefixRuleApplications with
  | 0 => return
  | limit => search.expandPrefix limit m 0 [Tree.root]

/-- What is done to the tree after the loop, by at most `m` steps. -/
def followUp (search : Search) (m : Nat) : Option FailureReason → SearchM Unit
  | none => return
  | some _ => if search.options.terminal then return else search.expandPrefixSteps m

/-- After the loop only the expansion of the safe prefix changes the tree. -/
theorem tree_finish (verdict : Option FailureReason) (run : Run) :
    ((search.finish verdict).run.run run).2.tree =
      ((search.followUp search.fuel verdict).run.run run).2.tree := by
  cases verdict with
  | none =>
    rw [finish, run_getTree_bind]
    exact tree_onSolverM_bind _ (fun proof run => .proved proof (finalStats run)) run
  | some reason =>
    have hget (f : Run → SearchM SearchResult) :
        (get >>= f).run.run run = (f run).run.run run := rfl
    rw [finish, hget, followUp]
    split
    · rfl
    · change ((search.expandSafePrefix >>= _).run.run run).2.tree =
        (search.expandSafePrefix.run.run run).2.tree
      rw [run_bind]
      cases search.expandSafePrefix.run.run run with
      | mk res u =>
        cases res with
        | error e => rfl
        | ok a =>
          dsimp only
          rw [run_getTree_bind]
          exact tree_onSolverM_bind _ (fun safePrefix run' =>
            .failed safePrefix reason (reason.message search.options run.stats)
              (finalStats run')) u

/-- The part of a search that changes the tree, with at most `n` passes of the loop and `m` steps of
expanding the safe prefix. -/
def advance (search : Search) (n m : Nat) : SearchM Unit := do
  search.followUp m (← search.loop search.loopBudget.2 n)

/-- The tree between two passes of the loop, between two steps of expanding the safe prefix, or
where these end. -/
def treeAfter (search : Search) (first : Run) (n m : Nat) : Tree :=
  ((search.advance n m).run.run first).2.tree

theorem continues_expandPrefixSteps {n n' : Nat} (hn : n ≤ n') (hm : search.Valid ⟨run, .idle⟩) :
    Continues search ⟨run, .idle⟩ (search.expandPrefixSteps n) (search.expandPrefixSteps n') run
      fun _ _ => True := by
  unfold expandPrefixSteps
  split
  · exact takes_pure .refl trivial
  · refine continues_expandPrefix hn hm fun g hg => ?_
    rw [List.mem_singleton.1 hg]
    exact hm.stocked.linked.root

theorem continues_followUp {n n' : Nat} (hn : n ≤ n') (hm : search.Valid ⟨run, .idle⟩)
    (verdict : Option FailureReason) : Continues search ⟨run, .idle⟩ (search.followUp n verdict)
      (search.followUp n' verdict) run fun _ _ => True := by
  cases verdict with
  | none => exact takes_pure .refl trivial
  | some reason =>
    rw [followUp, followUp]
    split
    · exact takes_pure .refl trivial
    · exact continues_expandPrefixSteps hn hm

theorem continues_advance {n n' m m' : Nat} (hn : n ≤ n') (hm : m ≤ m')
    (hv : search.Valid ⟨run, .idle⟩) :
    Continues search ⟨run, .idle⟩ (search.advance n m) (search.advance n' m') run
      fun _ _ => True :=
  continues_bind (continues_loop hn hv) fun verdict _ hs _ _ =>
    continues_followUp hm (SearchSteps.valid hs hv) verdict

/-- The tree with which a search ends. -/
theorem tree_runAll (search : Search) (first : Run) : (search.runAll.run.run first).2.tree =
    search.treeAfter first search.loopBudget.1 search.fuel := by
  rw [treeAfter, advance, runAll_eq, run_bind, run_bind]
  cases (search.loop search.loopBudget.2 search.loopBudget.1).run.run first with
  | mk res u =>
    cases res with
    | error e => rfl
    | ok verdict => exact tree_finish verdict u

/-- Later trees are reached from earlier ones by steps. -/
theorem exists_steps_treeAfter {n n' i i' : Nat} (hn : n ≤ n') (hi : i ≤ i')
    (hv : search.Valid ⟨run, .idle⟩) : ∃ m m', SearchSteps search ⟨run, .idle⟩ m ∧
      m.run.tree = search.treeAfter run n i ∧ SearchSteps search m m' ∧
      m'.run.tree = search.treeAfter run n' i' := by
  obtain ⟨m₁, m₂, h₁, ht₁, h₂, ht₂, -⟩ := continues_advance hn hi hv
  exact ⟨m₁, m₂, h₁, ht₁, h₂, ht₂⟩

end Search

end ProofSearch
