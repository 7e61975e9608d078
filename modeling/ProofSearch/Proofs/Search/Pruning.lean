import ProofSearch.Proofs.AndOr.Pruning
import ProofSearch.Proofs.Search.Progress

/-!
# Searches leave nothing alive below a decided node

Between two passes of a search everything below a marked node is marked, and no goal is active below
a node that is decided or marked.

1. `Trimmed`: the tree is closed, and the goal that is being expanded is not marked before it is
   decided.
2. `Trimmed.moves`, `Trimmed.outcome`: expanding a goal keeps the tree closed.
3. `pruned`: all states that a search passes through are closed.
-/

namespace ProofSearch

namespace Search

variable {search : Search}

/-- A closed tree in which the goal `g` is not marked before it is decided. -/
structure Trimmed (g : GoalId) (t : Tree) : Prop where
  closed : t.Closed Tree.nowhere
  unmarked : (t.goal g).state = .unknown → (t.goal g).irrelevant = false

section

variable {t t' : Tree} {g : GoalId}

/-- Data of the goal other than its applications, its state and its mark may change. -/
theorem Trimmed.modifyGoal (h : Trimmed g t) {f : Goal → Goal}
    (hhome : ∀ a, (f a).cluster = a.cluster) (happs : ∀ a, (f a).applications = a.applications)
    (hstate : ∀ a, (f a).state = a.state) (hmark : ∀ a, (f a).irrelevant = a.irrelevant) :
    Trimmed g (t.modifyGoal g f) := by
  refine ⟨h.closed.modifyGoal hhome happs hstate hmark, ?_⟩
  rw [Tree.goal_modifyGoal]
  split
  · rw [hstate, hmark]
    exact h.unmarked
  · exact h.unmarked

theorem Trimmed.addApplication (h : Trimmed g t) (hl : t.Linked) {x : Var} {state : Snapshot}
    (hr : Ready search t g x state) {new : NewApplication} {added : AddedApplication}
    {s s' : Solver} (hp : new.parent = g) (hadd : Ends (t.addApplication new) s (added, t') s') :
    Trimmed g t' := by
  subst hp
  obtain ⟨hclosed, hmark⟩ := h.closed.addApplication hl hadd hr.has
    (by simp [Tree.Over, hr.unknown, h.unmarked hr.unknown])
  exact ⟨hclosed, hmark⟩

theorem Trimmed.move {run run' : Run} (h : Trimmed g run.tree) (hl : run.tree.Linked)
    (hm : Move search g run run') : Trimmed g run'.tree := by
  cases hm with
  | solve ht =>
    rw [ht]
    exact h
  | note hf ht _ =>
    rw [ht]
    exact h.modifyGoal (fun a => by rw [hf]) (fun a => by rw [hf]) (fun a => by rw [hf])
      fun a => by rw [hf]
  | normalize _ ht _ | postpone _ _ ht _ | select _ _ ht _ | take _ _ ht _ =>
    rw [ht]
    exact h.modifyGoal (fun _ => rfl) (fun _ => rfl) (fun _ => rfl) fun _ => rfl
  | attach hr hp hadd ht _ =>
    rw [ht]
    exact h.addApplication hl hr hp hadd

theorem Trimmed.moves {run run' : Run} (h : Trimmed g run.tree)
    (hs : Steady search (· = g) run.tree run.queue) (hg : run.tree.HasGoal g)
    (hm : Moves search g run run') : Trimmed g run'.tree := by
  induction hm with
  | refl => exact h
  | tail hmoves hmove ih => exact ih.move (hs.moves hg hmoves).1.linked hmove

theorem Trimmed.outcome {run run' : Run} (h : Trimmed g run.tree)
    (hs : Steady search (· = g) run.tree run.queue) (hg : run.tree.HasGoal g)
    (ho : Outcome search g run run') : run'.tree.Closed Tree.nowhere := by
  have horderly := hs.orderly g hg
  cases ho with
  | giveUp hu hd ht _ =>
    -- a goal that lies too deep has no applications yet
    have happs : (run.tree.goal g).applications = [] := by
      by_contra hne
      exact nomatch hd.symm.trans (horderly.shallow hne)
    rw [ht]
    exact h.closed.markForcedUnprovable hs.linked hg happs
  | @close post branch hu hf hn ht _ =>
    have hlinks := Tree.sameLinks_modifyGoal run.tree g
      (f := fun goal => { goal with branch := branch, norm := .proven post }) (fun _ => rfl)
      fun _ => rfl
    have hclosed : (run.tree.modifyGoal g fun goal =>
        { goal with branch := branch, norm := .proven post }).Closed Tree.nowhere :=
      h.closed.modifyGoal (fun _ => rfl) (fun _ => rfl) (fun _ => rfl) fun _ => rfl
    rw [ht]
    refine hclosed.markProvenByNorm (hlinks.linked hs.linked) (hlinks.hasGoal.2 hg) fun r hr => ?_
    rw [hlinks.applications, (horderly.fresh hn).1] at hr
    cases hr
  | commit hr hp hadd ht _ =>
    rw [ht]
    exact ((h.addApplication hs.linked hr hp hadd).modifyGoal (f := Goal.withoutRules) (fun _ => rfl)
      (fun _ => rfl) (fun _ => rfl) fun _ => rfl).closed
  | check _ ht _ =>
    rw [ht]
    exact h.closed.checkExhausted hs.linked hg

end

/-- A pass of the loop keeps the tree closed. -/
theorem Steady.closed_pass {run mid run' : Run} {g : GoalId}
    (hs : Steady search Tree.nowhere run.tree run.queue) (hc : run.tree.Closed Tree.nowhere)
    (hn : Ends nextActiveGoal? run (some g) mid)
    (he : Ends (search.expandGoal g) (countIteration mid) () run') :
    run'.tree.Closed Tree.nowhere := by
  obtain ⟨ha, hg, htree, hfocus, last, hm, ho⟩ := hs.pass_moves hn he
  have hnot := Tree.not_over_of_isActive ha
  have htrim : Trimmed g (countIteration mid).tree := by
    show Trimmed g mid.tree
    rw [htree]
    exact ⟨hc, fun _ => by simpa using fun hm => hnot (.inr hm)⟩
  have hg : (countIteration mid).tree.HasGoal g := htree ▸ hg
  have hfocus : Steady search (· = g) (countIteration mid).tree (countIteration mid).queue := hfocus
  obtain ⟨hlast, hg'⟩ := hfocus.moves hg hm
  exact (htrim.moves hfocus hg hm).outcome hlast hg' ho

theorem Reached.closed {first run : Run} (h : Reached search first run)
    (hs : Steady search Tree.nowhere first.tree first.queue)
    (hc : first.tree.Closed Tree.nowhere) : run.tree.Closed Tree.nowhere := by
  induction h with
  | first => exact hc
  | pass hr _ hn he ih => exact (hr.steady hs).closed_pass ih hn he

/-- At every pass of a search marks are closed downwards, every node above an active goal is
undecided and unmarked, and so is every node above the goal that is expanded next.  Once the root is
decided no goal is active. -/
theorem pruned (search : Search) {s : Solver} {goal : Var} {vars : VarSet} {run : Run}
    (h : Reached search (search.start s (.ofGoal goal vars s.state)) run) :
    (∀ n, ∀ k ∈ run.tree.children n, run.tree.Marked n → run.tree.Marked k) ∧
      (∀ g, run.tree.HasGoal g → run.tree.isActive g = true →
        ∀ n, run.tree.Above n (.goal g) → ¬ run.tree.Over n) ∧
      (∀ g mid, Ends nextActiveGoal? run (some g) mid →
        run.tree.HasGoal g ∧ ∀ n, n = .goal g ∨ run.tree.Above n (.goal g) → ¬ run.tree.Over n) ∧
      ((run.tree.goal Tree.root).state ≠ .unknown →
        ∀ g, run.tree.HasGoal g → run.tree.isActive g = false) := by
  have hsteady := h.steady (steady_start s goal vars)
  have hclosed := h.closed (steady_start s goal vars) (Tree.closed_ofGoal goal vars s.state)
  have habove {g : GoalId} (hg : run.tree.HasGoal g) (ha : run.tree.isActive g = true) (n : Node)
      (hn : run.tree.Above n (.goal g)) : ¬ run.tree.Over n :=
    hclosed.not_over hsteady.linked (k := .goal g) hg hn (Tree.not_over_of_isActive ha)
  refine ⟨fun n k hk hn => (hclosed.marked n k hk hn).resolve_right id, fun g hg ha => habove hg ha,
    fun g mid hn => ?_, fun hd g hg => ?_⟩
  · obtain ⟨rest, hfirst, -⟩ := ends_nextActiveGoal?.1 hn
    obtain ⟨ha, ⟨e, he, rfl⟩, -⟩ := firstActive?_some hfirst
    have hg := hsteady.entries e he
    refine ⟨hg, fun n hn => ?_⟩
    rcases hn with rfl | hn
    · exact Tree.not_over_of_isActive ha
    · exact habove hg ha n hn
  · by_contra ha
    exact hd (hclosed.root_unknown hsteady.linked hg (by simpa using ha))

/-- A search that splits `C` into `A` and `B` and then finds that `C` holds at once. -/
def retrying : Search where
  rules := (RuleSet.ofList [
    ⟨"split", .tentative .ninety, [],
      Clause.procedure ⟨"split", [], [.const "A", .const "B"], .const "C"⟩⟩,
    ⟨"done", .tentative .fifty, [], Clause.procedure ⟨"done", [], [], .const "C"⟩⟩]).query
  simplifier := .none
  options := { strategy := .depthFirst }
  fuel := 10

/-- The second application decides the root; the first one is given up with all that is below it. -/
theorem pruned_retrying : ∃ run, Reached retrying (retrying.start
      ((Solver.mkGoal (.const "C") []).run .empty).2 (.ofGoal ⟨1⟩ ∅
        ((Solver.mkGoal (.const "C") []).run .empty).2.state)) run ∧
    run.tree.goals.size = 3 ∧ run.tree.Marked (.application ⟨0⟩) ∧
    (∀ k ∈ run.tree.children (.application ⟨0⟩), run.tree.Marked k) ∧
    ∀ g, run.tree.HasGoal g → run.tree.isActive g = false := by
  obtain ⟨s, hs⟩ : ∃ s : Solver, s = ((Solver.mkGoal (.const "C") []).run .empty).2 := ⟨_, rfl⟩
  rw [← hs]
  obtain ⟨verdict, run, hloop, htest⟩ := exists_ends (x := retrying.loop .outOfFuel 10)
    (s := retrying.start s (.ofGoal ⟨1⟩ ∅ s.state))
    (fun verdict run => decide (verdict = none ∧ run.tree.goals.size = 3 ∧
      (run.tree.application ⟨0⟩).irrelevant = true ∧
      (run.tree.goal Tree.root).state ≠ .unknown)) (by
      rw [hs]
      decide +kernel)
  obtain ⟨rfl, hsize, hmark, hroot⟩ := of_decide_eq_true htest
  obtain ⟨last, hreach, ⟨-, rfl⟩ | ⟨-, hv, -⟩⟩ := Reached.first.loop hloop
  · obtain ⟨hdown, -, -, hdone⟩ := pruned retrying hreach
    exact ⟨_, hreach, hsize, hmark, fun k hk => hdown _ k hk hmark, hdone hroot⟩
  · cases hv

end Search

end ProofSearch
