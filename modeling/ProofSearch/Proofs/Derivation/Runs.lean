import ProofSearch.Proofs.Derivation.Recorded
import ProofSearch.Proofs.Search.CoarseSteps

/-!
# Searches keep to the ledger

1. `Kept`: the ledger is up to date with a run, and fits its tree.
2. `CandidateKept`, `Rule.Obeys.candidates`: what a rule that obeys makes of a goal.
3. `NormKept`, `SceneKept`: the ledger fits the work in hand as well.
4. `Step.kept`, `Steps.kept`: after each step of a search a longer ledger fits.
5. `Reached.kept`: a ledger that only grows fits every state that a search can reach.
-/

namespace ProofSearch

open Solver

variable {P : Problem} {L L' : Ledger}

/-! ## Running rules -/

/-- The ledger is up to date with a run, and fits its tree. -/
structure Kept (P : Problem) (L : Ledger) (run : Run) : Prop where
  last : L.last = run.solver.lastId
  tree : Recorded P L run.tree

theorem Kept.normal {run : Run} {g : GoalId} {x : Var} {state : Snapshot} (hk : Kept P L run)
    (hx : (run.tree.goal g).norm = .normal x state) : P.Own x ∧ Conforms P L state.context :=
  ⟨(hk.tree.goal g).var x (by rw [Goal.normVar?, hx]),
    (hk.tree.goal g).post state (by rw [Goal.normPost?, hx])⟩

/-- The candidate for the goal `x`, made from the state `pre`, is in order. -/
structure CandidateKept (P : Problem) (L : Ledger) (pre : Snapshot) (x : Var) (c : Candidate) :
    Prop where
  post : Conforms P L c.post.context
  keeps : ∀ y, pre.context.isAssigned y = true → c.post.context.isAssigned y = true
  goal : c.post.context.isAssigned x = true
  goals : ∀ y ∈ c.goals, P.Own y ∧ c.post.context.isDeclared y = true ∧ y ≠ x
  assigned : ∀ y ∈ c.assigned, P.Own y ∧ c.post.context.isAssigned y = true

theorem CandidateKept.grow {pre : Snapshot} {x : Var} {c : Candidate}
    (h : CandidateKept P L pre x c) (hL : L.Grows L') : CandidateKept P L' pre x c :=
  { h with post := h.post.grow hL }

/-- What a rule assigns belongs to the search. -/
theorem Later.own_of_assignedSince {m n : Context} (h : Later P L m L' n) {x : Var}
    (hx : x ∈ n.assignedSince m) : P.Own x := by
  by_contra ho
  obtain ⟨-, hm, hn⟩ := Context.mem_assignedSince.1 hx
  rw [Context.isAssigned, h.others x ho] at hn
  rw [Context.isAssigned, hn] at hm
  cases hm

theorem candidateKept_check {p : Proposal} {rule : String} {pre : Snapshot} {b : Bool} {x : Var}
    {c : Candidate} (hprop : Proposes P L pre.context L' x p) (h : p.check rule pre b = .ok c) :
    CandidateKept P L' pre x c := by
  obtain ⟨hpost, hgoals, hassigned, -⟩ := Proposal.check_eq_ok h
  refine ⟨hpost ▸ hprop.advance.conforms, fun y hy => hpost ▸ hprop.advance.isAssigned hy,
    hpost ▸ hprop.goal, fun y hy => ?_, fun y hy => ?_⟩
  · rw [hgoals] at hy
    obtain ⟨hy, hopen⟩ := List.mem_filter.1 hy
    obtain ⟨hown, hdeclared⟩ := hprop.goals y hy
    refine ⟨hown, hpost ▸ hdeclared, fun hyx => ?_⟩
    rw [hyx, hprop.goal] at hopen
    cases hopen
  · rw [hassigned] at hy
    exact ⟨hprop.advance.own_of_assignedSince hy, hpost ▸ (Context.mem_assignedSince.1 hy).2.2⟩

/-- A called rule returns to the state it was called from and uses up numbers. -/
theorem Rule.Obeys.call {r : Rule} (hr : r.Obeys P) {s : Solver} {pre : Snapshot}
    {input : RuleInput} (hlast : L.last = s.lastId) (hpre : Conforms P L pre.context)
    (ho : P.Own input.goal) : ∃ L', L.Grows L' ∧ L'.last = ((r.call input pre).run s).2.lastId ∧
      ∀ out, ((r.call input pre).run s).1 = .ok out → ∀ p ∈ out.proposals,
        Proposes P L pre.context L' input.goal p := by
  have hrun : (r.call input pre).run s =
      (((r.procedure input).run.run { s with state := pre }).1,
        { ((r.procedure input).run.run { s with state := pre }).2 with state := pre }) := rfl
  rw [hrun]
  cases hx : (r.procedure input).run.run { s with state := pre } with
  | mk res u =>
    cases res with
    | error e =>
      have hage := hr.ages input { s with state := pre }
      rw [hx] at hage
      exact ⟨{ L with last := u.lastId }, ⟨hlast.trans_le hage, fun _ _ => rfl⟩, rfl, nofun⟩
    | ok out =>
      obtain ⟨L', hL, hlast', hall⟩ := hr.proposes L { s with state := pre } input out u
        ⟨hlast, hpre⟩ ho hx
      refine ⟨L', hL, hlast', fun out' hout => ?_⟩
      cases hout
      exact hall

/-- The candidates that a rule makes in a conforming state. -/
theorem Rule.Obeys.candidates {r : Rule} (hr : r.Obeys P) {s : Solver} {pre : Snapshot}
    {input : RuleInput} {effects : Bool} {candidates : List Candidate} {value? : Option BranchValue}
    (hlast : L.last = s.lastId) (hpre : Conforms P L pre.context) (ho : P.Own input.goal)
    (h : r.examine pre effects ((r.call input pre).run s).1 = .ok (.applied candidates value?)) :
    ∃ L', L.Grows L' ∧ L'.last = ((r.call input pre).run s).2.lastId ∧
      ∀ c ∈ candidates, CandidateKept P L' pre input.goal c := by
  obtain ⟨L', hL, hlast', hall⟩ := hr.call hlast hpre ho
  obtain ⟨out, hout, -, hchecks⟩ := Rule.examine_applied h
  refine ⟨L', hL, hlast', fun c hc => ?_⟩
  obtain ⟨i, hi, rfl⟩ := List.mem_iff_getElem.1 hc
  exact candidateKept_check (hall out hout _ (List.get_mem ..))
    (hchecks.get (hchecks.length_eq ▸ hi) hi)

/-! ## The work in hand -/

/-- The goal `g` is being normalized, and `rest` is left of it.  It is assigned, or nothing has
happened yet. -/
structure NormKept (P : Problem) (L : Ledger) (run : Run) (g : GoalId) (rest : Option Var) :
    Prop where
  has : run.tree.HasGoal g
  conforms : Conforms P L run.solver.context
  declared : run.solver.context.isDeclared (run.tree.goal g).var = true
  own : ∀ x, rest = some x → P.Own x
  closed : rest = some (run.tree.goal g).var ∨
    run.solver.context.isAssigned (run.tree.goal g).var = true

/-- The ledger fits the work in hand. -/
def Focus.Kept (P : Problem) (L : Ledger) (run : Run) : Focus → Prop
  | .idle => True
  | .norm g rest => NormKept P L run g rest
  | .offers g cs => ∃ x state, (run.tree.goal g).norm = .normal x state ∧
      ∀ c ∈ cs, CandidateKept P L state x c

/-- The ledger fits a search in progress. -/
structure SceneKept (P : Problem) (L : Ledger) (sc : Scene) : Prop where
  kept : Kept P L sc.run
  focus : sc.focus.Kept P L sc.run

section

variable {run run' : Run} {g : GoalId}

theorem Focus.Kept.wait {focus : Focus} (h : focus.Kept P L run) (hL : L.Grows L')
    (tree : run'.tree = run.tree) (state : run'.solver.state = run.solver.state) :
    focus.Kept P L' run' := by
  have hcontext : run'.solver.context = run.solver.context := congrArg (·.context) state
  cases focus with
  | idle => trivial
  | norm g rest =>
    obtain ⟨has, conforms, declared, own, closed⟩ := h
    rw [← tree, ← hcontext] at declared closed
    exact ⟨tree ▸ has, hcontext ▸ conforms.grow hL, declared, own, closed⟩
  | offers g cs =>
    obtain ⟨x, pre, hx, hall⟩ := h
    exact ⟨x, pre, tree ▸ hx, fun c hc => (hall c hc).grow hL⟩

/-- A norm rule replaces or closes what is left of a goal. -/
theorem NormKept.rewrite {r : Rule} {input : RuleInput} {effects : Bool}
    {candidates : List Candidate} {value? : Option BranchValue} {c : Candidate}
    (h : NormKept P L run g (some input.goal)) (hk : Kept P L run) (hr : r.Obeys P)
    (applied : r.examine run.solver.state effects
      ((r.call input run.solver.state).run run.solver).1 = .ok (.applied candidates value?))
    (check : r.checkNorm (run.tree.goal g).vars candidates = .ok c) (tree : run'.tree = run.tree)
    (solver : run'.solver =
      { ((r.call input run.solver.state).run run.solver).2 with state := c.post }) :
    ∃ L', L.Grows L' ∧ L'.last = run'.solver.lastId ∧ NormKept P L' run' g c.goals.head? := by
  obtain ⟨L', hL, hlast, hall⟩ := hr.candidates hk.last h.conforms (h.own _ rfl) applied
  have hc := hall c ((Rule.checkNorm_eq_ok check).1 ▸ List.mem_singleton_self c)
  have hcontext : run'.solver.context = c.post.context := by
    rw [solver]
    rfl
  -- The first goal is the one that the rule was given, or it was assigned before.
  have hassigned : run'.solver.context.isAssigned (run'.tree.goal g).var = true := by
    rw [hcontext, tree]
    rcases h.closed with hx | ha
    · exact Option.some.inj hx ▸ hc.goal
    · exact hc.keeps _ ha
  exact ⟨L', hL, by rw [solver]; exact hlast, tree ▸ h.has, hcontext ▸ hc.post,
    Context.isDeclared_of_isAssigned hassigned,
    fun x hx => (hc.goals x (List.mem_of_mem_head? hx)).1, .inr hassigned⟩

/-- The result of a normalization is in order. -/
theorem NormKept.goalKept {rest : Option Var} (h : NormKept P L run g rest)
    (branch : BranchState) : GoalKept P L
      { run.tree.goal g with branch, norm := .ofRest run.solver.state rest } := by
  cases rest with
  | none =>
    exact ⟨fun post hp => by cases hp; exact h.conforms, nofun,
      fun post hp => by cases hp; exact h.closed.resolve_left nofun, nofun⟩
  | some x =>
    refine ⟨fun post hp => by cases hp; exact h.conforms,
      fun x hx => by cases hx; exact h.own x rfl, nofun, fun x post hx => ?_⟩
    cases hx
    exact ⟨h.declared, h.closed.imp_left fun hx => (Option.some.inj hx).symm⟩

/-- The result of a normalization is recorded. -/
theorem Recorded.recordNorm {t : Tree} {branch : BranchState} {norm : NormState}
    (h : Recorded P L t) (hnot : (t.goal g).norm = .notNormal) (hnorm : norm ≠ .notNormal)
    (hkept : GoalKept P L { t.goal g with branch, norm }) :
    Recorded P L (t.recordNorm g branch norm) := by
  have hlinks : t.SameLinks (t.recordNorm g branch norm) := Tree.sameLinks_recordNorm ..
  have hvar (k : GoalId) : ((t.recordNorm g branch norm).goal k).var = (t.goal k).var := by
    obtain ⟨_, _, hk⟩ := t.exists_goal_recordNorm g k branch norm
    rw [hk]
  refine ⟨h.root, hlinks.hasGoal.2 h.hasRoot, (hvar _).trans h.rootVar, fun k => ?_,
    fun k hk => ?_, fun k hk => ?_, fun k hk => ?_, h.post, fun k x hx r hr => ?_, h.assigned⟩
  · rw [Tree.goal_recordNorm]
    split
    · next hk => exact hk.1 ▸ hkept
    · exact h.goal k
  · rw [hvar]
    exact h.own k (hlinks.hasGoal.1 hk)
  · rw [Tree.preState_recordNorm, hvar]
    exact h.declared k (hlinks.hasGoal.1 hk)
  · rw [Tree.goal_recordNorm] at hk ⊢
    split at hk
    · exact absurd hk hnorm
    · next hkg =>
      rw [if_neg hkg]
      exact h.fresh k hk
  · rw [Tree.goal_recordNorm] at hx hr
    split at hx
    · next hkg =>
      rw [if_pos hkg] at hr
      have hnone := h.fresh g hnot
      rw [← hkg.1] at hnone
      exact nomatch hnone ▸ hr
    · next hkg =>
      rw [if_neg hkg] at hr
      exact h.applied k x hx r hr

end

/-! ## Steps -/

namespace Search

/-- All rules of the search obey, and there is no simplifier. -/
structure Lawful (P : Problem) (search : Search) : Prop where
  simplifier : search.simplifier = .none
  obeys : ∀ r, search.Knows r → r.Obeys P

theorem Lawful.regular {search : Search} (h : search.Lawful P) : search.Regular :=
  ⟨h.simplifier, fun r hr => (h.obeys r hr).ages⟩

variable {search : Search} {sc sc' : Scene}

/-- After a step a longer ledger fits. -/
theorem Step.kept (h : Step search sc sc') (hlaw : search.Lawful P) (hl : sc.run.tree.Linked)
    (hk : SceneKept P L sc) : ∃ L', L.Grows L' ∧ SceneKept P L' sc' := by
  have hlonger {run : Run} (hk : Kept P L run) {last : Nat} (hle : run.solver.lastId ≤ last) :
      L.Grows { L with last } := ⟨hk.last.trans_le hle, fun _ _ => rfl⟩
  obtain ⟨hk, hfocus⟩ := hk
  cases h with
  | note tree last =>
    have hL := hlonger hk last
    exact ⟨_, hL, ⟨rfl, (hk.tree.grow hL).noted tree⟩, trivial⟩
  | wait tree state last =>
    have hL := hlonger hk last
    exact ⟨_, hL, ⟨rfl, tree ▸ hk.tree.grow hL⟩, hfocus.wait hL tree state⟩
  | @begin run run' focus g has norm tree queue state last =>
    have hcontext : run'.solver.context = (run.tree.preState g).context :=
      congrArg (·.context) state
    refine ⟨L, .refl L, ⟨hk.last.trans last.symm, tree ▸ hk.tree⟩, ?_⟩
    refine ⟨tree ▸ has, hcontext ▸ hk.tree.preState g, ?_, fun x hx => ?_, .inl (by rw [tree])⟩
    · rw [hcontext, tree]
      exact hk.tree.declared g has
    · exact Option.some.inj hx ▸ hk.tree.own g has
  | rewrite knows applied check tree queue solver =>
    obtain ⟨L', hL, hlast, hnorm⟩ :=
      NormKept.rewrite hfocus hk (hlaw.obeys _ knows) applied check tree solver
    exact ⟨L', hL, ⟨hlast, tree ▸ hk.tree.grow hL⟩, hnorm⟩
  | @normal run run' g rest branch norm tree queue solver =>
    have hne : NormState.ofRest run.solver.state rest ≠ .notNormal := by
      cases rest <;> exact nofun
    exact ⟨L, .refl L, ⟨solver ▸ hk.last,
      tree ▸ hk.tree.recordNorm norm hne (NormKept.goalKept hfocus branch)⟩, trivial⟩
  | offer norm knows applied tree queue solver =>
    obtain ⟨hown, hconf⟩ := hk.normal norm
    obtain ⟨L', hL, hlast, hall⟩ := (hlaw.obeys _ knows).candidates hk.last hconf hown applied
    exact ⟨L', hL, ⟨solver ▸ hlast, tree ▸ hk.tree.grow hL⟩, _, _, tree ▸ norm, hall⟩
  | @attach run g x state c rest rule kind probability value? added tree solver norm eager ends =>
    obtain ⟨y, pre, hy, hall⟩ := hfocus
    have hc := hall c List.mem_cons_self
    obtain ⟨L', hL, hlast, hrec⟩ := hk.tree.addApplication (x := y) hl
      ⟨hc.post, hc.goal, fun z hz => (hc.goals z hz).1, hc.assigned⟩
      (by rw [Goal.normVar?, show (attachment ..).parent = g from rfl, hy]) hk.last
      (Tree.hasGoal_of_normal norm) ends
    refine ⟨L', hL, ⟨hlast, hrec⟩, y, pre, ?_, fun c' hc' => ?_⟩
    · exact (Step.attach norm eager ends : Step search ⟨_, .offers _ _⟩ _).norm_eq hy
    · exact (hall c' (List.mem_cons_of_mem c hc')).grow hL

/-- Searches keep to the ledger. -/
theorem Steps.kept (h : Steps search sc sc') (hlaw : search.Lawful P)
    (hs : search.Stocked sc.run) (hk : SceneKept P L sc) :
    ∃ L', L.Grows L' ∧ SceneKept P L' sc' := by
  induction h with
  | refl => exact ⟨L, .refl L, hk⟩
  | tail hsteps hstep ih =>
    obtain ⟨L₁, hL₁, hk₁⟩ := ih
    obtain ⟨L₂, hL₂, hk₂⟩ := hstep.kept hlaw (Steps.stocked hsteps hs).linked hk₁
    exact ⟨L₂, hL₁.trans hL₂, hk₂⟩

/-- A ledger that only grows fits every state that a search can reach. -/
theorem Reached.kept {first run : Run} (h : Reached search first run) (hlaw : search.Lawful P)
    (hv : search.Valid ⟨first, .idle⟩) (hk : Kept P L first) :
    ∃ L', L.Grows L' ∧ Kept P L' run := by
  have hsteps : Steps search ⟨first, .idle⟩ ⟨run, .idle⟩ :=
    SearchSteps.steps (h.steps hv) hlaw.regular hv
  obtain ⟨L', hL, hk'⟩ := Steps.kept hsteps hlaw hv.stocked ⟨hk, trivial⟩
  exact ⟨L', hL, hk'.kept⟩

end Search

end ProofSearch
