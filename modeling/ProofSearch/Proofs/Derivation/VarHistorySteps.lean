import ProofSearch.Proofs.Derivation.Copies
import ProofSearch.Proofs.Derivation.Soundness
import ProofSearch.Proofs.Derivation.VarHistory

/-!
# Searches keep the history of their variables

1. `CandidateAdds`: what a candidate adds to the state it was made in.
2. `Rewritten.step`: a norm rule takes a normalization one step further.
3. `Carried.candidate`: a candidate becomes an application, with copies of the siblings that depend
   on what it assigned.
4. `SceneHistory`: the invariant of a search in progress.
5. `Step.history`, `Steps.history`: every step of a search keeps it.
6. `exists_sceneHistory`: so it holds wherever a search for a closed goal with closed clauses comes.
-/

namespace ProofSearch

open Solver

variable {P : Problem} {L L' : Ledger} {m n : Context} {x y v : Var} {t : Tree}

/-! ## Candidates -/

/-- What a candidate for the goal `x` of type `target` adds to `m`, in which `last` was the latest
number. -/
structure CandidateAdds (P : Problem) (m : Context) (last : Nat) (x : Var) (target : Term)
    (c : Candidate) : Prop where
  decl : ∀ y d, m.decl? y = some d → c.post.context.decl? y = some d
  extension : m.Extends c.post.context
  adds : Adds m last x target c.post.context c.goals
  goal : c.post.context.isAssigned x = true
  own : ∀ y, c.post.context.isDeclared y = true → m.isDeclared y = false → P.Own y
  unassigned : ∀ y ∈ c.goals, c.post.context.isAssigned y = false
  introduced : c.introduced = c.post.context.declaredSince m
  assigned : c.assigned = c.post.context.assignedSince m

namespace CandidateAdds

variable {last : Nat} {target : Term} {c : Candidate}

theorem declared (h : CandidateAdds P m last x target c) (hy : m.isDeclared y = true) :
    c.post.context.isDeclared y = true := by
  obtain ⟨d, hd⟩ := Context.exists_decl? hy
  exact Context.isDeclared_of_decl? (h.decl y d hd)

theorem isAssigned (h : CandidateAdds P m last x target c) (hy : m.isAssigned y = true) :
    c.post.context.isAssigned y = true := by
  obtain ⟨b, hb⟩ := Option.isSome_iff_exists.1 hy
  exact Option.isSome_iff_exists.2 ⟨b, h.extension y b hb⟩

end CandidateAdds

/-- The two candidates have no variable in common that is new since `m`. -/
def Candidate.Apart (m : Context) (c c' : Candidate) : Prop :=
  ∀ y, c.post.context.isDeclared y = true → c'.post.context.isDeclared y = true →
    m.isDeclared y = true

/-- What the candidates add that a rule makes in a conforming state. -/
theorem Rule.Adds.candidates {r : Rule} (hr : r.Obeys P) (ha : r.Adds P) {s : Solver}
    {pre : Snapshot} {input : RuleInput} {b : Bool} {candidates : List Candidate}
    {value? : Option BranchValue} (hlast : L.last = s.lastId) (hpre : Conforms P L pre.context)
    (ho : P.Own input.goal)
    (h : r.examine pre b ((r.call input pre).run s).1 = .ok (.applied candidates value?)) :
    ∃ d, pre.context.decl? input.goal = some d ∧
      (∀ c ∈ candidates, CandidateAdds P pre.context s.lastId input.goal
        (pre.context.instantiate d.type) c) ∧
      candidates.Pairwise (Candidate.Apart pre.context) := by
  obtain ⟨L', -, -, hall⟩ := hr.call hlast hpre ho
  obtain ⟨out, hout, -, hchecks⟩ := Rule.examine_applied h
  obtain ⟨s', hs'⟩ : ∃ s', Ends (r.procedure input) { s with state := pre } out s' :=
    ⟨_, Prod.ext hout rfl⟩
  obtain ⟨d, hd, hadds, hapart⟩ := ha L { s with state := pre } input out s' ⟨hlast, hpre⟩ ho hs'
  refine ⟨d, hd, fun c hc => ?_, ?_⟩
  · obtain ⟨i, hi, rfl⟩ := List.mem_iff_getElem.1 hc
    have hcheck := hchecks.get (hchecks.length_eq ▸ hi) hi
    obtain ⟨p, hp⟩ : ∃ p, p = out.proposals.get ⟨i, hchecks.length_eq ▸ hi⟩ := ⟨_, rfl⟩
    rw [← hp] at hcheck
    have hmem : p ∈ out.proposals := hp ▸ List.get_mem ..
    have hprop := hall out hout p hmem
    have hadd := hadds p hmem
    have hgoal := (candidateKept_check hprop hcheck).goal
    obtain ⟨hpost, hgoals, hassigned, hintroduced⟩ := Proposal.check_eq_ok hcheck
    rw [List.get_eq_getElem] at hpost hgoals hassigned hintroduced
    have hadvance := hprop.advance
    rw [← hpost] at hgoals hassigned hintroduced hadd hadvance
    refine ⟨hadvance.decl, hadvance.extension, hgoals ▸ hadd.filter, hgoal,
      fun y hy hm => .inr ?_, fun y hy => ?_, hintroduced, hassigned⟩
    · have hbase := hpre.base_le
      have hlt := hadd.fresh y hy hm
      exact (hbase.trans_eq hlast).trans_lt hlt
    · rw [hgoals] at hy
      simpa using (List.mem_filter.1 hy).2
  · refine List.pairwise_iff_getElem.2 fun i j hi hj hij y hy hy' => ?_
    have hpost (i : Nat) (hi : i < candidates.length) :
        candidates[i].post = (out.proposals.get ⟨i, hchecks.length_eq ▸ hi⟩).post :=
      (Proposal.check_eq_ok (hchecks.get (hchecks.length_eq ▸ hi) hi)).1
    rw [hpost i hi] at hy
    rw [hpost j hj] at hy'
    exact List.pairwise_iff_getElem.1 hapart i j (hchecks.length_eq ▸ hi)
      (hchecks.length_eq ▸ hj) hij y hy hy'

/-! ## Normalization -/

/-- A norm rule takes a normalization one step further. -/
theorem Rewritten.step {vars : VarSet} {d : VarDecl} {last : Nat} {c : Candidate}
    (h : Rewritten P m n v vars (some x)) (hd : n.decl? x = some d)
    (hc : CandidateAdds P n last x (n.instantiate d.type) c) (hlen : c.goals.length ≤ 1)
    (hdisjoint : c.assigned.disjoint vars = true) :
    Rewritten P m c.post.context v vars c.goals.head? := by
  have hhead {y : Var} : c.goals.head? = some y ↔ y ∈ c.goals := by
    cases hgoals : c.goals with
    | nil => simp
    | cons z zs =>
      rw [hgoals] at hlen
      obtain rfl : zs = [] := List.eq_nil_of_length_eq_zero (by simpa using hlen)
      simp [eq_comm]
  obtain ⟨hxn, hxopen, hxv⟩ := h.goal x rfl
  refine ⟨⟨fun y e he => hc.decl y e (h.spans.decl y e he), h.spans.extension.trans hc.extension,
    fun y hy hm => ?_, fun y ho hm hopen ha => ?_⟩, fun y hy => ?_, fun y hy => ?_,
    fun y e hy he z hz hocc => ?_⟩
  · cases hyn : n.isDeclared y with
    | true =>
      obtain ⟨hown, hn⟩ := h.spans.new y hyn hm
      refine ⟨hown, .inl ?_⟩
      rcases hn with hn | hyx
      · exact hc.isAssigned hn
      · exact Option.some.inj hyx ▸ hc.goal
    | false => exact ⟨hc.own y hy hyn, (hc.adds.left y hy hyn).imp_right hhead.2⟩
  · cases hyn : n.isAssigned y with
    | true => exact h.spans.old y ho hm hopen hyn
    | false =>
      have hdecl := h.spans.declared hm
      rcases hc.adds.reads y hdecl hyn ha with rfl | htarget
      · exact hxv.resolve_right fun hnot => nomatch hnot.symm.trans hm
      · refine (h.fence x d rfl hd y hm htarget).resolve_left fun hvars => ?_
        have hassigned : y ∈ c.assigned := by
          rw [hc.assigned]
          exact Context.mem_assignedSince.2 ⟨hdecl, hyn, ha⟩
        exact VarSet.disjoint_iff.1 hdisjoint y hassigned hvars
  · have hy := hhead.1 hy
    obtain ⟨hdecl, hnot⟩ := hc.adds.made y hy
    refine ⟨hdecl, hc.unassigned y hy, .inr ((Bool.not_eq_true _).mp fun hm => ?_)⟩
    exact nomatch hnot.symm.trans (h.spans.declared hm)
  · refine ((h.trail x rfl).extend hc.extension).tail ⟨(Bool.not_eq_true _).mp fun hm => ?_,
      hc.adds.within y (hhead.1 hy)⟩
    exact nomatch hxopen.symm.trans (h.spans.isAssigned hm)
  · exact h.fence x d rfl hd z hz
      (hc.adds.types y (hhead.1 hy) e he z (h.spans.declared hz) hocc)

/-! ## Applications -/

/-- The variables that are new in `n` since `m` are declared in no recorded state. -/
def Unrecorded (t : Tree) (m n : Context) : Prop := ∀ y, n.isDeclared y = true →
  m.isDeclared y = false → ∀ ρ k, t.chart.at? ρ = some k → k.isDeclared y = false

theorem Recorded.conforms_at (h : Recorded P L t) {τ : Stage} (hn : t.chart.at? τ = some n) :
    Conforms P L n := by
  cases τ with
  | start => exact Option.some.inj hn ▸ h.root
  | normal g =>
    obtain ⟨post, hpost, rfl⟩ := Option.map_eq_some_iff.1 hn
    exact (h.goal g).post post hpost
  | applied r =>
    by_cases hr : t.HasApplication r
    · exact Option.some.inj ((Tree.chart_applied hr).symm.trans hn) ▸ h.post r
    · exact nomatch (if_neg hr).symm.trans hn

/-- What has a later number than all recorded variables is not recorded. -/
theorem Recorded.unrecorded (h : Recorded P L t) (hn : ∀ y, n.isDeclared y = true →
    m.isDeclared y = false → L.last < y.index) : Unrecorded t m n := by
  intro y hy hm ρ k hk
  refine (Bool.not_eq_true _).mp fun hky => ?_
  have := (h.conforms_at hk).numbered y hky
  exact absurd (hn y hy hm) (by omega)

/-- An eager candidate assigns no old variable but its goal. -/
theorem VarHistory.eq_of_assigned (h : VarHistory P t) (hrec : Recorded P L t) {g : GoalId}
    {state : Snapshot} {d : VarDecl} {last : Nat} {c : Candidate}
    (hx : (t.goal g).norm = .normal x state) (hd : state.context.decl? x = some d)
    (hc : CandidateAdds P state.context last x (state.context.instantiate d.type) c)
    (hdisjoint : c.assigned.disjoint (t.goal g).vars = true)
    (hy : state.context.isDeclared y = true) (hopen : state.context.isAssigned y = false)
    (ha : c.post.context.isAssigned y = true) : y = x := by
  have hrw := h.normal g state (by rw [Goal.normPost?, hx])
  have hvar : (t.goal g).normVar? = some x := by rw [Goal.normVar?, hx]
  rcases hc.adds.reads y hy hopen ha with hyx | htarget
  · exact hyx
  · cases hm : (t.preState g).context.isDeclared y with
    | true =>
      rcases hrw.fence x d hvar hd y hm htarget with hvars | rfl
      · have hassigned : y ∈ c.assigned := by
          rw [hc.assigned]
          exact Context.mem_assignedSince.2 ⟨hy, hopen, ha⟩
        exact (VarSet.disjoint_iff.1 hdisjoint y hassigned hvars).elim
      · exact ((hrec.goal g).normal x state hx).2.resolve_right fun ha =>
          by cases hopen.symm.trans ha
    | false =>
      rcases (hrw.spans.new y hy hm).2 with ha | hyx
      · cases hopen.symm.trans ha
      · exact Option.some.inj (hyx.symm.trans hvar)

/-- What becomes of a candidate when the siblings that depend on it are copied. -/
theorem CandidateKept.copiesMade {s s' : Solver} {run : Run} {g : GoalId} {state : Snapshot}
    {c : Candidate} {rule : String} {kind : RuleKind} {probability : Percent}
    {value? : Option BranchValue} {new : NewApplication} {copies : List Tree.GoalCopy}
    (hck : CandidateKept P L state x c) (hrec : Recorded P L t) (hlast : L.last = s.lastId)
    (he : Ends (t.carrySiblings (attachment run g rule kind c probability value?)) s
      (new, copies) s') :
    CopiesMade t c.post.context s.lastId (t.dependents c.post.context (t.path g) c.assigned) copies
        new.post.context ∧ new.goals = c.goals ++ copies.map (·.copy) ∧
      new.introduced = c.introduced.insertMany (copies.map (·.copy)) ∧
      new.assigned = c.assigned.insertMany (copies.map (·.old)) ∧ new.rule.kind = kind := by
  have hnum (k : GoalId) (hk : t.HasGoal k) : (t.goal k).var.index ≤ s.lastId :=
    hlast ▸ (hrec.preState k).numbered _ (hrec.declared k hk)
  obtain ⟨hmade, hnew⟩ := Tree.carrySiblings_copiesMade
    (hlast ▸ hck.post.numbered : NumberedTo s.lastId c.post.context) hnum he
  exact ⟨hmade, congrArg (·.goals) hnew, congrArg (·.introduced) hnew, congrArg (·.assigned) hnew,
    congrArg (·.rule.kind) hnew⟩

/-- A candidate is added with copies of the siblings that depend on what it assigned. -/
theorem Carried.candidate {s s' : Solver} {run : Run} {g : GoalId} {state : Snapshot}
    {d : VarDecl} {last : Nat} {c : Candidate} {rule : String} {kind : RuleKind}
    {probability : Percent} {value? : Option BranchValue} {new : NewApplication}
    {copies : List Tree.GoalCopy} (hw : VarHistory P t) (hl : t.Linked) (hrec : Recorded P L t)
    (hlast : L.last = s.lastId) (hx : (t.goal g).norm = .normal x state)
    (hd : state.context.decl? x = some d) (hck : CandidateKept P L state x c)
    (hc : CandidateAdds P state.context last x (state.context.instantiate d.type) c)
    (hun : Unrecorded t state.context c.post.context)
    (heager : kind.isEager = true → c.assigned.disjoint (t.goal g).vars = true)
    (he : Ends (t.carrySiblings (attachment run g rule kind c probability value?)) s
      (new, copies) s') : Carried P t state.context x new copies := by
  obtain ⟨hmade, hgoals, hintroduced, hassigned, hkind⟩ := hck.copiesMade hrec hlast he
  have hsource {copy : Tree.GoalCopy} (hcopy : copy ∈ copies) : t.HasGoal copy.source :=
    hasGoal_of_mem_dependents (hmade.source_mem hcopy)
  have hnot {y : Var} (hy : c.post.context.isDeclared y = false) :
      state.context.isDeclared y = false :=
    (Bool.not_eq_true _).mp fun hm => nomatch hy.symm.trans (hc.declared hm)
  have hmem {y : Var} : y ∈ new.goals ↔ y ∈ c.goals ∨ ∃ copy ∈ copies, copy.copy = y := by
    rw [hgoals, List.mem_append, List.mem_map]
  refine ⟨⟨fun y e he => hmade.decl y e (hc.decl y e he), hc.extension.trans hmade.extension,
    fun y hy hm => ?_, fun y ho hm hopen ha => ?_⟩, fun y hy => ?_, ?_, fun y hy => ?_,
    hmade.nodup, fun copy hcopy => ?_, fun y hy => ?_, fun y hy hm ρ k hk => ?_⟩
  · cases hyc : c.post.context.isDeclared y with
    | true =>
      exact ⟨hc.own y hyc hm, (hc.adds.left y hyc hm).imp hmade.isAssigned
        fun hy => hmem.2 (.inl hy)⟩
    | false =>
      obtain ⟨copy, hcopy, rfl⟩ := hmade.new y hy hyc
      have hlt := (hmade.copy copy hcopy).1
      have hbase := hrec.root.base_le
      exact ⟨.inr (by omega), .inr (hmem.2 (.inr ⟨copy, hcopy, rfl⟩))⟩
  · cases hyc : c.post.context.isAssigned y with
    | true =>
      rw [hkind]
      cases hk : kind.isSafe with
      | true =>
        have hdisjoint := heager (RuleKind.isEager_of_isSafe hk)
        exact .inl (hw.eq_of_assigned hrec hx hd hc hdisjoint hm hopen hyc)
      | false => exact .inr (.inl rfl)
    | false => exact .inr (.inr (hmade.assigned y hyc ha))
  · rcases hmem.1 hy with hy | ⟨copy, hcopy, rfl⟩
    · obtain ⟨hdecl, hm⟩ := hc.adds.made y hy
      refine ⟨hmade.declared hdecl, (Bool.not_eq_true _).mp fun ha => ?_, hm⟩
      -- Copying assigns variables of goals only, and those are recorded.
      obtain ⟨copy, hcopy, hold⟩ := hmade.assigned y (hc.unassigned y hy) ha
      have hhas := hsource hcopy
      have hrecorded := Context.isDeclared_of_dependencies (hw.deps _ hhas)
      rw [← (hmade.old copy hcopy).1, hold] at hrecorded
      exact nomatch hrecorded.symm.trans (hun y hdecl hm _ _ (hl.chart_home hhas))
    · obtain ⟨-, hnew, hdecl, hopen⟩ := hmade.copy copy hcopy
      exact ⟨hdecl, hopen, hnot hnew⟩
  · rw [hgoals]
    refine List.nodup_append'.2 ⟨hc.adds.nodup, hmade.nodup, fun y hy hcopy => ?_⟩
    obtain ⟨copy, hmem, rfl⟩ := List.mem_map.1 hcopy
    exact nomatch (hc.adds.made _ hy).1.symm.trans (hmade.copy copy hmem).2.1
  · rcases hmem.1 hy with hy | hcopy
    · obtain ⟨u, hu, hocc⟩ := hc.adds.within y hy
      exact .inr ⟨u, hmade.extension x _ hu, hocc⟩
    · exact .inl hcopy
  · obtain ⟨hvar, -, hb⟩ := hmade.old copy hcopy
    refine ⟨hsource hcopy, hvar.symm, hmem.2 (.inr ⟨copy, hcopy, rfl⟩), ?_, hb⟩
    rw [hassigned]
    exact VarSet.mem_insertMany.2 (.inl (List.mem_map_of_mem hcopy))
  · rw [hintroduced] at hy
    rcases VarSet.mem_insertMany.1 hy with hy | hy
    · obtain ⟨copy, hcopy, rfl⟩ := List.mem_map.1 hy
      exact hnot (hmade.copy copy hcopy).2.1
    · rw [hc.introduced] at hy
      exact (Context.mem_declaredSince.1 hy).2
  · cases hyc : c.post.context.isDeclared y with
    | true => exact hun y hyc hm ρ k hk
    | false =>
      obtain ⟨copy, hcopy, rfl⟩ := hmade.new y hy hyc
      have hlt := (hmade.copy copy hcopy).1
      refine (Bool.not_eq_true _).mp fun hky => ?_
      have hle := (hrec.conforms_at hk).numbered _ hky
      omega

/-! ## Scenes -/

/-- The variable of a goal is open in the state in which the goal was made. -/
theorem VarHistory.goal_open (h : VarHistory P t) (hl : t.Linked) (hrec : Recorded P L t)
    {g : GoalId} (hg : t.HasGoal g) : (t.preState g).context.isAssigned (t.goal g).var = false := by
  have hdecl := Context.isDeclared_of_dependencies (h.deps g hg)
  unfold Tree.preState at hdecl ⊢
  cases hr : t.parentApplication? g with
  | none =>
    rw [hr] at hdecl
    exact (h.root _ (hrec.own g hg) hdecl).2
  | some r =>
    obtain ⟨y, state, -, ha⟩ := h.applied r (hl.clusterParent _ r (hl.home g hg).1 hr).1
    exact (ha.goal g ⟨hg, hr⟩).2.1

/-- Normalization begins with the goal as it was made. -/
theorem VarHistory.rewritten (h : VarHistory P t) (hl : t.Linked) (hrec : Recorded P L t)
    {g : GoalId} (hg : t.HasGoal g) :
    Rewritten P (t.preState g).context (t.preState g).context (t.goal g).var (t.goal g).vars
      (some (t.goal g).var) := by
  refine ⟨.refl _ _ _, fun x hx => ?_, fun x hx => ?_, fun x d hx hd z _ hocc => ?_⟩ <;>
    obtain rfl := Option.some.inj hx
  · exact ⟨Context.isDeclared_of_dependencies (h.deps g hg), h.goal_open hl hrec hg, .inl rfl⟩
  · exact .refl
  · by_cases hz : z = (t.goal g).var
    · exact .inr hz
    · exact .inl (((hrec.preState g).mem_dependencies (hrec.own g hg) hd (h.deps g hg)).2
        ⟨hocc, hz⟩)

/-- What the candidates for the goal `x` of the given state add.  They may become applications one
after the other. -/
structure OffersAdd (P : Problem) (t : Tree) (x : Var) (state : Snapshot) (d : VarDecl)
    (cs : List Candidate) : Prop where
  adds : ∀ c ∈ cs, ∃ last, CandidateAdds P state.context last x (state.context.instantiate d.type) c
  unrecorded : ∀ c ∈ cs, Unrecorded t state.context c.post.context
  apart : cs.Pairwise (Candidate.Apart state.context)

/-- What the work in hand makes of the variables. -/
def Focus.History (P : Problem) (run : Run) : Focus → Prop
  | .idle => True
  | .norm g rest => Rewritten P (run.tree.preState g).context run.solver.context
      (run.tree.goal g).var (run.tree.goal g).vars rest ∧
        Unrecorded run.tree (run.tree.preState g).context run.solver.context
  | .offers g cs => ∃ x state d, (run.tree.goal g).norm = .normal x state ∧
      state.context.decl? x = some d ∧ OffersAdd P run.tree x state d cs

/-- What holds throughout a search. -/
structure SceneHistory (P : Problem) (L : Ledger) (sc : Scene) : Prop extends SceneKept P L sc where
  history : VarHistory P sc.run.tree
  work : sc.focus.History P sc.run

theorem SceneHistory.offers {sc : Scene} {g : GoalId} {cs : List Candidate}
    (h : SceneHistory P L sc) (hf : sc.focus = .offers g cs) :
    ∃ x state d, (sc.run.tree.goal g).norm = .normal x state ∧ state.context.decl? x = some d ∧
      (∀ c ∈ cs, CandidateKept P L state x c) ∧ OffersAdd P sc.run.tree x state d cs := by
  obtain ⟨⟨-, hfocus⟩, -, hwork⟩ := h
  rw [hf] at hfocus hwork
  obtain ⟨x, state, d, hx, hd, hadd⟩ := hwork
  obtain ⟨y, pre, hy, hall⟩ := hfocus
  cases hx.symm.trans hy
  exact ⟨x, state, d, hx, hd, hall, hadd⟩

/-! ## Steps -/

section

variable {run run' : Run} {g : GoalId}

theorem Focus.History.wait {focus : Focus} (h : focus.History P run)
    (tree : run'.tree = run.tree) (state : run'.solver.state = run.solver.state) :
    focus.History P run' := by
  have hcontext : run'.solver.context = run.solver.context := congrArg (·.context) state
  cases focus with
  | idle => trivial
  | norm g rest =>
    rw [Focus.History, tree, hcontext]
    exact h
  | offers g cs =>
    rw [Focus.History, tree]
    exact h

/-- A norm rule replaces or closes what is left of a goal. -/
theorem Rule.Adds.rewrite {r : Rule} {input : RuleInput} {effects : Bool}
    {candidates : List Candidate} {value? : Option BranchValue} {c : Candidate} (ha : r.Adds P)
    (hr : r.Obeys P) (hk : Kept P L run) (hnorm : NormKept P L run g (some input.goal))
    (h : Focus.History P run (.norm g (some input.goal)))
    (applied : r.examine run.solver.state effects
      ((r.call input run.solver.state).run run.solver).1 = .ok (.applied candidates value?))
    (check : r.checkNorm (run.tree.goal g).vars candidates = .ok c) (tree : run'.tree = run.tree)
    (context : run'.solver.context = c.post.context) :
    Focus.History P run' (.norm g c.goals.head?) := by
  obtain ⟨hrewritten, hunrecorded⟩ := h
  obtain ⟨d, hd, hall, -⟩ :=
    ha.candidates hr hk.last hnorm.conforms (hnorm.own _ rfl) applied
  obtain ⟨rfl, hlen, hdisjoint⟩ := Rule.checkNorm_eq_ok check
  have hc := hall c (List.mem_singleton_self c)
  rw [Focus.History, tree, context]
  refine ⟨hrewritten.step hd hc hlen hdisjoint, fun y hy hm => ?_⟩
  cases hyn : run.solver.context.isDeclared y with
  | true => exact hunrecorded y hyn hm
  | false =>
    exact hk.tree.unrecorded (fun y hy hm => hk.last ▸ hc.adds.fresh y hy hm) y hy hyn

/-- A rule makes candidates for a normalized goal. -/
theorem Rule.Adds.offers {r : Rule} {input : RuleInput} {state : Snapshot} {effects : Bool}
    {candidates : List Candidate} {value? : Option BranchValue} (ha : r.Adds P) (hr : r.Obeys P)
    (hk : Kept P L run) (norm : (run.tree.goal g).norm = .normal input.goal state)
    (applied : r.examine state effects ((r.call input state).run run.solver).1 =
      .ok (.applied candidates value?)) :
    ∃ d, state.context.decl? input.goal = some d ∧
      OffersAdd P run.tree input.goal state d candidates := by
  obtain ⟨hown, hconf⟩ := hk.normal norm
  obtain ⟨d, hd, hall, hapart⟩ := ha.candidates hr hk.last hconf hown applied
  exact ⟨d, hd, fun c hc => ⟨_, hall c hc⟩,
    fun c hc => hk.tree.unrecorded fun y hy hm => hk.last ▸ (hall c hc).adds.fresh y hy hm, hapart⟩

/-- The next candidate becomes an application. -/
theorem OffersAdd.attach {state : Snapshot} {d : VarDecl} {c : Candidate} {rest : List Candidate}
    {rule : String} {kind : RuleKind} {probability : Percent} {value? : Option BranchValue}
    {added : AddedApplication} {tree : Tree} {solver : Solver}
    (h : OffersAdd P run.tree x state d (c :: rest)) (hk : Kept P L run)
    (hall : ∀ c' ∈ c :: rest, CandidateKept P L state x c') (hw : VarHistory P run.tree)
    (hl : run.tree.Linked) (hx : (run.tree.goal g).norm = .normal x state)
    (hd : state.context.decl? x = some d)
    (eager : kind.isEager = true → c.assigned.disjoint (run.tree.goal g).vars = true)
    (ends : Ends (run.tree.addApplication
        (attachment run g rule kind c probability value?)) run.solver (added, tree) solver) :
    VarHistory P tree ∧ OffersAdd P tree x state d rest := by
  have hck := hall c List.mem_cons_self
  obtain ⟨last, hc⟩ := h.adds c List.mem_cons_self
  obtain ⟨new, copies, groups, u, hcarry, hgroups, hparent, hgrow, -, -, ht⟩ :=
    Tree.addApplication_growth ends (Tree.hasGoal_of_normal hx)
  obtain ⟨hmade, -⟩ := hck.copiesMade hk.tree hk.last hcarry
  have hcarried := Carried.candidate hw hl hk.tree hk.last hx hd hck hc
    (h.unrecorded c List.mem_cons_self) eager hcarry
  have hhistory := hw.growth hl (hparent ▸ hx) hcarried hgrow hgroups
  have hnoted := Tree.noted_of_added ht
  refine ⟨hhistory.noted hnoted, fun c' hc' => h.adds c' (List.mem_cons_of_mem c hc'),
    fun c' hc' y hy hm ρ k hρ => ?_, (List.pairwise_cons.1 h.apart).2⟩
  rw [hnoted.chart] at hρ
  have hchart := hgrow.chart_adds hl
  by_cases hne : ρ = .applied ⟨run.tree.applications.size⟩
  · subst hne
    obtain rfl := Option.some.inj (hρ.symm.trans hchart.new)
    refine (Bool.not_eq_true _).mp fun hyn => ?_
    cases hyc : c.post.context.isDeclared y with
    | true =>
      have hboth := (List.pairwise_cons.1 h.apart).1 c' hc' y hyc hy
      cases hm.symm.trans hboth
    | false =>
      -- A copy has a later number than all candidates.
      obtain ⟨copy, hcopy, rfl⟩ := hmade.new y hyn hyc
      have hlt := (hmade.copy copy hcopy).1
      have hle := (hall c' (List.mem_cons_of_mem c hc')).post.numbered _ hy
      have heq := hk.last
      omega
  · rw [hchart.old ρ hne] at hρ
    exact h.unrecorded c' (List.mem_cons_of_mem c hc') y hy hm ρ k hρ

end

namespace Search

/-- The rules that the search can come upon keep to the ledger, and what they add is known. -/
structure Tame (P : Problem) (search : Search) : Prop extends Lawful P search where
  adds : ∀ r, search.Knows r → r.Adds P

variable {search : Search} {sc sc' : Scene}

/-- One step keeps the invariant, with a longer ledger. -/
theorem Step.history (h : Step search sc sc') (ht : search.Tame P) (hs : search.Stocked sc.run)
    (hk : SceneHistory P L sc) : ∃ L', L.Grows L' ∧ SceneHistory P L' sc' := by
  obtain ⟨L', hL, hkept⟩ := h.kept ht.toLawful hs.linked hk.toSceneKept
  suffices hnext : VarHistory P sc'.run.tree ∧ sc'.focus.History P sc'.run from
    ⟨L', hL, hkept, hnext.1, hnext.2⟩
  cases h with
  | note tree => exact ⟨hk.history.noted tree, trivial⟩
  | wait tree state => exact ⟨tree ▸ hk.history, hk.work.wait tree state⟩
  | @begin run run' focus g has norm tree queue state =>
    have hcontext : run'.solver.context = (run.tree.preState g).context :=
      congrArg (·.context) state
    refine ⟨tree ▸ hk.history, ?_⟩
    rw [Focus.History, tree, hcontext]
    exact ⟨hk.history.rewritten hs.linked hk.kept.tree has,
      fun y hy hm => nomatch hy.symm.trans hm⟩
  | rewrite knows applied check tree queue solver =>
    exact ⟨tree ▸ hk.history, (ht.adds _ knows).rewrite (ht.obeys _ knows) hk.kept hk.focus hk.work
      applied check tree (by rw [solver]; rfl)⟩
  | normal norm tree =>
    obtain ⟨hrewritten, hunrecorded⟩ := hk.work
    exact ⟨tree ▸ hk.history.recordNorm hs.linked (NormKept.has hk.focus) norm hrewritten
      hunrecorded _, trivial⟩
  | offer norm knows applied tree =>
    obtain ⟨d, hd, hadd⟩ := (ht.adds _ knows).offers (ht.obeys _ knows) hk.kept norm applied
    exact ⟨tree ▸ hk.history, _, _, d, tree ▸ norm, hd, tree ▸ hadd⟩
  | attach norm eager ends =>
    obtain ⟨x, state, d, hx, hd, hall, hadd⟩ := hk.offers rfl
    obtain ⟨hhistory, hrest⟩ := hadd.attach hk.kept hall hk.history hs.linked hx hd eager ends
    refine ⟨hhistory, x, state, d, ?_, hd, hrest⟩
    exact (Step.attach norm eager ends : Step search ⟨_, .offers _ _⟩ _).norm_eq hx

/-- Searches keep the invariant. -/
theorem Steps.history (h : Steps search sc sc') (ht : search.Tame P) (hs : search.Stocked sc.run)
    (hk : SceneHistory P L sc) : ∃ L', L.Grows L' ∧ SceneHistory P L' sc' := by
  induction h with
  | refl => exact ⟨L, .refl L, hk⟩
  | tail hsteps hstep ih =>
    obtain ⟨L₁, hL₁, hk₁⟩ := ih
    obtain ⟨L₂, hL₂, hk₂⟩ := hstep.history ht (Steps.stocked hsteps hs) hk₁
    exact ⟨L₂, hL₁.trans hL₂, hk₂⟩

/-! ## The rules of a search -/

section

variable {rules : List RuleSpec} {options : Options} {fuel : Nat}

theorem tame_ofRules (h : RuleSpec.clauses rules = P.clauses) :
    (ofRules rules options fuel).Tame P := by
  refine ⟨lawful_ofRules h options fuel, fun q hq => ?_⟩
  obtain ⟨r, hr, rfl⟩ := exists_spec_of_knows hq
  exact adds_rule fun c hc => h ▸ RuleSpec.mem_clauses hr hc

/-- The beginning of the search for a goal. -/
def opening (search : Search) (s : Solver) (goal : Var) (vars : VarSet) : Scene :=
  ⟨search.start s (.ofGoal goal vars s.state), .idle⟩

/-- The invariant holds at the beginning. -/
theorem sceneHistory_start {s : Solver} {d : VarDecl} {vars : VarSet}
    (hn : NumberedTo s.lastId s.context) (hbase : P.base = s.lastId)
    (hd : s.context.decl? P.root = some d) (hopen : s.context.isAssigned P.root = false)
    (htype : d.type = P.type) (hhyps : d.hyps = P.hyps)
    (hvars : s.context.dependencies P.root = .ok vars) :
    SceneHistory P (.start P) (search.opening s P.root vars) := by
  have hbinding : s.context.binding? P.root = none := by simpa [Context.isAssigned] using hopen
  refine ⟨⟨⟨hbase, recorded_ofGoal (conforms_start hn hbase hd hbinding htype hhyps)
    (Context.isDeclared_of_decl? hd)⟩, trivial⟩, varHistory_ofGoal (fun y ho hy => ?_) hvars,
    trivial⟩
  obtain rfl : y = P.root := ho.resolve_right (by have := hn y hy; omega)
  exact ⟨rfl, hopen⟩

/-- The invariant holds wherever the search for a closed goal comes. -/
theorem exists_sceneHistory {s : Solver} {saved : List Snapshot} {root : Var} {d : VarDecl}
    {vars : VarSet} {sc : Scene} (hclauses : ∀ c ∈ RuleSpec.clauses rules, c.isClosed = true)
    (hs : Built s saved) (hd : s.context.decl? root = some d)
    (hopen : s.context.isAssigned root = false) (htype : d.type.hasVar = false)
    (hhyps : ∀ h ∈ d.hyps, h.type.hasVar = false)
    (hvars : s.context.dependencies root = .ok vars)
    (hsteps : Steps (ofRules rules options fuel)
      ((ofRules rules options fuel).opening s root vars) sc) :
    ∃ P L, SceneHistory P L sc ∧ sc.run.tree.Linked := by
  let P := Problem.ofGoal (RuleSpec.clauses rules) s root d hclauses
    (hs.numbered.1 root (Context.isDeclared_of_decl? hd)) htype hhyps
  have hstocked : (ofRules rules options fuel).Stocked _ := (valid_start s root vars).stocked
  obtain ⟨L, -, hk⟩ := hsteps.history (tame_ofRules rfl) hstocked
    (sceneHistory_start (P := P) hs.numbered.1 rfl hd hopen rfl rfl hvars)
  exact ⟨P, L, hk, (hsteps.stocked hstocked).linked⟩

/-- The final tree of a search is reached by steps. -/
theorem exists_steps_finalRun {s : Solver} {root : Var} {vars : VarSet} (rules : List RuleSpec)
    (options : Options) (fuel : Nat) (hvars : s.context.dependencies root = .ok vars) :
    ∃ last, Steps (ofRules rules options fuel)
        ((ofRules rules options fuel).opening s root vars) last ∧
      last.run.tree = ((ofRules rules options fuel).finalRun s root).tree := by
  obtain ⟨last, hsteps, htree⟩ :=
    exists_steps_runAll (regular_ofRules rules options fuel) (valid_start s root vars)
  refine ⟨last, hsteps, ?_⟩
  rw [htree, finalRun, hvars]

end

end Search

end ProofSearch
