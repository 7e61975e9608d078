import ProofSearch.Proofs.Derivation.Ledger
import ProofSearch.Proofs.Metavar.Operations

/-!
# Rules keep to the ledger

1. `Rule.Obeys`: from a conforming context the rule proposes conforming ones.
2. `obeys_assumption`: closing a goal by a hypothesis is of this kind.
3. `obeys_clause`: so is applying a clause of the problem.
-/

namespace ProofSearch

open Solver

variable {P : Problem} {L : Ledger} {s s' : Solver}

/-- The ledger is up to date with a solver in a conforming state. -/
structure Tracks (P : Problem) (L : Ledger) (s : Solver) : Prop where
  last : L.last = s.lastId
  conforms : Conforms P L s.context

/-- The proposal is a later conforming state in which the goal `x` is assigned, with declared
subgoals of the search. -/
structure Proposes (P : Problem) (L : Ledger) (m : Context) (L' : Ledger) (x : Var)
    (p : Proposal) : Prop where
  advance : Advance P L m L' p.post.context
  goal : p.post.context.isAssigned x = true
  goals : ∀ y ∈ p.goals, P.Own y ∧ p.post.context.isDeclared y = true

/-- From a conforming state the rule proposes later conforming states. -/
structure Rule.Obeys (P : Problem) (r : Rule) : Prop where
  ages : ∀ input, Ages (r.procedure input).run
  proposes : ∀ L s input out s', Tracks P L s → P.Own input.goal →
    Ends (r.procedure input) s out s' → ∃ L', L.Grows L' ∧ L'.last = s'.lastId ∧
      ∀ p ∈ out.proposals, Proposes P L s.context L' input.goal p

namespace Tracks

theorem declareNext (h : Tracks P L s) {type : Term} (claim : Option Term)
    (ht : OverTypes P L s.context type) (hclaim : ∀ A, claim = some A →
      OverTypes P L s.context A ∧ s.context.instantiate type = s.context.instantiate A) :
    Advance P L s.context (L.add claim) (s.declareNext { type, hyps := P.hyps }).context ∧
      Tracks P (L.add claim) (s.declareNext { type, hyps := P.hyps }) := by
  have ha := Advance.declare h.conforms ht hclaim
  rw [h.last] at ha
  exact ⟨ha, congrArg (· + 1) h.last, ha.conforms⟩

/-- The variable declared last belongs to the search and has the entry it was given. -/
theorem next (h : Tracks P L s) (claim : Option Term) (d : VarDecl) :
    P.Own ⟨s.lastId + 1⟩ ∧ (L.add claim).claim? ⟨s.lastId + 1⟩ = claim ∧
      (s.declareNext d).context.isDeclared ⟨s.lastId + 1⟩ = true := by
  have hbase := h.conforms.base_le
  have hlast := h.last
  refine ⟨.inr ?_, ?_, ?_⟩
  · show P.base < s.lastId + 1
    omega
  · rw [← h.last, Ledger.claim?_add]
  · simp [Solver.declareNext, Solver.context, Context.isDeclared]

end Tracks

/-- Hypotheses are closed, so a state does not change them. -/
theorem mapTypes_hyps (P : Problem) (m : Context) : P.hyps.mapTypes m.instantiate = P.hyps := by
  rw [LocalContext.mapTypes]
  conv_rhs => rw [← List.map_id P.hyps]
  refine List.map_congr_left fun h hh => ?_
  rw [Context.instantiate_closed (P.hyps_closed h hh)]
  rfl

/-- After a rule has run, the target that it was given has the value of what the goal proves. -/
theorem Later.target_eq {L' : Ledger} {m n : Context} {x : Var} {d : VarDecl} {A : Term}
    (hl : Later P L m L' n) (hm : Conforms P L m) (ho : P.Own x) (hd : m.decl? x = some d)
    (hA : L.claim? x = some A) : n.instantiate (m.instantiate d.type) = n.instantiate A := by
  have hdecl := hm.decl x d ho hd
  obtain ⟨hAt, heq⟩ := hdecl.claim A hA
  exact hl.instantiate_eq (hm.overTypes_instantiate hdecl.type) hAt
    ((hm.instantiate_instantiate hdecl.type).trans heq)

/-! ## Hypotheses -/

section

variable {L' : Ledger} {m n k : Context} {x : Var} {d : VarDecl} {h : Hypothesis}

theorem isAssigned_of_assign {t : Term} (h : n.assign x t = .ok k) : k.isAssigned x = true := by
  rw [Context.isAssigned, (Context.binding?_of_assign h).2]
  rfl

/-- A goal is closed by a hypothesis whose type unifies with its own. -/
theorem Advance.close (hm : Conforms P L m) (ho : P.Own x) (hd : m.decl? x = some d)
    (hh : h ∈ P.hyps) (hu : m.unify (m.instantiate d.type) h.type = some n)
    (ha : n.assign x (.hyp h.name) = .ok k) : Advance P L m L k := by
  have hclosed := P.hyps_closed h hh
  have htarget := hm.overTypes_instantiate (hm.decl x d ho hd).type
  obtain ⟨hn, heq⟩ := Advance.unify hm htarget (overTypes_closed hclosed) hu
  refine hn.trans (.assign hn.conforms ho ⟨fun _ => overTypes_closed rfl, fun A hA => ?_⟩ ha)
  refine .hyp hh ?_
  rw [← hn.target_eq hm ho hd hA, heq, Context.instantiate_closed hclosed]

end

namespace Assumption

variable {x : Var} {target : Term} {pre : Snapshot} {all : Bool} {hyps : List Hypothesis}
  {h : Hypothesis}

/-- The proposal closes the goal `x` of type `target` by a hypothesis, starting from `pre`. -/
structure Closes (pre : Snapshot) (x : Var) (target : Term) (h : Hypothesis) (p : Proposal) :
    Prop where
  goals : p.goals = []
  env : p.post.env = pre.env
  unified : ∃ n, pre.context.unify target h.type = some n ∧
    n.assign x (.hyp h.name) = .ok p.post.context

/-- The hypotheses whose types unify with the target: all of them, or the first one only. -/
def matching (m : Context) (target : Term) (all : Bool) (hyps : List Hypothesis) :
    List Hypothesis :=
  let found := hyps.filter fun h => (m.unify target h.type).isSome
  if all then found else found.take 1

theorem mem_of_mem_matching {m : Context} (hh : h ∈ matching m target all hyps) : h ∈ hyps := by
  cases all with
  | true => exact (List.mem_filter.1 hh).1
  | false => exact (List.mem_filter.1 (List.mem_of_mem_take hh)).1

theorem matching_cons_of_none {m : Context} (hn : m.unify target h.type = none) :
    matching m target all (h :: hyps) = matching m target all hyps := by
  simp [matching, hn]

theorem matching_cons_of_some {m n : Context} (hn : m.unify target h.type = some n) :
    matching m target all (h :: hyps) = h :: if all then matching m target all hyps else [] := by
  cases all with
  | true => simp [matching, hn]
  | false => simp [matching, hn]

/-- Each matching hypothesis has its proposal, in order. -/
theorem closes_proposals {found : List Proposal}
    (he : Ends (proposals x target pre all hyps) s found s') : s'.lastId = s.lastId ∧
      List.Forall₂ (Closes pre x target) (matching pre.context target all hyps) found := by
  induction hyps generalizing s found with
  | nil =>
    obtain ⟨rfl, rfl⟩ := ends_pure.1 he
    cases all with
    | true => exact ⟨rfl, .nil⟩
    | false => exact ⟨rfl, .nil⟩
  | cons h rest ih =>
    simp only [proposals, ends_bind, ends_restore, ends_unify] at he
    obtain ⟨-, u, rfl, b, v, hu, he⟩ := he
    rcases hu with ⟨n, hn, rfl, rfl⟩ | ⟨hn, rfl, rfl⟩
    · simp only [if_true, ends_bind, ends_adapt, ends_assign, ends_get] at he
      obtain ⟨-, w, ⟨k, hk, rfl⟩, t, w', ⟨rfl, rfl⟩, he⟩ := he
      rw [matching_cons_of_some (m := pre.context) hn]
      cases all with
      | true =>
        simp only [if_true, ends_bind, ends_pure] at he
        obtain ⟨more, w, hmore, rfl, rfl⟩ := he
        obtain ⟨hlast, hall⟩ := ih hmore
        exact ⟨hlast, .cons ⟨rfl, rfl, n, hn, hk⟩ hall⟩
      | false =>
        obtain ⟨rfl, rfl⟩ := ends_pure.1 he
        exact ⟨rfl, .cons ⟨rfl, rfl, n, hn, hk⟩ .nil⟩
    · rw [matching_cons_of_none (m := pre.context) hn]
      exact ih (s := { s with state := pre }) he

/-- The latest hypothesis comes first. -/
theorem ends_procedure {input : RuleInput} {out : RuleOutput}
    (he : Ends (procedure all input) s out s') : ∃ d, s.context.decl? input.goal = some d ∧
      s'.lastId = s.lastId ∧
      List.Forall₂ (Closes s.state input.goal (s.context.instantiate d.type))
        (matching s.context (s.context.instantiate d.type) all
          (d.hyps.mapTypes s.context.instantiate).reverse) out.proposals := by
  simp only [procedure, ends_bind, ends_adapt, ends_goalType, ends_goalHyps, ends_get,
    ends_restore] at he
  obtain ⟨target, _, ⟨d, hd, rfl, rfl⟩, hyps, _, ⟨d', hd', rfl, rfl⟩, _, u, ⟨rfl, rfl⟩, found, v,
    hfound, -, w, rfl, he⟩ := he
  rw [hd] at hd'
  cases hd'
  obtain ⟨hlast, hall⟩ := closes_proposals hfound
  split at he
  · simp only [ends_bind] at he
    obtain ⟨_, w, hthrow, _⟩ := he
    exact (ends_throw hthrow).elim
  · obtain ⟨rfl, rfl⟩ := ends_pure.1 he
    exact ⟨d, hd, hlast, hall⟩

theorem closes_of_mem {input : RuleInput} {out : RuleOutput} {d : VarDecl}
    (hd : s.context.decl? input.goal = some d) (he : Ends (procedure all input) s out s')
    {p : Proposal} (hp : p ∈ out.proposals) : ∃ h ∈ d.hyps.mapTypes s.context.instantiate,
      Closes s.state input.goal (s.context.instantiate d.type) h p := by
  obtain ⟨d', hd', -, hall⟩ := ends_procedure he
  cases hd.symm.trans hd'
  obtain ⟨h, hh, hcloses⟩ := exists_left_of_mem hall hp
  exact ⟨h, List.mem_reverse.1 (mem_of_mem_matching hh), hcloses⟩

end Assumption

theorem ages_proposals (x : Var) (target : Term) (pre : Snapshot) (all : Bool)
    (hyps : List Hypothesis) : Ages (Assumption.proposals x target pre all hyps).run := by
  induction hyps with
  | nil => exact ages_run_pure _
  | cons h rest ih =>
    rw [Assumption.proposals]
    refine ages_run_bind (ages_run_lift (ages_restore pre)) fun _ =>
      ages_run_bind (ages_run_lift (ages_unify _ _)) fun _ => ages_run_ite ?_ ih
    refine ages_run_bind (ages_run_adapt _ (ages_updateContext _)) fun _ =>
      ages_run_bind ages_run_get fun _ => ages_run_ite ?_ (ages_run_pure _)
    exact ages_run_bind ih fun _ => ages_run_pure _

theorem Assumption.ages_procedure (all : Bool) (input : RuleInput) :
    Ages (Assumption.procedure all input).run := by
  refine ages_run_bind (ages_run_adapt _ (ages_goalType _)) fun _ =>
    ages_run_bind (ages_run_adapt _ (ages_goalHyps _)) fun _ => ages_run_bind ages_run_get
    fun _ => ages_run_bind (ages_proposals _ _ _ _ _) fun _ =>
    ages_run_bind (ages_run_lift (ages_restore _)) fun _ => ?_
  exact ages_run_ite (ages_run_bind (ages_run_throw _) fun _ => ages_run_pure _) (ages_run_pure _)

theorem obeys_assumption {r : Rule} {all : Bool} (hr : r.procedure = Assumption.procedure all) :
    r.Obeys P where
  ages input := hr ▸ Assumption.ages_procedure all input
  proposes L s input out s' ht ho he := by
    rw [hr] at he
    obtain ⟨d, hd, hlast, -⟩ := Assumption.ends_procedure he
    refine ⟨L, .refl L, ht.last.trans hlast.symm, fun p hp => ?_⟩
    obtain ⟨h, hh, hgoals, -, n, hn, ha⟩ := Assumption.closes_of_mem hd he hp
    rw [(ht.conforms.decl _ d ho hd).hyps, mapTypes_hyps] at hh
    exact ⟨.close ht.conforms ho hd hh hn ha, isAssigned_of_assign ha, by simp [hgoals]⟩

/-! ## Clauses -/

section

variable {c : Clause} {xs : List Var}

/-- The parameters of a clause become variables in types. -/
theorem advance_makeParams {params : List (String × Term)} {bound bound' : List (String × Var)}
    (hp : ∀ p ∈ params, p.2.hasVar = false) (h : Tracks P L s)
    (hb : ∀ b ∈ bound, InTypes P L s.context b.2)
    (hrun : (Clause.makeParams P.hyps bound params).run s = (bound', s')) :
    ∃ L' xs, Advance P L s.context L' s'.context ∧ L'.last = s'.lastId ∧
      xs.length = params.length ∧ bound' = ((params.map (·.1)).zip xs).reverse ++ bound ∧
      ∀ x ∈ xs, InTypes P L' s'.context x := by
  induction params generalizing L s bound with
  | nil =>
    cases hrun
    exact ⟨L, [], .refl h.conforms, h.last, rfl, rfl, nofun⟩
  | cons p rest ih =>
    obtain ⟨name, type⟩ := p
    have htype : OverTypes P L s.context (Clause.instantiateParams bound type) := by
      intro y hy
      obtain ⟨b, hbm, rfl⟩ := Clause.occurs_instantiateParams (hp _ List.mem_cons_self) hy
      exact hb b hbm
    obtain ⟨hadv, htr⟩ := h.declareNext none htype nofun
    obtain ⟨hown, hentry, hdecl⟩ :=
      h.next none { type := Clause.instantiateParams bound type, hyps := P.hyps }
    have hx : InTypes P (L.add none)
        (s.declareNext { type := Clause.instantiateParams bound type, hyps := P.hyps }).context
        ⟨s.lastId + 1⟩ := ⟨hown, hentry, hdecl⟩
    have hb' (b : String × Var) (hbm : b ∈ (name, ⟨s.lastId + 1⟩) :: bound) : InTypes P (L.add none)
        (s.declareNext { type := Clause.instantiateParams bound type, hyps := P.hyps }).context
        b.2 := by
      rcases List.mem_cons.1 hbm with rfl | hbm
      · exact hx
      · exact (hb b hbm).later h.conforms hadv.toLater
    obtain ⟨L', xs, hadv', hlast, hlen, hbound, hxs⟩ :=
      ih (fun q hq => hp q (List.mem_cons_of_mem _ hq)) htr hb' hrun
    refine ⟨L', ⟨s.lastId + 1⟩ :: xs, hadv.trans hadv', hlast, by simp [hlen], by simp [hbound],
      fun y hy => ?_⟩
    rcases List.mem_cons.1 hy with rfl | hy
    · exact hx.later htr.conforms hadv'.toLater
    · exact hxs y hy

/-- The premises of a clause become variables of the same role as the goal. -/
theorem advance_premises {ε : Type} {premises : List Term} {ys : List Var} (inProof : Bool)
    (hp : ∀ t ∈ premises, t.hasVar = false) (h : Tracks P L s)
    (hxs : ∀ x ∈ xs, InTypes P L s.context x)
    (he : Ends (premises.mapM fun t =>
      (liftM (mkGoal (c.fill (xs.map .var) t) P.hyps) : SolverM ε Var)) s ys s') :
    ∃ L', Advance P L s.context L' s'.context ∧ L'.last = s'.lastId ∧
      List.Forall₂ (fun y t => P.Own y ∧ s'.context.isDeclared y = true ∧
        L'.claim? y = if inProof then some (c.fill (xs.map .var) t) else none) ys premises := by
  induction premises generalizing L s ys with
  | nil =>
    rw [List.mapM_nil] at he
    obtain ⟨rfl, rfl⟩ := ends_pure.1 he
    exact ⟨L, .refl h.conforms, h.last, .nil⟩
  | cons t rest ih =>
    simp only [List.mapM_cons, ends_bind, ends_mkGoal, ends_pure] at he
    obtain ⟨y, u, ⟨rfl, rfl⟩, zs, v, hrest, rfl, rfl⟩ := he
    have htype := overTypes_fill (c := c) (hp t List.mem_cons_self) hxs
    obtain ⟨claim, hclaim⟩ : ∃ claim, claim =
      if inProof then some (c.fill (xs.map .var) t) else none := ⟨_, rfl⟩
    obtain ⟨hadv, htr⟩ := h.declareNext claim htype fun A hA => by
      cases inProof <;> cases hclaim.symm.trans hA
      exact ⟨htype, rfl⟩
    obtain ⟨hown, hentry, hdecl⟩ :=
      h.next claim { type := c.fill (xs.map .var) t, hyps := P.hyps }
    obtain ⟨L', hadv', hlast, hall⟩ := ih (fun u hu => hp u (List.mem_cons_of_mem t hu)) htr
      (fun x hx => (hxs x hx).later h.conforms hadv.toLater) hrest
    refine ⟨L', hadv.trans hadv', hlast, .cons ⟨hown, hadv'.declared hdecl, ?_⟩ hall⟩
    rw [hadv'.claim? htr.conforms hown hdecl, hentry, hclaim]

/-- An applied clause fits a goal of either role, if its conclusion is what the goal proves. -/
theorem fits_clause {m : Context} {x : Var} {ys : List Var} (hc : c ∈ P.clauses)
    (hlen : xs.length = c.params.length) (hxs : ∀ x ∈ xs, InTypes P L m x)
    (heq : ∀ A, L.claim? x = some A →
      m.instantiate (c.fill (xs.map .var) c.conclusion) = m.instantiate A)
    (hys : List.Forall₂ (fun y t => P.Own y ∧ m.isDeclared y = true ∧ L.claim? y =
      if (L.claim? x).isSome then some (c.fill (xs.map .var) t) else none) ys c.premises) :
    Fits P L m x (.apply c.name ((xs ++ ys).map .var)) where
  inTypes hx y hy := by
    obtain ⟨u, hu, hy⟩ := Term.occurs_apply.1 hy
    obtain ⟨z, hz, rfl⟩ := List.mem_map.1 hu
    obtain rfl : z = y := by simpa [Term.occurs] using hy
    rcases List.mem_append.1 hz with hz | hz
    · exact hxs z hz
    · obtain ⟨i, hi, rfl⟩ := List.mem_iff_getElem.1 hz
      obtain ⟨hown, hdecl, hclaim⟩ := hys.get hi (hys.length_eq ▸ hi)
      exact ⟨hown, by simpa [hx] using hclaim, hdecl⟩
  inProofs A hA := .clause hc hlen hxs (heq A hA) (hys.imp fun y t ⟨hown, hdecl, hclaim⟩ =>
    ⟨hown, by simpa [hA] using hclaim, hdecl⟩)

theorem map_snd_bindings (hlen : xs.length = c.params.length) :
    ((c.bindings xs).map (·.2)).reverse = xs := by
  rw [Clause.bindings, List.map_reverse, List.reverse_reverse]
  exact List.map_snd_zip (by simp [hlen])

/-- A clause is applied to a goal whose type its conclusion unifies with. -/
theorem proposes_clause {input : RuleInput} {out : RuleOutput} (hc : c ∈ P.clauses)
    (h : Tracks P L s) (ho : P.Own input.goal) (he : Ends (c.procedure input) s out s') :
    ∃ L', L.Grows L' ∧ L'.last = s'.lastId ∧
      ∀ p ∈ out.proposals, Proposes P L s.context L' input.goal p := by
  obtain ⟨hparams, hpremises, hconcl⟩ := Clause.isClosed_iff.1 (P.clauses_closed c hc)
  simp only [Clause.procedure, ends_bind, ends_adapt, ends_goalType, ends_goalHyps, ends_get,
    ends_unify] at he
  obtain ⟨target, _, ⟨d, hd, rfl, rfl⟩, hyps, _, ⟨d', hd', rfl, rfl⟩, _, u, ⟨rfl, rfl⟩, bound, v,
    hbound, b, w, hunify, he⟩ := he
  rw [hd] at hd'
  cases hd'
  have hdecl := h.conforms.decl _ d ho hd
  rw [hdecl.hyps, mapTypes_hyps] at hbound he
  obtain ⟨L₁, xs, hadv, hlast, hlen, rfl, hxs⟩ :=
    advance_makeParams hparams h (by simp) (ends_lift.1 hbound)
  rw [List.append_nil] at hunify he
  rw [show ((c.params.map (·.1)).zip xs).reverse = c.bindings xs from rfl] at hunify he
  simp only [Clause.instantiateParams_bindings, map_snd_bindings hlen] at hunify he
  rcases hunify with ⟨n, hn, rfl, rfl⟩ | ⟨-, rfl, rfl⟩
  · have hover := overTypes_fill (c := c) hconcl hxs
    obtain ⟨hadv', heq⟩ := Advance.unify hadv.conforms hover
      ((h.conforms.overTypes_instantiate hdecl.type).later h.conforms hadv.toLater) hn
    have hto := hadv.trans hadv'
    simp only [if_true, ends_bind, ends_adapt, ends_assign, ends_get, ends_pure] at he
    obtain ⟨ys, w, hys, -, _, ⟨k, hk, rfl⟩, _, w', ⟨rfl, rfl⟩, rfl, rfl⟩ := he
    have htr : Tracks P L₁ (v.withContext n) := ⟨hlast, hadv'.conforms⟩
    have hxs' (x : Var) (hx : x ∈ xs) := (hxs x hx).later hadv.conforms hadv'.toLater
    obtain ⟨L₂, hadv₂, hlast₂, hys⟩ :=
      advance_premises (L.claim? input.goal).isSome hpremises htr hxs' hys
    have hclaim := (hto.trans hadv₂).claim? h.conforms ho (Context.isDeclared_of_decl? hd)
    have hfit : Fits P L₂ w.context input.goal (.apply c.name ((xs ++ ys).map .var)) := by
      refine fits_clause hc hlen
        (fun x hx => (hxs' x hx).later hadv'.conforms hadv₂.toLater) (fun A hA => ?_)
        (by rwa [hclaim])
      have hA := hclaim.symm.trans hA
      exact hadv₂.instantiate_eq (overTypes_fill hconcl hxs')
        ((hdecl.claim A hA).1.later h.conforms hto.toLater)
        (heq.trans (hto.target_eq h.conforms ho hd hA))
    have hassign := Advance.assign hadv₂.conforms ho hfit hk
    have hfinal := (hto.trans hadv₂).trans hassign
    refine ⟨L₂, hfinal.grows, hlast₂, fun p hp => ?_⟩
    obtain rfl := List.mem_singleton.1 hp
    refine ⟨hfinal, isAssigned_of_assign hk, fun y hy => ?_⟩
    rcases List.mem_append.1 hy with hy | hy
    · obtain ⟨i, hi, rfl⟩ := List.mem_iff_getElem.1 hy
      obtain ⟨hown, hdeclared, -⟩ := hys.get hi (hys.length_eq ▸ hi)
      exact ⟨hown, hassign.declared hdeclared⟩
    · have hy := hxs y (List.mem_filter.1 hy).1
      exact ⟨hy.own, ((hadv'.trans hadv₂).trans hassign).declared hy.declared⟩
  · simp only [Bool.false_eq_true, if_false, ends_bind] at he
    obtain ⟨_, w, _, hthrow⟩ := he
    exact (ends_throw hthrow).elim

end

theorem ages_makeParams (hyps : LocalContext) (bound : List (String × Var))
    (params : List (String × Term)) : Ages (Clause.makeParams hyps bound params) := by
  induction params generalizing bound with
  | nil => exact ages_pure _
  | cons p rest ih => exact ages_bind (ages_mkGoal _ _) fun _ => ih _

theorem Clause.ages_procedure (c : Clause) (input : RuleInput) : Ages (c.procedure input).run := by
  refine ages_run_bind (ages_run_adapt _ (ages_goalType _)) fun _ =>
    ages_run_bind (ages_run_adapt _ (ages_goalHyps _)) fun _ => ages_run_bind ages_run_get
    fun _ => ages_run_bind (ages_run_lift (ages_makeParams _ _ _)) fun _ =>
    ages_run_bind (ages_run_lift (ages_unify _ _)) fun _ => ages_run_ite ?_ ?_
  · exact ages_run_bind (ages_run_mapM (fun _ => ages_run_lift (ages_mkGoal _ _)) _) fun _ =>
      ages_run_bind (ages_run_adapt _ (ages_updateContext _)) fun _ =>
      ages_run_bind ages_run_get fun _ => ages_run_pure _
  · exact ages_run_bind (ages_run_lift (ages_restore _)) fun _ => ages_run_throw _

theorem obeys_clause {r : Rule} {c : Clause} (hr : r.procedure = c.procedure)
    (hc : c ∈ P.clauses) : r.Obeys P where
  ages input := hr ▸ c.ages_procedure input
  proposes L s input out s' ht ho he := by
    rw [hr] at he
    exact proposes_clause hc ht ho he

/-- The rules of a specification take no number back. -/
theorem RuleSpec.ages_rule (r : RuleSpec) (input : RuleInput) :
    Ages (r.rule.procedure input).run := by
  rw [RuleSpec.rule]
  cases r.body with
  | assumption all => exact Assumption.ages_procedure all input
  | clause c => exact c.ages_procedure input

/-- The rules of a specification obey, if the problem has their clauses. -/
theorem obeys_rule {r : RuleSpec} (hc : ∀ c, r.body = .clause c → c ∈ P.clauses) :
    r.rule.Obeys P := by
  cases hb : r.body with
  | assumption all => exact obeys_assumption (by rw [RuleSpec.rule, hb]; rfl)
  | clause c => exact obeys_clause (by rw [RuleSpec.rule, hb]; rfl) (hc c hb)

end ProofSearch
