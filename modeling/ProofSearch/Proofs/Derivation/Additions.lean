import ProofSearch.Proofs.Derivation.Reductions

/-!
# What rules add to a state

A rule is run on a goal `x` in a context `m`.  Which variables are new in the state that it
proposes, and which of the old ones are assigned there?

1. `Adds`: the new variables have new numbers and are assigned or become subgoals; of the old ones,
   only `x` and those in its type are assigned.
2. `Unfolds.adds`: this holds if new variables are declared and some are bound, before `x` is
   assigned.
3. `Clause.Applied`: how a clause is applied.  `adds_hyp`, `Clause.adds_of_ends`: so it holds of
   hypotheses and of clauses.
4. `Rule.Adds`: the same for all proposals of a rule, which share no new variable.
-/

namespace ProofSearch

open Solver

/-- A set of variables that is closed under values has all that the values of its members
mention. -/
theorem Context.Plain.mem_of_occurs {n : Context} {W : Var → Prop} {y z : Var} (h : n.Plain y)
    (hW : ∀ y t, W y → n.binding? y = some (.value t) → ∀ z, t.occurs z = true → W z) (hy : W y)
    (hz : (n.instantiate (.var y)).occurs z = true) : W z := by
  induction h with
  | @unbound y hb =>
    rw [Context.instantiate_open hb] at hz
    obtain rfl : y = z := by simpa [Term.occurs] using hz
    exact hy
  | @value y t hb hall ih =>
    rw [(Context.Plain.value hb hall).instantiate_eq hb, Context.occurs_instantiate] at hz
    obtain ⟨w, hw, hwz⟩ := hz
    exact ih w hw (hW y t hy hb w hw) hwz

/-- All variables have numbers up to that of the ledger. -/
theorem Conforms.numbered {P : Problem} {L : Ledger} {m : Context} (h : Conforms P L m) :
    NumberedTo L.last m := by
  intro y hy
  by_cases ho : P.Own y
  · exact h.le_last y ho hy
  · have hbase := h.base_le
    have : ¬ P.base < y.index := fun hlt => ho (.inr hlt)
    omega

/-! ## Additions -/

/-- What the context `n` adds to `m`, in which `last` was the latest number, for the goal `x` of
type `target`: new variables that are assigned or among the subgoals, and values for `x` and for
variables of its type. -/
structure Adds (m : Context) (last : Nat) (x : Var) (target : Term) (n : Context)
    (goals : List Var) : Prop where
  fresh : ∀ y, n.isDeclared y = true → m.isDeclared y = false → last < y.index
  left : ∀ y, n.isDeclared y = true → m.isDeclared y = false → n.isAssigned y = true ∨ y ∈ goals
  made : ∀ y ∈ goals, n.isDeclared y = true ∧ m.isDeclared y = false
  within : ∀ y ∈ goals, ∃ v, n.binding? x = some (.value v) ∧ v.occurs y = true
  nodup : goals.Nodup
  reads : ∀ y, m.isDeclared y = true → m.isAssigned y = false → n.isAssigned y = true →
    y = x ∨ target.occurs y = true
  types : ∀ y ∈ goals, ∀ d, n.decl? y = some d → ∀ z, m.isDeclared z = true →
    (n.instantiate d.type).occurs z = true → target.occurs z = true

/-- Subgoals that are assigned need not be listed. -/
theorem Adds.filter {m n : Context} {last : Nat} {x : Var} {target : Term} {goals : List Var}
    (h : Adds m last x target n goals) :
    Adds m last x target n (goals.filter fun y => !n.isAssigned y) where
  fresh := h.fresh
  left y hn hm := by
    cases ha : n.isAssigned y with
    | true => exact .inl rfl
    | false =>
      refine .inr (List.mem_filter.2 ⟨(h.left y hn hm).resolve_left (by simp [ha]), ?_⟩)
      rw [ha]
      rfl
  made y hy := h.made y (List.mem_filter.1 hy).1
  within y hy := h.within y (List.mem_filter.1 hy).1
  nodup := h.nodup.filter _
  reads := h.reads
  types y hy := h.types y (List.mem_filter.1 hy).1

/-- The variables `xs` and `ys` are new in `n`, where their types are over `xs`, and variables in
`W` are bound to terms over `W`. -/
structure Unfolds (m : Context) (last : Nat) (xs ys : List Var) (W : Var → Prop) (n : Context) :
    Prop where
  fresh : ∀ y, y ∈ xs ∨ y ∈ ys → m.isDeclared y = false ∧ last < y.index
  nodup : (ys ++ xs).Nodup
  old : ∀ y, y ∉ xs → y ∉ ys → n.decl? y = m.decl? y
  new : ∀ y, y ∈ xs ∨ y ∈ ys → ∃ d, n.decl? y = some d ∧ ∀ z, d.type.occurs z = true → z ∈ xs
  bound : ∀ y b, n.binding? y = some b → m.binding? y = some b ∨
    W y ∧ ∃ t, b = .value t ∧ ∀ z, t.occurs z = true → W z

namespace Unfolds

variable {m n k : Context} {last : Nat} {x : Var} {xs ys : List Var} {target v : Term}

/-- The new variables and those of the type are closed under values, once the goal is assigned to a
term over the new variables. -/
theorem closed
    (h : Unfolds m last xs ys (fun y => y ∈ xs ∨ y ∈ ys ∨ target.occurs y = true) n)
    (hk : n.assign x v = .ok k) (hv : ∀ y, v.occurs y = true → y ∈ xs ∨ y ∈ ys)
    (htarget : ∀ y, target.occurs y = true → m.binding? y = none) (y : Var) (t : Term)
    (hy : y ∈ xs ∨ y ∈ ys ∨ target.occurs y = true) (hb : k.binding? y = some (.value t)) (z : Var)
    (hz : t.occurs z = true) : z ∈ xs ∨ z ∈ ys ∨ target.occurs z = true := by
  by_cases hyx : y = x
  · rw [hyx, (Context.binding?_of_assign hk).2] at hb
    cases hb
    exact (hv z hz).imp_right .inl
  · rw [(Context.assign_frame hk y).2 hyx] at hb
    rcases h.bound y _ hb with hm | ⟨-, u, hu, hall⟩
    · rw [← or_assoc] at hy
      have hnone : m.binding? y = none :=
        hy.elim (fun hy => Context.binding?_of_not_declared (h.fresh y hy).1) (htarget y)
      exact nomatch hnone.symm.trans hm
    · cases hu
      exact hall z hz

/-- The goal is assigned to a term over the new variables. -/
theorem adds
    (h : Unfolds m last xs ys (fun y => y ∈ xs ∨ y ∈ ys ∨ target.occurs y = true) n)
    (hk : n.assign x v = .ok k) (hv : ∀ y, v.occurs y = true ↔ y ∈ xs ∨ y ∈ ys)
    (htarget : ∀ y, target.occurs y = true → m.binding? y = none)
    (hplain : ∀ y, y ∈ xs ∨ y ∈ ys ∨ target.occurs y = true → k.Plain y) :
    Adds m last x target k (ys ++ xs.filter fun y => !k.isAssigned y) := by
  have hold {y : Var} (hy : y ∈ xs ∨ y ∈ ys ∨ target.occurs y = true)
      (hm : m.isDeclared y = true) : target.occurs y = true := by
    rw [← or_assoc] at hy
    exact hy.resolve_left fun hy => nomatch hm.symm.trans (h.fresh y hy).1
  have hclosed := h.closed hk (fun y => (hv y).1) htarget
  have hnew {y : Var} (hy : k.isDeclared y = true) (hm : m.isDeclared y = false) :
      y ∈ xs ∨ y ∈ ys := by
    by_contra hc
    obtain ⟨hxs, hys⟩ := not_or.1 hc
    rw [Context.isDeclared_congr ((Context.assign_frame hk y).1.trans (h.old y hxs hys)), hm] at hy
    cases hy
  have hgoal {y : Var} (hy : y ∈ ys ++ xs.filter fun y => !k.isAssigned y) : y ∈ xs ∨ y ∈ ys :=
    (List.mem_append.1 hy).elim .inr fun hy => .inl (List.mem_filter.1 hy).1
  refine ⟨fun y hy hm => (h.fresh y (hnew hy hm)).2, fun y hy hm => ?_, fun y hy => ?_,
    fun y hy => ⟨v, (Context.binding?_of_assign hk).2, (hv y).2 (hgoal hy)⟩,
    h.nodup.sublist (List.filter_sublist.append_left ys), fun y hm hopen ha => ?_,
    fun y hy d hd z hz hocc => ?_⟩
  · rcases hnew hy hm with hxs | hys
    · cases ha : k.isAssigned y with
      | true => exact .inl rfl
      | false => exact .inr (List.mem_append_right _ (List.mem_filter.2 ⟨hxs, by rw [ha]; rfl⟩))
    · exact .inr (List.mem_append_left _ hys)
  · obtain ⟨d, hd, -⟩ := h.new y (hgoal hy)
    exact ⟨Context.isDeclared_of_decl? ((Context.assign_frame hk y).1.trans hd),
      (h.fresh y (hgoal hy)).1⟩
  · by_cases hyx : y = x
    · exact .inl hyx
    · obtain ⟨b, hb⟩ := Option.isSome_iff_exists.1 ha
      rw [(Context.assign_frame hk y).2 hyx] at hb
      rcases h.bound y b hb with hb | ⟨hW, -⟩
      · rw [Context.isAssigned, hb] at hopen
        cases hopen
      · exact .inr (hold hW hm)
  · obtain ⟨e, he, hover⟩ := h.new y (hgoal hy)
    cases ((Context.assign_frame hk y).1.trans he).symm.trans hd
    obtain ⟨w, hw, hwz⟩ := Context.occurs_instantiate.1 hocc
    have hw := hover w hw
    exact hold ((hplain w (.inl hw)).mem_of_occurs hclosed (.inl hw) hwz) hz

end Unfolds

section

variable {P : Problem} {L L' : Ledger} {s s' : Solver} {x : Var} {d : VarDecl} {m n k : Context}

/-! ## Hypotheses -/

theorem Conforms.binding_of_target (hm : Conforms P L m) (ho : P.Own x) (hd : m.decl? x = some d)
    {y : Var} (hy : (m.instantiate d.type).occurs y = true) : m.binding? y = none :=
  (hm.plainTerm (hm.decl x d ho hd).type).binding_of_occurs hy

/-- A goal that is closed by a hypothesis adds no variable. -/
theorem adds_hyp (last : Nat) (hm : Conforms P L m) (ho : P.Own x) (hd : m.decl? x = some d)
    {h : Hypothesis} (hclosed : h.type.hasVar = false)
    (hu : m.unify (m.instantiate d.type) h.type = some n)
    (ha : n.assign x (.hyp h.name) = .ok k) (hk : Conforms P L' k) :
    Adds m last x (m.instantiate d.type) k [] ∧ ∀ y, k.isDeclared y = m.isDeclared y := by
  have htype := (hm.decl x d ho hd).type
  have hover := hm.overTypes_instantiate htype
  have hb := Context.binds_unify hu (hm.plainTerm hover) (Context.plainTerm_closed hclosed)
  have hunfolds : Unfolds m last [] []
      (fun y => y ∈ [] ∨ y ∈ [] ∨ (m.instantiate d.type).occurs y = true) n := by
    refine ⟨by simp, .nil, fun y _ _ => hb.decl y, by simp, (hb.mono fun y hy => .inr (.inr ?_)).bound⟩
    rw [hm.instantiate_instantiate htype, Context.instantiate_closed hclosed] at hy
    exact hy.resolve_right (by simp [Term.hasVar_eq_false.1 hclosed])
  refine ⟨hunfolds.adds ha (by simp [Term.occurs]) (fun y => hm.binding_of_target ho hd) fun y hy =>
    hk.plain y (hover y (by simpa using hy)).own, fun y => ?_⟩
  exact Context.isDeclared_congr ((Context.assign_frame ha y).1.trans (hb.decl y))

/-! ## Clauses -/

/-- The clause with its first `i` parameters only. -/
def Clause.takeParams (c : Clause) (i : Nat) : Clause := { c with params := c.params.take i }

/-- How a clause is applied to the goal `x` with the declaration `d`: in `u` there are new variables
`xs` for the parameters, `n` is the context in which the conclusion has been unified with the type
of the goal, in `w` there are new variables `ys` for the premises, and in `k` the goal is
assigned. -/
structure Clause.Applied (c : Clause) (s : Solver) (x : Var) (d : VarDecl) (xs ys : List Var)
    (u : Solver) (n : Context) (w : Solver) (k : Context) : Prop where
  decl : s.context.decl? x = some d
  params : xs = freshVars s.lastId c.params.length
  premises : ys = freshVars u.lastId c.premises.length
  declareParams : u = s.declareAll (d.hyps.mapTypes s.context.instantiate)
    (Clause.paramTypes [] s.lastId c.params)
  unify : u.context.unify (c.fill (xs.map .var) c.conclusion) (s.context.instantiate d.type) = some n
  declarePremises : w = (u.withContext n).declareAll (d.hyps.mapTypes s.context.instantiate)
    (c.premises.map (c.fill (xs.map .var)))
  assign : w.context.assign x (.apply c.name ((xs ++ ys).map .var)) = .ok k

namespace Clause

variable {c : Clause} {y : Var} {xs ys : List Var} {u w : Solver} {input : RuleInput} {out : RuleOutput}

theorem ends_procedure (he : Ends (c.procedure input) s out s') : ∃ d xs ys u n w k,
    c.Applied s input.goal d xs ys u n w k ∧ out.proposals = [.capture s.state (w.withContext k)
      (ys ++ xs.filter fun y => !k.isAssigned y)] := by
  simp only [Clause.procedure, ends_bind, ends_adapt, ends_goalType, ends_goalHyps, ends_get,
    ends_unify] at he
  obtain ⟨target, _, ⟨d, hd, rfl, rfl⟩, hyps, _, ⟨d', hd', rfl, rfl⟩, _, u, ⟨rfl, rfl⟩, bound, v,
    hbound, b, w, hunify, he⟩ := he
  rw [hd] at hd'
  cases hd'
  have hbound := (Clause.run_makeParams ..).symm.trans (ends_lift.1 hbound)
  rw [List.append_nil] at hbound
  obtain ⟨rfl, hv⟩ := Prod.mk.inj hbound
  rw [show ((c.params.map (·.1)).zip (freshVars _ c.params.length)).reverse =
    c.bindings (freshVars _ c.params.length) from rfl] at hunify he
  simp only [Clause.instantiateParams_bindings, map_snd_bindings (length_freshVars ..)] at hunify he
  rcases hunify with ⟨n, hn, rfl, rfl⟩ | ⟨-, rfl, rfl⟩
  · simp only [if_true, ends_bind, ends_adapt, ends_assign, ends_get, ends_pure] at he
    obtain ⟨ys, w, hys, -, _, ⟨k, hk, rfl⟩, _, w', ⟨rfl, rfl⟩, rfl, rfl⟩ := he
    cases hys.symm.trans (Clause.ends_mkGoals ..)
    exact ⟨d, _, _, v, n, _, k, ⟨hd, rfl, rfl, hv.symm, hn, rfl, hk⟩, rfl⟩
  · simp only [Bool.false_eq_true, if_false, ends_bind] at he
    obtain ⟨_, w, _, hthrow⟩ := he
    exact (ends_throw hthrow).elim

/-- The value of the goal mentions the new variables. -/
theorem occurs_value :
    (Term.apply c.name ((xs ++ ys).map .var)).occurs y = true ↔ y ∈ xs ∨ y ∈ ys := by
  simp only [Term.occurs_apply, List.mem_map, List.mem_append, exists_exists_and_eq_and,
    Term.occurs, decide_eq_true_eq]
  exact exists_eq_right

namespace Applied

/-! ### The new variables -/

section

variable (h : c.Applied s x d xs ys u n w k)

include h

theorem lastId_eq : u.lastId = s.lastId + c.params.length := by
  rw [h.declareParams, lastId_declareAll, length_paramTypes]

theorem lt_index (hy : y ∈ xs ∨ y ∈ ys) : s.lastId < y.index := by
  rw [h.params, h.premises, mem_freshVars, mem_freshVars, h.lastId_eq] at hy
  omega

theorem not_mem_params (hy : y ∈ ys) : y ∉ xs := by
  rw [h.premises, mem_freshVars, h.lastId_eq] at hy
  rw [h.params, mem_freshVars]
  omega

theorem nodup : (ys ++ xs).Nodup := by
  rw [List.nodup_append]
  refine ⟨h.premises ▸ nodup_freshVars .., h.params ▸ nodup_freshVars .., ?_⟩
  rintro y hy _ hx rfl
  exact h.not_mem_params hy hx

/-- The parameters are declared in `u`, each with its type. -/
theorem decl?_param_unifier {i : Nat} {p : String × Term} (hp : c.params[i]? = some p)
    (hy : xs[i]? = some y) : u.context.decl? y =
      some { type := (c.takeParams i).fill (xs.map .var) p.2,
             hyps := d.hyps.mapTypes s.context.instantiate } := by
  rw [h.params] at hy ⊢
  rw [h.declareParams]
  refine decl?_declareAll_of_getElem? _ ?_ (by rwa [length_paramTypes])
  rw [getElem?_paramTypes, hp, List.append_nil, ← instantiateParams_bindings]
  rfl

theorem get?_of_not_mem_params (hy : y ∉ xs) : u.context.get? y = s.context.get? y := by
  rw [h.declareParams, get?_declareAll_of_not_mem]
  rwa [length_paramTypes, ← h.params]

/-- The premises are declared in `w`, each with its type. -/
theorem decl?_premise_value {i : Nat} {t : Term} (ht : c.premises[i]? = some t)
    (hy : ys[i]? = some y) : w.context.decl? y =
      some { type := c.fill (xs.map .var) t, hyps := d.hyps.mapTypes s.context.instantiate } := by
  rw [h.declarePremises]
  refine decl?_declareAll_of_getElem? _ (by rw [List.getElem?_map, ht]; rfl) ?_
  rwa [List.length_map, lastId_withContext, ← h.premises]

theorem binding?_params (y : Var) : u.context.binding? y = s.context.binding? y := by
  rw [h.declareParams, binding?_declareAll]

theorem binding?_premises (y : Var) : w.context.binding? y = n.binding? y := by
  rw [h.declarePremises, binding?_declareAll, context_withContext]

theorem get?_of_not_mem_premises (hy : y ∉ ys) : w.context.get? y = n.get? y := by
  rw [h.declarePremises]
  refine get?_declareAll_of_not_mem _ ?_
  rwa [List.length_map, lastId_withContext, ← h.premises]

theorem exists_param (hy : y ∈ xs) :
    ∃ (i : Nat) (p : String × Term), c.params[i]? = some p ∧ xs[i]? = some y := by
  rw [h.params] at hy ⊢
  exact exists_getElem?_of_mem_freshVars hy

theorem exists_premise (hy : y ∈ ys) :
    ∃ (i : Nat) (t : Term), c.premises[i]? = some t ∧ ys[i]? = some y := by
  rw [h.premises] at hy ⊢
  exact exists_getElem?_of_mem_freshVars hy

end

/-! ### The unifier -/

section

variable (h : c.Applied s x d xs ys u n w k) (hnum : NumberedTo s.lastId s.context)

include h hnum

theorem fresh (hy : y ∈ xs ∨ y ∈ ys) : s.context.isDeclared y = false :=
  (Bool.not_eq_true _).mp fun hd => absurd (hnum y hd) (Nat.not_le.2 (h.lt_index hy))

variable (hc : c.isClosed = true)
  (hopen : ∀ y, (s.context.instantiate d.type).occurs y = true → s.context.binding? y = none)

include hc hopen

/-- Parameters and variables in the type of the goal are bound to terms over such variables. -/
theorem binds :
    Context.Binds (fun y => y ∈ xs ∨ (s.context.instantiate d.type).occurs y = true) u.context n := by
  have hbinding := h.binding?_params
  obtain ⟨-, -, hconcl⟩ := isClosed_iff.1 hc
  have hleft (y : Var) (hy : (c.fill (xs.map .var) c.conclusion).occurs y = true) : y ∈ xs :=
    occurs_fill hconcl hy
  have hfree (y : Var) (hy : (c.fill (xs.map .var) c.conclusion).occurs y = true) :
      u.context.binding? y = none :=
    (hbinding y).trans (Context.binding?_of_not_declared (h.fresh hnum (.inl (hleft y hy))))
  have htarget (y : Var) (hy : (s.context.instantiate d.type).occurs y = true) :
      u.context.binding? y = none := (hbinding y).trans (hopen y hy)
  have hself {t : Term} (ht : ∀ z, t.occurs z = true → u.context.binding? z = none) :
      u.context.instantiate t = t :=
    Term.subst_eq_self fun z hz => Context.instantiate_open (ht z hz)
  have hb := Context.binds_unify h.unify (fun y hy => .unbound (hfree y hy))
    fun y hy => .unbound (htarget y hy)
  rw [hself hfree, hself htarget] at hb
  exact hb.mono fun y hy => hy.imp_left (hleft y)

theorem decl?_of_not_mem_premises (hy : y ∉ ys) : w.context.decl? y = u.context.decl? y := by
  rw [Context.decl?, h.get?_of_not_mem_premises hy]
  exact (h.binds hnum hc hopen).decl y

theorem unfolds : Unfolds s.context s.lastId xs ys
    (fun y => y ∈ xs ∨ y ∈ ys ∨ (s.context.instantiate d.type).occurs y = true) w.context := by
  obtain ⟨hparams, hpremises, -⟩ := isClosed_iff.1 hc
  have hdecl {y : Var} (hy : y ∉ ys) := h.decl?_of_not_mem_premises hnum hc hopen hy
  refine ⟨fun y hy => ⟨h.fresh hnum hy, h.lt_index hy⟩, h.nodup, fun y hyx hyy => ?_, fun y hy => ?_,
    fun y b hyb => ?_⟩
  · rw [hdecl hyy, Context.decl?, h.get?_of_not_mem_params hyx]
    rfl
  · by_cases hyy : y ∈ ys
    · obtain ⟨i, t, ht, hi⟩ := h.exists_premise hyy
      refine ⟨_, h.decl?_premise_value ht hi, fun z hz => ?_⟩
      exact occurs_fill (hpremises t (List.mem_of_getElem? ht)) hz
    · obtain ⟨i, p, hp, hi⟩ := h.exists_param (hy.resolve_right hyy)
      refine ⟨_, (hdecl hyy).trans (h.decl?_param_unifier hp hi), fun z hz => ?_⟩
      exact occurs_fill (hparams p (List.mem_of_getElem? hp)) hz
  · rw [h.binding?_premises] at hyb
    have hb := (h.binds hnum hc hopen).mono (W := fun y => y ∈ xs ∨ y ∈ ys ∨
      (s.context.instantiate d.type).occurs y = true) fun z hz => hz.imp_right .inr
    exact (hb.bound y b hyb).imp_left fun hu => (h.binding?_params y).symm.trans hu

end

end Applied

/-- A clause makes one proposal. -/
theorem adds_of_ends (hc : c.isClosed = true) (h : Tracks P L s) (ho : P.Own input.goal)
    (he : Ends (c.procedure input) s out s')
    (hp : ∀ p ∈ out.proposals, Conforms P L' p.post.context) :
    ∃ d p, s.context.decl? input.goal = some d ∧ out.proposals = [p] ∧
      Adds s.context s.lastId input.goal (s.context.instantiate d.type) p.post.context p.goals := by
  obtain ⟨d, xs, ys, u, n, w, k, ha, hout⟩ := ends_procedure he
  have hopen (y : Var) := h.conforms.binding_of_target ho ha.decl (y := y)
  refine ⟨d, _, ha.decl, hout, (ha.unfolds (h.last ▸ h.conforms.numbered) hc hopen).adds
    ha.assign (fun y => occurs_value) hopen fun y hy => ?_⟩
  refine (hp _ (hout ▸ List.mem_singleton_self _)).plain y ?_
  have hbase := h.conforms.base_le
  have hlast := h.last
  rcases hy with hy | hy | hy
  · rw [ha.params, mem_freshVars] at hy
    exact .inr (by omega)
  · rw [ha.premises, ha.declareParams, mem_freshVars, lastId_declareAll] at hy
    exact .inr (by omega)
  · exact (h.conforms.overTypes_instantiate (h.conforms.decl _ d ho ha.decl).type y hy).own

end Clause

end

/-! ## Rules -/

variable {P : Problem}

/-- Each proposal of the rule adds variables and values in the way of `Adds`, and no two proposals
have a new variable in common. -/
def Rule.Adds (P : Problem) (r : Rule) : Prop := ∀ L s input out s', Tracks P L s →
  P.Own input.goal → Ends (r.procedure input) s out s' → ∃ d, s.context.decl? input.goal = some d ∧
    (∀ p ∈ out.proposals, ProofSearch.Adds s.context s.lastId input.goal
      (s.context.instantiate d.type) p.post.context p.goals) ∧
    out.proposals.Pairwise fun p q => ∀ y, p.post.context.isDeclared y = true →
      q.post.context.isDeclared y = true → s.context.isDeclared y = true

theorem adds_assumption {r : Rule} {all : Bool} (hr : r.procedure = Assumption.procedure all) :
    r.Adds P := by
  intro L s input out s' h ho he
  obtain ⟨L', -, -, hall⟩ := (obeys_assumption hr).proposes L s input out s' h ho he
  rw [hr] at he
  obtain ⟨d, hd, -, -⟩ := Assumption.ends_procedure he
  have hadds (p : Proposal) (hp : p ∈ out.proposals) : ProofSearch.Adds s.context s.lastId
      input.goal (s.context.instantiate d.type) p.post.context p.goals ∧
      ∀ y, p.post.context.isDeclared y = s.context.isDeclared y := by
    obtain ⟨k, hk, hgoals, -, n, hn, ha⟩ := Assumption.closes_of_mem hd he hp
    rw [(h.conforms.decl _ d ho hd).hyps, mapTypes_hyps] at hk
    rw [hgoals]
    exact adds_hyp _ h.conforms ho hd (P.hyps_closed k hk) hn ha (hall p hp).advance.conforms
  exact ⟨d, hd, fun p hp => (hadds p hp).1,
    List.pairwise_of_forall_mem_list fun p hp _ _ y hy _ => (hadds p hp).2 y ▸ hy⟩

/-- The rules of a specification, if the problem has their clauses. -/
theorem adds_rule {r : RuleSpec} (hc : ∀ c, r.body = .clause c → c ∈ P.clauses) : r.rule.Adds P := by
  cases hb : r.body with
  | assumption all => exact adds_assumption (by rw [RuleSpec.rule, hb]; rfl)
  | clause c =>
    intro L s input out s' h ho he
    obtain ⟨L', -, -, hall⟩ := (obeys_rule hc).proposes L s input out s' h ho he
    rw [show r.rule.procedure = c.procedure by rw [RuleSpec.rule, hb]; rfl] at he
    obtain ⟨d, p, hd, hout, hadds⟩ := Clause.adds_of_ends (P.clauses_closed c (hc c hb)) h ho he
      fun p hp => (hall p hp).advance.conforms
    refine ⟨d, hd, fun q hq => ?_, by simp [hout]⟩
    rw [hout, List.mem_singleton] at hq
    exact hq ▸ hadds

end ProofSearch
