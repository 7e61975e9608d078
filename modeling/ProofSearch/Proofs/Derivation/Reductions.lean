import ProofSearch.Proofs.Derivation.Offers
import ProofSearch.Proofs.Derivation.Rules
import ProofSearch.Proofs.Derivation.Tidy
import ProofSearch.Proofs.Metavar.Matching

/-!
# Running determined rules

From a tidy state a determined rule reduces a goal in exactly the ways it offers.

1. `declareAll`: several variables are declared one after the other.
2. `Reduces`: a state in which a goal is reduced to other goals.
3. `responds_assumption`, `responds_clause`: a rule that fails offers no way, and every proposal of
   a rule that succeeds is the only way it offers.
4. `responds_rules`: the same for a rule that several specifications have in common.
-/

namespace ProofSearch

open Solver

/-! ## Declaring several variables -/

/-- The next `n` variables. -/
def freshVars (last n : Nat) : List Var := (List.range' (last + 1) n).map Var.mk

theorem mem_freshVars {last n : Nat} {y : Var} :
    y ∈ freshVars last n ↔ last < y.index ∧ y.index ≤ last + n := by
  obtain ⟨i⟩ := y
  simp only [freshVars, List.mem_map, List.mem_range'_1, Var.mk.injEq, exists_eq_right]
  omega

theorem nodup_freshVars (last n : Nat) : (freshVars last n).Nodup :=
  List.Nodup.map (fun _ _ h => congrArg Var.index h) (List.nodup_range' ..)

@[simp] theorem length_freshVars (last n : Nat) : (freshVars last n).length = n := by
  simp [freshVars]

theorem getElem_freshVars {last n i : Nat} (h : i < (freshVars last n).length) :
    (freshVars last n)[i] = ⟨last + 1 + i⟩ := by
  simp [freshVars]

theorem exists_getElem?_of_mem_freshVars {α : Type} {as : List α} {last : Nat} {y : Var}
    (hy : y ∈ freshVars last as.length) :
    ∃ (i : Nat) (a : α), as[i]? = some a ∧ (freshVars last as.length)[i]? = some y := by
  obtain ⟨i, hi, rfl⟩ := List.mem_iff_getElem.1 hy
  have hlt : i < as.length := by rwa [length_freshVars] at hi
  exact ⟨i, as[i], List.getElem?_eq_getElem hlt, List.getElem?_eq_getElem hi⟩

namespace Solver

/-- The solver with a variable for each type. -/
def declareAll (s : Solver) (hyps : LocalContext) (types : List Term) : Solver :=
  types.foldl (fun s type => s.declareNext { type, hyps }) s

variable {s : Solver} {types : List Term}

theorem declareAll_cons (s : Solver) (hyps : LocalContext) (type : Term) (types : List Term) :
    s.declareAll hyps (type :: types) = (s.declareNext { type, hyps }).declareAll hyps types := rfl

theorem lastId_declareAll {hyps : LocalContext} :
    (s.declareAll hyps types).lastId = s.lastId + types.length := by
  induction types generalizing s with
  | nil => rfl
  | cons type types ih =>
    rw [declareAll_cons, ih, List.length_cons]
    show s.lastId + 1 + types.length = _
    omega

theorem get?_declareNext (s : Solver) (d : VarDecl) (y : Var) : (s.declareNext d).context.get? y =
    if y = ⟨s.lastId + 1⟩ then some ⟨d, s.context.binding? y⟩ else s.context.get? y := by
  rw [show (s.declareNext d).context = s.context.declareFresh ⟨s.lastId + 1⟩ d from rfl,
    Context.get?_declareFresh]
  split
  · next h => rw [h]
  · rfl

@[simp] theorem binding?_declareNext (s : Solver) (d : VarDecl) (y : Var) :
    (s.declareNext d).context.binding? y = s.context.binding? y :=
  Context.binding?_declareFresh ..

/-- Variables other than the new ones stay as they are. -/
theorem get?_declareAll_of_not_mem (hyps : LocalContext) {y : Var}
    (hy : y ∉ freshVars s.lastId types.length) :
    (s.declareAll hyps types).context.get? y = s.context.get? y := by
  rw [mem_freshVars] at hy
  induction types generalizing s with
  | nil => rfl
  | cons type types ih =>
    rw [List.length_cons] at hy
    rw [declareAll_cons, ih, get?_declareNext, if_neg]
    · rintro rfl
      exact hy ⟨Nat.lt_succ_self _, by simp⟩
    · show ¬ (s.lastId + 1 < y.index ∧ y.index ≤ s.lastId + 1 + types.length)
      omega

theorem get?_declareAll_of_mem (hyps : LocalContext) {y : Var}
    (hy : y ∈ freshVars s.lastId types.length) :
    ∃ i type, types[i]? = some type ∧ y = ⟨s.lastId + 1 + i⟩ ∧
      (s.declareAll hyps types).context.get? y =
        some ⟨{ type, hyps }, s.context.binding? y⟩ := by
  induction types generalizing s with
  | nil =>
    rw [mem_freshVars] at hy
    simp at hy
    omega
  | cons type types ih =>
    by_cases hfirst : y = ⟨s.lastId + 1⟩
    · refine ⟨0, type, rfl, hfirst, ?_⟩
      rw [declareAll_cons, get?_declareAll_of_not_mem, get?_declareNext, if_pos hfirst]
      rw [mem_freshVars, hfirst]
      show ¬ (s.lastId + 1 < s.lastId + 1 ∧ _)
      omega
    · have hrest : y ∈ freshVars (s.declareNext { type, hyps }).lastId types.length := by
        rw [mem_freshVars, List.length_cons] at hy
        rw [mem_freshVars]
        show s.lastId + 1 < y.index ∧ y.index ≤ s.lastId + 1 + types.length
        have : y.index ≠ s.lastId + 1 := fun h => hfirst (Var.eq_iff.2 h)
        omega
      obtain ⟨i, type', htype, rfl, hget⟩ := ih hrest
      rw [binding?_declareNext] at hget
      refine ⟨i + 1, type', by simpa using htype, ?_, hget⟩
      show (⟨s.lastId + 1 + 1 + i⟩ : Var) = _
      congr 1
      omega

/-- The types are those of the new variables, in order. -/
theorem decl?_declareAll_of_getElem? (hyps : LocalContext) {i : Nat} {type : Term} {y : Var}
    (ht : types[i]? = some type) (hy : (freshVars s.lastId types.length)[i]? = some y) :
    (s.declareAll hyps types).context.decl? y = some { type, hyps } := by
  obtain ⟨j, type', ht', hj, hget⟩ := get?_declareAll_of_mem hyps (List.mem_of_getElem? hy)
  obtain ⟨hi, rfl⟩ := List.getElem?_eq_some_iff.1 hy
  rw [getElem_freshVars, Var.mk.injEq, Nat.add_left_cancel_iff] at hj
  cases hj
  cases ht.symm.trans ht'
  rw [Context.decl?, hget]
  rfl

@[simp] theorem binding?_declareAll (s : Solver) (hyps : LocalContext) (types : List Term)
    (y : Var) : (s.declareAll hyps types).context.binding? y = s.context.binding? y := by
  induction types generalizing s with
  | nil => rfl
  | cons type types ih => rw [declareAll_cons, ih, binding?_declareNext]

theorem extends_declareAll (s : Solver) (hyps : LocalContext) (types : List Term) :
    s.context.Extends (s.declareAll hyps types).context :=
  fun y _ hb => (binding?_declareAll s hyps types y).trans hb

end Solver

namespace Clause

/-- The types of the variables that are made for parameters, the latest of the earlier parameters
first. -/
def paramTypes (bound : List (String × Var)) (last : Nat) : List (String × Term) → List Term
  | [] => []
  | (name, type) :: rest =>
    instantiateParams bound type :: paramTypes ((name, ⟨last + 1⟩) :: bound) (last + 1) rest

theorem length_paramTypes (bound : List (String × Var)) (last : Nat)
    (params : List (String × Term)) : (paramTypes bound last params).length = params.length := by
  induction params generalizing bound last with
  | nil => rfl
  | cons p rest ih => simp [paramTypes, ih]

theorem run_makeParams (hyps : LocalContext) (bound : List (String × Var))
    (params : List (String × Term)) (s : Solver) : (makeParams hyps bound params).run s =
      (((params.map (·.1)).zip (freshVars s.lastId params.length)).reverse ++ bound,
        s.declareAll hyps (paramTypes bound s.lastId params)) := by
  induction params generalizing bound s with
  | nil => rfl
  | cons p rest ih =>
    obtain ⟨name, type⟩ := p
    have hstep : (makeParams hyps bound ((name, type) :: rest)).run s =
        (makeParams hyps ((name, ⟨s.lastId + 1⟩) :: bound) rest).run
          (s.declareNext { type := instantiateParams bound type, hyps }) := rfl
    rw [hstep, ih]
    refine Prod.ext ?_ rfl
    show _ = (((name, (⟨s.lastId + 1⟩ : Var)) ::
      (rest.map (·.1)).zip (freshVars (s.lastId + 1) rest.length)).reverse ++ bound)
    rw [List.reverse_cons, List.append_assoc]
    rfl

/-- In the type of a parameter the earlier parameters are filled in. -/
theorem getElem?_paramTypes (bound : List (String × Var)) (last i : Nat)
    (params : List (String × Term)) : (paramTypes bound last params)[i]? = params[i]?.map fun p =>
      instantiateParams ((((params.take i).map (·.1)).zip (freshVars last params.length)).reverse ++
        bound) p.2 := by
  induction params generalizing bound last i with
  | nil => rfl
  | cons p rest ih =>
    obtain ⟨name, type⟩ := p
    cases i with
    | zero => rfl
    | succ i =>
      rw [paramTypes, List.getElem?_cons_succ, List.getElem?_cons_succ, ih]
      show _ = rest[i]?.map fun p => instantiateParams
        (((name, (⟨last + 1⟩ : Var)) ::
          ((rest.take i).map (·.1)).zip (freshVars (last + 1) rest.length)).reverse ++ bound) p.2
      simp only [List.reverse_cons, List.append_assoc, List.singleton_append]

/-- The type of a parameter mentions earlier parameters only. -/
theorem occurs_paramTypes {bound : List (String × Var)} {last i : Nat}
    {params : List (String × Term)} (hp : ∀ p ∈ params, p.2.hasVar = false) {type : Term}
    (ht : (paramTypes bound last params)[i]? = some type) {y : Var} (hy : type.occurs y = true) :
    (∃ b ∈ bound, b.2 = y) ∨ last < y.index ∧ y.index < last + 1 + i := by
  induction params generalizing bound last i with
  | nil => simp [paramTypes] at ht
  | cons p rest ih =>
    cases i with
    | zero =>
      obtain rfl : instantiateParams bound p.2 = type := by simpa [paramTypes] using ht
      exact .inl (occurs_instantiateParams (hp p List.mem_cons_self) hy)
    | succ i =>
      rcases ih (fun q hq => hp q (List.mem_cons_of_mem p hq)) (by simpa [paramTypes] using ht) with
        ⟨b, hb, rfl⟩ | hy
      · rcases List.mem_cons.1 hb with rfl | hb
        · exact .inr ⟨Nat.lt_succ_self _, by simp⟩
        · exact .inl ⟨b, hb, rfl⟩
      · exact .inr (by omega)

/-- Goals are made one after the other. -/
theorem ends_mkGoals {ε α : Type} (hyps : LocalContext) (f : α → Term) (as : List α) (s : Solver) :
    Ends (as.mapM fun a => (liftM (mkGoal (f a) hyps) : SolverM ε Var)) s
      (freshVars s.lastId as.length) (s.declareAll hyps (as.map f)) := by
  induction as generalizing s with
  | nil => exact ends_pure.2 ⟨rfl, rfl⟩
  | cons a rest ih =>
    simp only [List.mapM_cons, ends_bind, ends_mkGoal, ends_pure]
    exact ⟨_, _, ⟨rfl, rfl⟩, _, _, ih _, rfl, rfl⟩

end Clause

/-! ## Reductions -/

/-- From `m` the goal `x` is reduced to `goals`, which have the types `premises` in `n`. -/
structure Reduces (P : Problem) (σ : Valuation) (m : Context) (x : Var) (premises : List Term)
    (n : Context) (goals : List Var) : Prop where
  tidy : Tidy P σ n
  extension : m.Extends n
  others : ∀ y, P.Own y → σ.value? y = none → y ≠ x → n.binding? y = m.binding? y
  value : ∃ v, n.binding? x = some (.value v) ∧
    ∀ y, v.occurs y = true → (σ.value? y).isSome = true ∨ y ∈ goals
  nodup : goals.Nodup
  goals : List.Forall₂ (fun y B => P.Own y ∧ σ.value? y = none ∧ n.isAssigned y = false ∧
    n.goalType y = .ok B) goals premises

/-- The proposal reports its effects and reduces the goal in the only way in `W`. -/
structure ProposesWay (P : Problem) (σ : Valuation) (m : Context) (x : Var)
    (W : List Term → Prop) (p : Proposal) : Prop where
  introduced : p.introduced = p.post.context.declaredSince m
  assigned : p.assigned = p.post.context.assignedSince m
  way : ∃ premises, (∀ ts, W ts ↔ ts = premises) ∧
    Reduces P σ m x premises p.post.context p.goals

/-- A goal of the search in a tidy state that is up to date. -/
structure Poised (P : Problem) (σ : Valuation) (s : Solver) (x : Var) (d : VarDecl) : Prop where
  tidy : Tidy P σ s.context
  last : σ.last = s.lastId
  own : P.Own x
  proof : σ.value? x = none
  decl : s.context.decl? x = some d
  unbound : s.context.binding? x = none

/-- The procedure fails only if there is no way in `W`, and otherwise proposes the only one. -/
def Responds (P : Problem) (σ : Valuation) (s : Solver) (x : Var) (W : List Term → Prop)
    (y : SolverM RuleError RuleOutput) : Prop :=
  Yields y s (fun _ => ∀ premises, ¬ W premises) fun out s' =>
    out.proposals ≠ [] ∧ ∃ σ', σ.Grows σ' ∧ σ'.last = s'.lastId ∧
      ∀ p ∈ out.proposals, ProposesWay P σ' s.context x W p

section

variable {P : Problem} {σ : Valuation} {m n : Context} {s : Solver} {x : Var} {d : VarDecl}

/-- An open proof variable gets a value. -/
theorem Tidy.assign (h : Tidy P σ m) {v : Term} (hx : σ.value? x = none)
    (hd : m.decl? x = some d) (hb : m.binding? x = none) (hv : TidyValue P σ m x v) :
    Tidy P σ (m.bind x d (.value v)) := by
  have hkeep := Context.decl?_bind_of_decl? hd (.value v)
  have hdeclared {y : Var} (hy : (m.bind x d (.value v)).isDeclared y = true) :
      m.isDeclared y = true := by
    obtain ⟨e, he⟩ := Context.exists_decl? hy
    exact Context.isDeclared_of_decl? ((hkeep y).symm.trans he)
  have hpar {y : Var} (hy : IsParam P σ m y) : IsParam P σ (m.bind x d (.value v)) y := by
    obtain ⟨e, he⟩ := Context.exists_decl? hy.declared
    exact ⟨hy.own, Context.isDeclared_of_decl? ((hkeep y).trans he), hy.value⟩
  refine h.extend (Context.extends_bind hb d _) (fun y e he => (hkeep y).trans he)
    (fun y e _ he => .inl ((hkeep y).symm.trans he)) (fun y u _ hy _ => .inl (hdeclared hy))
    fun y b _ _ hy => ?_
  rw [Context.binding?_bind] at hy
  split at hy
  · next hyx =>
    obtain rfl := hyx
    cases hy
    exact .inr ⟨v, rfl, fun z hz => (hv z hz).imp_left hpar⟩
  · exact .inl hy

theorem isAssigned_of_binding? {b : Binding} (h : m.binding? x = some b) :
    m.isAssigned x = true := by
  rw [Context.isAssigned, h]
  rfl

/-- A term that does not mention the goal can be assigned to it. -/
theorem assign_of_unbound {t : Term} (hd : m.decl? x = some d) (hb : m.binding? x = none)
    (ht : (m.instantiate t).occurs x = false) : m.assign x t = .ok (m.bind x d (.value t)) :=
  Context.assign_eq_ok_iff.2 ⟨d, Context.assignable_iff_open.2 ⟨hd, hb⟩, ht, rfl⟩

namespace Poised

theorem hyps (h : Poised P σ s x d) : d.hyps.mapTypes s.context.instantiate = P.hyps := by
  rw [(h.tidy.decl x d h.own h.decl).hyps, mapTypes_hyps]

theorem closed (h : Poised P σ s x d) : (s.context.instantiate d.type).hasVar = false :=
  h.tidy.instantiate_closed fun y hy => ((h.tidy.decl x d h.own h.decl).type y hy).1

end Poised

/-! ## Hypotheses -/

/-- A goal is closed by a hypothesis of its type. -/
theorem reduces_hyp (h : Poised P σ s x d) (name : String) :
    Reduces P σ s.context x [] (s.context.bind x d (.value (.hyp name))) [] where
  tidy := h.tidy.assign h.proof h.decl h.unbound nofun
  extension := Context.extends_bind h.unbound d _
  others y _ _ hyx := by rw [Context.binding?_bind, if_neg hyx]
  value := ⟨.hyp name, by rw [Context.binding?_bind, if_pos rfl], nofun⟩
  nodup := .nil
  goals := .nil

/-- The hypotheses of the right type are proposed, or the first of them. -/
theorem ends_proposals {A : Term} {hyps : List Hypothesis} (all : Bool) (s : Solver)
    (pre : Snapshot) (hd : pre.context.decl? x = some d) (hb : pre.context.binding? x = none)
    (hA : A.hasVar = false) (hh : ∀ h ∈ hyps, h.type.hasVar = false) :
    ∃ found s', Ends (Assumption.proposals x A pre all hyps) s found s' ∧ s'.lastId = s.lastId ∧
      (found = [] → ∀ h ∈ hyps, h.type ≠ A) ∧ ∀ p ∈ found, ∃ h ∈ hyps, h.type = A ∧ ∃ u : Solver,
        u.context = pre.context.bind x d (.value (.hyp h.name)) ∧
        p = Proposal.capture pre u [] := by
  induction hyps generalizing s with
  | nil => exact ⟨[], s, ends_pure.2 ⟨rfl, rfl⟩, rfl, fun _ => List.forall_mem_nil _,
      List.forall_mem_nil _⟩
  | cons h rest ih =>
    have hrest (k : Hypothesis) (hk : k ∈ rest) : k.type.hasVar = false :=
      hh k (List.mem_cons_of_mem h hk)
    have hunify := @Context.unify_closed pre.context _ _ hA (hh h List.mem_cons_self)
    simp only [Assumption.proposals, ends_bind, ends_restore, ends_unify]
    by_cases heq : A = h.type
    · rw [if_pos heq] at hunify
      let u : Solver := ⟨⟨pre.context.bind x d (.value (.hyp h.name)), pre.env⟩, s.lastId⟩
      have hassign := assign_of_unbound (t := .hyp h.name) hd hb
        (by rw [Context.instantiate_closed rfl]; rfl)
      have hfirst : ∃ k ∈ h :: rest, k.type = A ∧ ∃ v : Solver,
          v.context = pre.context.bind x d (.value (.hyp k.name)) ∧
          Proposal.capture pre u [] = Proposal.capture pre v [] :=
        ⟨h, List.mem_cons_self, heq.symm, u, rfl, rfl⟩
      obtain ⟨found, s', hends, hlast, -, hall⟩ := ih u hrest
      cases all with
      | false =>
        refine ⟨[.capture pre u []], u, ⟨(), _, rfl, true, _, .inl ⟨_, hunify, rfl, rfl⟩, ?_⟩, rfl,
          (by rintro ⟨⟩), fun p hp => ?_⟩
        · simp only [if_true, ends_bind, ends_adapt, ends_assign, ends_get]
          exact ⟨(), u, ⟨_, hassign, rfl⟩, u, u, ⟨rfl, rfl⟩, ends_pure.2 ⟨rfl, rfl⟩⟩
        · rw [List.mem_singleton.1 hp]
          exact hfirst
      | true =>
        refine ⟨.capture pre u [] :: found, s',
          ⟨(), _, rfl, true, _, .inl ⟨_, hunify, rfl, rfl⟩, ?_⟩, hlast, (by rintro ⟨⟩), fun p hp => ?_⟩
        · simp only [if_true, ends_bind, ends_adapt, ends_assign, ends_get, ends_pure]
          exact ⟨(), u, ⟨_, hassign, rfl⟩, u, u, ⟨rfl, rfl⟩, found, s', hends, rfl, rfl⟩
        · rcases List.mem_cons.1 hp with rfl | hp
          · exact hfirst
          · obtain ⟨k, hk, hend⟩ := hall p hp
            exact ⟨k, List.mem_cons_of_mem h hk, hend⟩
    · rw [if_neg heq] at hunify
      obtain ⟨found, s', hends, hlast, hnone, hall⟩ := ih { s with state := pre } hrest
      refine ⟨found, s', ⟨(), _, rfl, false, _, .inr ⟨hunify, rfl, rfl⟩, hends⟩, hlast,
        fun hf k hk => ?_, fun p hp => ?_⟩
      · rcases List.mem_cons.1 hk with rfl | hk
        · exact fun h => heq h.symm
        · exact hnone hf k hk
      · obtain ⟨k, hk, hend⟩ := hall p hp
        exact ⟨k, List.mem_cons_of_mem h hk, hend⟩

theorem responds_assumption (h : Poised P σ s x d) {input : RuleInput} (hx : input.goal = x)
    (all : Bool) :
    Responds P σ s x (RuleBody.Offers P.hyps (s.context.instantiate d.type) (.assumption all))
      (Assumption.procedure all input) := by
  subst hx
  have hclosed : ∀ k ∈ P.hyps.reverse, k.type.hasVar = false :=
    fun k hk => P.hyps_closed k (List.mem_reverse.1 hk)
  obtain ⟨found, s', hends, hlast, hnone, hall⟩ :=
    ends_proposals all s s.state h.decl h.unbound h.closed hclosed
  unfold Assumption.procedure
  refine (ends_adapt.2 (ends_goalType.2 ⟨d, h.decl, rfl, rfl⟩)).bind ?_
  refine (ends_adapt.2 (ends_goalHyps.2 ⟨d, h.decl, rfl, rfl⟩)).bind ?_
  rw [h.hyps]
  refine (ends_get.2 ⟨rfl, rfl⟩).bind (hends.bind (((ends_restore (a := ())).2 rfl).bind ?_))
  split
  · next hempty =>
    refine yields_throw fun premises ho => ?_
    cases ho with
    | hyp hk hA => exact hnone (List.isEmpty_iff.1 hempty) _ (List.mem_reverse.2 hk) hA
  · next hne =>
    refine yields_pure ⟨fun he => hne (List.isEmpty_iff.2 he), σ, .refl σ, h.last.trans hlast.symm,
      fun p hp => ?_⟩
    obtain ⟨k, hk, hA, u, hu, rfl⟩ := hall p hp
    refine ⟨rfl, rfl, [], (RuleBody.Offers.hyp (List.mem_reverse.1 hk) hA).iff_eq rfl, ?_⟩
    show Reduces P σ s.context input.goal [] u.context []
    exact hu ▸ reduces_hyp h k.name

/-! ## Clauses -/

/-- The variables `xs` are new in `n` and have closed values there; nothing else has changed. -/
structure Matched (P : Problem) (m : Context) (xs : List Var) (n : Context) : Prop where
  old : ∀ y, y ∉ xs → n.decl? y = m.decl? y ∧ n.binding? y = m.binding? y
  decl : ∀ y ∈ xs, ∃ type, n.decl? y = some { type, hyps := P.hyps } ∧
    ∀ z, type.occurs z = true → z ∈ xs ∧ z.index < y.index
  value : ∀ y ∈ xs, ∃ u, n.binding? y = some (.value u) ∧ u.hasVar = false

namespace Matched

variable {k : Context} {xs : List Var} {y : Var}

/-- The values of the new variables stay. -/
theorem instantiate_eq (h : Matched P m xs n) (hext : n.Extends k) (hy : y ∈ xs) :
    k.instantiate (.var y) = n.instantiate (.var y) := by
  obtain ⟨u, hu, hclosed⟩ := h.value y hy
  rw [Context.instantiate_closed_value hu hclosed,
    Context.instantiate_closed_value (hext y _ hu) hclosed]

theorem isAssigned (h : Matched P m xs n) (hext : n.Extends k) (hy : y ∈ xs) :
    k.isAssigned y = true := by
  obtain ⟨u, hu, -⟩ := h.value y hy
  exact isAssigned_of_binding? (hext y _ hu)

end Matched

/-- New parameters have their values. -/
theorem Tidy.matched {count : Nat} (h : Tidy P σ m)
    (hn : Matched P m (freshVars σ.last count) n) : Tidy P (σ.addParams n count) n ∧
      ∀ y ∈ freshVars σ.last count, IsParam P (σ.addParams n count) n y := by
  have hnew {y : Var} (hy : y ∈ freshVars σ.last count) : m.get? y = none :=
    h.get?_of_lt (mem_freshVars.1 hy).1
  have hvalue {y : Var} (hy : y ∈ freshVars σ.last count) :
      (σ.addParams n count).value? y = Valuation.closedValue? n y := if_pos (mem_freshVars.1 hy)
  have hparam (y : Var) (hy : y ∈ freshVars σ.last count) :
      IsParam P (σ.addParams n count) n y := by
    obtain ⟨type, htype, -⟩ := hn.decl y hy
    refine ⟨h.own_of_lt (mem_freshVars.1 hy).1, Context.isDeclared_of_decl? htype, ?_⟩
    rw [hvalue hy, Valuation.closedValue?_eq_some.2 (hn.value y hy).choose_spec]
    rfl
  refine ⟨(h.grow (σ.grows_addParams n count)).extend (fun y b hb => ?_) (fun y d hd => ?_)
    (fun y d ho hd => ?_) (fun y u ho hy hu => ?_) fun y b ho hy hb => ?_, hparam⟩
  · by_cases hy : y ∈ freshVars σ.last count
    · rw [Context.binding?, hnew hy] at hb
      cases hb
    · exact (hn.old y hy).2.trans hb
  · by_cases hy : y ∈ freshVars σ.last count
    · rw [Context.decl?, hnew hy] at hd
      cases hd
    · exact (hn.old y hy).1.trans hd
  · by_cases hy : y ∈ freshVars σ.last count
    · obtain ⟨type, htype, hearlier⟩ := hn.decl y hy
      cases htype.symm.trans hd
      exact .inr ⟨(mem_freshVars.1 hy).2, rfl,
        fun z hz => ⟨hparam z (hearlier z hz).1, (hearlier z hz).2⟩⟩
    · exact .inl ((hn.old y hy).1.symm.trans hd)
  · by_cases hy' : y ∈ freshVars σ.last count
    · rw [hvalue hy'] at hu
      exact .inr (Valuation.closedValue?_eq_some.1 hu).1
    · obtain ⟨d, hd⟩ := Context.exists_decl? hy
      exact .inl (Context.isDeclared_of_decl? ((hn.old y hy').1.symm.trans hd))
  · by_cases hy' : y ∈ freshVars σ.last count
    · cases hy ▸ (hparam y hy').value
    · exact .inl ((hn.old y hy').2.symm.trans hb)

/-- New proof variables with types over parameters. -/
theorem Tidy.declareAll {types : List Term} (h : Tidy P σ s.context) (hlast : σ.last = s.lastId)
    (ht : ∀ t ∈ types, ∀ y, t.occurs y = true → IsParam P σ s.context y)
    (hle : σ.last ≤ (s.declareAll P.hyps types).lastId) :
    Tidy P (σ.raise hle) (s.declareAll P.hyps types).context := by
  have hnew {y : Var} (hy : y ∈ freshVars s.lastId types.length) : s.context.get? y = none :=
    h.get?_of_lt (hlast ▸ (mem_freshVars.1 hy).1)
  have hold {y : Var} (hy : y ∉ freshVars s.lastId types.length) :=
    get?_declareAll_of_not_mem P.hyps hy
  have hkeep (y : Var) (d : VarDecl) (hd : s.context.decl? y = some d) :
      (s.declareAll P.hyps types).context.decl? y = some d := by
    by_cases hy : y ∈ freshVars s.lastId types.length
    · rw [Context.decl?, hnew hy] at hd
      cases hd
    · rwa [Context.decl?, hold hy]
  refine (h.grow (σ.grows_raise hle)).extend (extends_declareAll s P.hyps types) hkeep
    (fun y d ho hd => ?_) (fun y u ho hy hu => ?_) fun y b ho hy hb =>
      .inl ((binding?_declareAll s P.hyps types y).symm.trans hb)
  · by_cases hy : y ∈ freshVars s.lastId types.length
    · obtain ⟨i, type, htype, rfl, hget⟩ := get?_declareAll_of_mem P.hyps hy
      rw [Context.decl?, hget] at hd
      cases hd
      refine .inr ⟨?_, rfl, fun z hz => ?_⟩
      · exact (mem_freshVars.1 hy).2.trans lastId_declareAll.ge
      · have hz := ht type (List.mem_of_getElem? htype) z hz
        obtain ⟨d, hd⟩ := Context.exists_decl? hz.declared
        refine ⟨⟨hz.own, Context.isDeclared_of_decl? (hkeep z d hd), hz.value⟩, ?_⟩
        have := h.le_last hz.own hz.declared
        show z.index < s.lastId + 1 + i
        omega
    · rw [Context.decl?, hold hy] at hd
      exact .inl hd
  · by_cases hy' : y ∈ freshVars s.lastId types.length
    · have := (mem_freshVars.1 hy').1
      have := σ.le_last y u hu
      omega
    · rw [Context.isDeclared, hold hy'] at hy
      exact .inl hy

/-- The parameters `xs` and the goals `ys` are new in `n`, where the goals are declared with the
given types; nothing else has changed. -/
structure Opened (P : Problem) (σ : Valuation) (m : Context) (xs ys : List Var) (types : List Term)
    (n : Context) : Prop where
  tidy : Tidy P σ n
  params : ∀ y ∈ xs, IsParam P σ n y
  goals : List.Forall₂ (fun y type => P.Own y ∧ σ.value? y = none ∧
    n.get? y = some ⟨{ type, hyps := P.hyps }, none⟩) ys types
  nodup : ys.Nodup
  old : ∀ y, y ∉ xs → y ∉ ys → n.decl? y = m.decl? y ∧ n.binding? y = m.binding? y
  fresh : ∀ y, y ∈ xs ∨ y ∈ ys → m.get? y = none ∧
    ∀ z, P.Own z → m.isDeclared z = true → z.index < y.index

/-- Goals are declared behind parameters with values. -/
theorem opened_declareAll {u : Solver} {count : Nat} (types : List Term) (h : Poised P σ s x d)
    (hu : u.lastId = s.lastId + count)
    (hn : Matched P s.context (freshVars s.lastId count) u.context)
    (ht : ∀ t ∈ types, ∀ y, t.occurs y = true → y ∈ freshVars s.lastId count) :
    ∃ σ', σ.Grows σ' ∧ σ'.last = (u.declareAll P.hyps types).lastId ∧
      u.context.Extends (u.declareAll P.hyps types).context ∧
      Opened P σ' s.context (freshVars s.lastId count) (freshVars u.lastId types.length) types
        (u.declareAll P.hyps types).context := by
  rw [← h.last] at hn ht hu ⊢
  obtain ⟨htidy, hparam⟩ := h.tidy.matched hn
  have hle : (σ.addParams u.context count).last ≤ (u.declareAll P.hyps types).lastId := by
    rw [lastId_declareAll, hu]
    exact Nat.le_add_right ..
  have hall := htidy.declareAll hu.symm (fun t ht' y hy => hparam y (ht t ht' y hy)) hle
  have hapart {y : Var} (hy : y ∈ freshVars σ.last count) :
      y ∉ freshVars u.lastId types.length := by
    rw [mem_freshVars] at hy ⊢
    omega
  have hlater (y : Var) (hy : y ∈ freshVars σ.last count ∨ y ∈ freshVars u.lastId types.length) :
      σ.last < y.index := by
    simp only [mem_freshVars] at hy
    omega
  refine ⟨_, (σ.grows_addParams ..).trans (Valuation.grows_raise _ hle), rfl,
    extends_declareAll u P.hyps types, hall,
    fun y hy => ?_, ?_, nodup_freshVars .., fun y hx hy => ?_, fun y hy => ⟨?_, fun z ho hz => ?_⟩⟩
  · obtain ⟨hown, hdecl, hvalue⟩ := hparam y hy
    refine ⟨hown, ?_, hvalue⟩
    rwa [Context.isDeclared, get?_declareAll_of_not_mem P.hyps (hapart hy)]
  · refine List.forall₂_iff_get.2 ⟨length_freshVars .., fun i hi hi' => ?_⟩
    have hy := List.get_mem (freshVars u.lastId types.length) ⟨i, hi⟩
    obtain ⟨j, type, htype, hj, hget⟩ := get?_declareAll_of_mem P.hyps hy
    have hlt := (mem_freshVars.1 hy).1
    refine ⟨h.tidy.own_of_lt (by omega), ?_, ?_⟩
    · refine Option.eq_none_iff_forall_ne_some.2 fun v hv => ?_
      have := (σ.addParams u.context count).le_last _ v hv
      have : (σ.addParams u.context count).last = u.lastId := hu.symm
      omega
    · obtain rfl : i = j := by
        rw [List.get_eq_getElem, getElem_freshVars hi] at hj
        have := congrArg Var.index hj
        simpa using this
      have hfree := htidy.binding?_of_lt (hu.symm.trans_lt hlt)
      rw [hget, hfree, List.get_eq_getElem, (List.getElem?_eq_some_iff.1 htype).2]
  · obtain ⟨hd, hb⟩ := hn.old y hx
    rw [Context.decl?, Context.binding?, get?_declareAll_of_not_mem P.hyps hy]
    exact ⟨hd, hb⟩
  · exact h.tidy.get?_of_lt (hlater y hy)
  · exact (h.tidy.le_last ho hz).trans_lt (hlater y hy)

namespace Opened

variable {xs ys : List Var} {types : List Term} {v : Term}

/-- The new goals are open. -/
theorem goal (h : Opened P σ m xs ys types n) {y : Var} (hy : y ∈ ys) : P.Own y ∧
    σ.value? y = none ∧ n.isDeclared y = true ∧ n.binding? y = none := by
  obtain ⟨i, hi, rfl⟩ := List.mem_iff_getElem.1 hy
  obtain ⟨hown, hproof, hget⟩ := h.goals.get hi (h.goals.length_eq ▸ hi)
  rw [List.get_eq_getElem] at hget
  refine ⟨hown, hproof, Option.isSome_iff_exists.2 ⟨_, hget⟩, ?_⟩
  rw [Context.binding?, hget]
  rfl

theorem extension (h : Opened P σ m xs ys types n) : m.Extends n := by
  intro y b hb
  by_cases hnew : y ∈ xs ∨ y ∈ ys
  · rw [Context.binding?, (h.fresh y hnew).1] at hb
    cases hb
  · exact (h.old y (fun hx => hnew (.inl hx)) fun hy => hnew (.inr hy)).2.trans hb

/-- A term over new parameters and goals does not lead back to an old variable. -/
theorem occurs_instantiate (h : Opened P σ m xs ys types n)
    (hv : ∀ y, v.occurs y = true → y ∈ xs ∨ y ∈ ys) (hx : x ∉ ys) :
    (n.instantiate v).occurs x = false := by
  refine (Bool.not_eq_true _).mp fun hin => ?_
  obtain ⟨y, hy, hyx⟩ := Context.occurs_instantiate.1 hin
  rcases hv y hy with hy | hy
  · rw [Term.hasVar_eq_false.1 (h.tidy.instantiate_param (h.params y hy))] at hyx
    cases hyx
  · rw [Context.instantiate_open (h.goal hy).2.2.2] at hyx
    obtain rfl : y = x := by simpa [Term.occurs, eq_comm] using hyx
    exact hx hy

/-- A goal is reduced by a term over new parameters and goals. -/
theorem reduces (h : Opened P σ m xs ys types n) (hd : m.decl? x = some d)
    (hb : m.binding? x = none) (ho : P.Own x) (hx : σ.value? x = none)
    (hv : ∀ y, v.occurs y = true → y ∈ xs ∨ y ∈ ys) :
    n.assign x v = .ok (n.bind x d (.value v)) ∧
      Reduces P σ m x (types.map n.instantiate) (n.bind x d (.value v)) ys := by
  have hlater (y : Var) (hy : y ∈ xs ∨ y ∈ ys) : x.index < y.index :=
    (h.fresh y hy).2 x ho (Context.isDeclared_of_decl? hd)
  have hne (y : Var) (hy : y ∈ xs ∨ y ∈ ys) : y ≠ x := by
    rintro rfl
    exact absurd (hlater y hy) (lt_irrefl _)
  have hys : x ∉ ys := fun hx => hne x (.inr hx) rfl
  obtain ⟨hdn, hbn⟩ := h.old x (fun hx => hne x (.inl hx) rfl) hys
  rw [hd] at hdn
  rw [hb] at hbn
  have hvalue : TidyValue P σ n x v := by
    intro y hy
    refine (hv y hy).imp (h.params y) fun hys => ?_
    obtain ⟨hown, hproof, hdecl, -⟩ := h.goal hys
    exact ⟨hown, hproof, hlater y (.inr hys), h.tidy.le_last hown hdecl⟩
  have hext : n.Extends (n.bind x d (.value v)) := Context.extends_bind hbn d _
  refine ⟨assign_of_unbound hdn hbn (h.occurs_instantiate hv hys), h.tidy.assign hx hdn hbn hvalue,
    fun y b hy => hext y b (h.extension y b hy), fun y hown hy hyx => ?_, ⟨v, ?_, fun y hy => ?_⟩,
    h.nodup, ?_⟩
  · rw [Context.binding?_bind, if_neg hyx]
    by_cases hxs : y ∈ xs
    · exact nomatch hy ▸ (h.params y hxs).value
    · by_cases hys : y ∈ ys
      · rw [(h.goal hys).2.2.2, Context.binding?, (h.fresh y (.inr hys)).1]
        rfl
      · exact (h.old y hxs hys).2
  · rw [Context.binding?_bind, if_pos rfl]
  · exact (hv y hy).imp_left fun hy => (h.params y hy).value
  · refine List.forall₂_map_right_iff.2
      (List.forall₂_iff_get.2 ⟨h.goals.length_eq, fun i hi hi' => ?_⟩)
    obtain ⟨hown, hproof, hget⟩ := h.goals.get hi hi'
    have hyx := hne _ (.inr (List.get_mem ys ⟨i, hi⟩))
    have hdy : n.decl? (ys.get ⟨i, hi⟩) = some { type := types.get ⟨i, hi'⟩, hyps := P.hyps } := by
      rw [Context.decl?, hget]
      rfl
    refine ⟨hown, hproof, ?_, ?_⟩
    · rw [Context.isAssigned, Context.binding?_bind, if_neg hyx, Context.binding?, hget]
      rfl
    · rw [Context.goalType, Context.decl?_bind, if_neg hyx, hdy]
      exact congrArg _ (h.tidy.instantiate_eq hext fun z hz =>
        ((h.tidy.decl _ _ hown hdy).type z hz).1)

end Opened

/-- The parameters of a clause are declared with types over earlier ones. -/
theorem get?_declareParams {c : Clause} (hyps : LocalContext) (s : Solver)
    (hc : ∀ p ∈ c.params, p.2.hasVar = false) {y : Var}
    (hy : y ∈ freshVars s.lastId c.params.length) : ∃ type,
      (s.declareAll hyps (Clause.paramTypes [] s.lastId c.params)).context.get? y =
        some ⟨{ type, hyps }, s.context.binding? y⟩ ∧ ∀ z, type.occurs z = true →
          z ∈ freshVars s.lastId c.params.length ∧ z.index < y.index := by
  obtain ⟨i, type, htype, rfl, hget⟩ :=
    get?_declareAll_of_mem hyps ((Clause.length_paramTypes [] _ c.params).symm ▸ hy)
  refine ⟨type, hget, fun z hz => ?_⟩
  have hz := (Clause.occurs_paramTypes hc htype hz).resolve_left (by simp)
  rw [mem_freshVars] at hy ⊢
  exact ⟨⟨hz.1, hz.2.le.trans hy.2⟩, hz.2⟩

/-- Arguments are filled in by a substitution for the variables of the parameters. -/
theorem Clause.fill_eq_subst {c : Clause} {t : Term} (ht : t.hasVar = false) (last : Nat)
    {args : List Term} (hlen : args.length = c.params.length) :
    (c.fill ((freshVars last c.params.length).map .var) t).subst
      (fun y => args.getD (y.index - last - 1) default) = c.fill args t := by
  rw [Clause.subst_fill ht]
  congr 1
  refine List.ext_getElem (by simp [hlen]) fun i hi hi' => ?_
  have hindex : last + 1 + i - last - 1 = i := by omega
  simp [getElem_freshVars, hindex, hi']

/-- The conclusion of a determined clause is matched with a closed type, if it can be. -/
theorem matched_unify {c : Clause} {A : Term} (P : Problem) (s : Solver)
    (hs : ∀ y ∈ freshVars s.lastId c.params.length, s.context.binding? y = none)
    (hc : c.isDetermined = true) (hA : A.hasVar = false) :
    match (s.declareAll P.hyps (Clause.paramTypes [] s.lastId c.params)).context.unify
      (c.fill ((freshVars s.lastId c.params.length).map .var) c.conclusion) A with
    | some n => Matched P s.context (freshVars s.lastId c.params.length) n ∧
        n.instantiate (c.fill ((freshVars s.lastId c.params.length).map .var) c.conclusion) = A
    | none => ∀ args : List Term, args.length = c.params.length →
        c.fill args c.conclusion ≠ A := by
  obtain ⟨hclosed, -, -⟩ := Clause.isDetermined_iff.1 hc
  obtain ⟨hparams, -, hconcl⟩ := Clause.isClosed_iff.1 hclosed
  generalize hl : c.fill ((freshVars s.lastId c.params.length).map .var) c.conclusion = l
  generalize hm : (s.declareAll P.hyps (Clause.paramTypes [] s.lastId c.params)).context = m
  have hin {y : Var} (hy : l.occurs y = true) : y ∈ freshVars s.lastId c.params.length :=
    Clause.occurs_fill hconcl (hl ▸ hy)
  have hold {y : Var} (hy : y ∉ freshVars s.lastId c.params.length) :
      m.get? y = s.context.get? y := by
    rw [← hm, get?_declareAll_of_not_mem]
    rwa [Clause.length_paramTypes]
  have hnew {y : Var} (hy : y ∈ freshVars s.lastId c.params.length) :
      ∃ type, m.get? y = some ⟨{ type, hyps := P.hyps }, none⟩ ∧ ∀ z, type.occurs z = true →
        z ∈ freshVars s.lastId c.params.length ∧ z.index < y.index :=
    hm ▸ hs y hy ▸ get?_declareParams P.hyps s hparams hy
  have hopen (y : Var) (hy : l.occurs y = true) : m.binding? y = none ∧ m.isDeclared y = true := by
    obtain ⟨type, hget, -⟩ := hnew (hin hy)
    rw [Context.binding?, Context.isDeclared, hget]
    exact ⟨rfl, rfl⟩
  have hmatch := Context.unify_matching hA hopen
  cases hn : m.unify l A with
  | none =>
    rw [hn] at hmatch
    intro args hlen heq
    refine hmatch (fun y => args.getD (y.index - s.lastId - 1) default) ?_
    rw [← hl, Clause.fill_eq_subst hconcl s.lastId hlen, heq]
  | some n =>
    rw [hn] at hmatch
    have hleft : m.instantiate l = l :=
      Term.subst_eq_self fun y hy => Context.instantiate_open (hopen y hy).1
    have hbinds := Context.binds_unify hn (fun y hy => .unbound (hopen y hy).1)
      (Context.plainTerm_closed hA)
    refine ⟨⟨fun y hy => ⟨?_, ?_⟩, fun y hy => ?_, fun y hy => ?_⟩, hmatch.1⟩
    · rw [hbinds.decl, Context.decl?, hold hy]
      rfl
    · rw [hbinds.binding_eq, Context.binding?, hold hy]
      · rfl
      · rw [hleft, Context.instantiate_closed hA, Term.hasVar_eq_false.1 hA]
        exact fun h => hy (hin (h.resolve_right (by rintro ⟨⟩)))
    · obtain ⟨type, hget, hearlier⟩ := hnew hy
      refine ⟨type, ?_, hearlier⟩
      rw [hbinds.decl, Context.decl?, hget]
      rfl
    · exact hmatch.2 y (hl ▸ Clause.occurs_fill_conclusion hc (by simp) hy)

/-- A clause whose conclusion is matched reduces the goal to its premises. -/
theorem proposesWay_clause {c : Clause} {A : Term} {u w : Solver} {xs ys : List Var}
    (h : Poised P σ s x d) (hdet : c.isDetermined = true)
    (hxs : freshVars s.lastId c.params.length = xs)
    (hlast : u.lastId = s.lastId + c.params.length) (hn : Matched P s.context xs u.context)
    (hA : u.context.instantiate (c.fill (xs.map .var) c.conclusion) = A)
    (hw : u.declareAll P.hyps (c.premises.map (c.fill (xs.map .var))) = w)
    (hys : freshVars u.lastId c.premises.length = ys) :
    ∃ σ' k, σ.Grows σ' ∧ σ'.last = w.lastId ∧
      w.context.assign x (.apply c.name ((xs ++ ys).map .var)) = .ok k ∧
      ProposesWay P σ' s.context x (RuleBody.Offers P.hyps A (.clause c))
        (.capture s.state (w.withContext k)
          (ys ++ xs.filter fun y => !(w.withContext k).isAssigned y)) := by
  obtain ⟨hclosed, -, -⟩ := Clause.isDetermined_iff.1 hdet
  obtain ⟨-, hpremises, hconcl⟩ := Clause.isClosed_iff.1 hclosed
  obtain ⟨σ', hgrows, hlast, hext, hopened⟩ := opened_declareAll
    (c.premises.map (c.fill (xs.map .var))) h hlast (hxs ▸ hn) fun t ht y hy => by
      obtain ⟨premise, hp, rfl⟩ := List.mem_map.1 ht
      exact hxs ▸ Clause.occurs_fill (hpremises premise hp) hy
  rw [List.length_map, hxs, hw, hys] at hopened
  rw [hw] at hlast hext
  have hle := h.tidy.le_last h.own (Context.isDeclared_of_decl? h.decl)
  obtain ⟨hassign, hreduces⟩ := hopened.reduces (v := .apply c.name ((xs ++ ys).map .var)) h.decl
    h.unbound h.own ((hgrows.value _ hle).trans h.proof) fun y hy => by
      obtain ⟨t, ht, hy⟩ := Term.occurs_apply.1 hy
      obtain ⟨z, hz, rfl⟩ := List.mem_map.1 ht
      obtain rfl : z = y := by simpa [Term.occurs] using hy
      exact List.mem_append.1 hz
  have hbound := Context.extends_bind (Context.binding?_of_assign hassign).1 d
    (.value (.apply c.name ((xs ++ ys).map .var)))
  generalize w.context.bind x d (.value (.apply c.name ((xs ++ ys).map .var))) = k at *
  have hassigned : xs.filter (fun y => !(w.withContext k).isAssigned y) = [] := by
    refine List.filter_eq_nil_iff.2 fun y hy => ?_
    rw [Solver.isAssigned, context_withContext,
      hn.isAssigned (fun y b hb => hbound y b (hext y b hb)) hy]
    decide
  have htypes : (c.premises.map (c.fill (xs.map .var))).map w.context.instantiate =
      c.premises.map (c.fill (xs.map fun y => u.context.instantiate (.var y))) := by
    rw [List.map_map]
    refine List.map_congr_left fun premise hp => ?_
    rw [Function.comp, Clause.instantiate_fill (hpremises premise hp),
      List.map_congr_left fun y hy => hn.instantiate_eq hext hy]
  refine ⟨σ', k, hgrows, hlast, hassign, ?_⟩
  rw [hassigned, List.append_nil]
  have hlen : (xs.map fun y => u.context.instantiate (.var y)).length = c.params.length := by
    simp [← hxs]
  have hoffers : RuleBody.Offers P.hyps A (.clause c)
      (c.premises.map (c.fill (xs.map fun y => u.context.instantiate (.var y)))) :=
    .clause hlen (by rw [← Clause.instantiate_fill hconcl, hA])
  exact ⟨rfl, rfl, _, hoffers.iff_eq hdet, htypes ▸ hreduces⟩

theorem responds_clause {c : Clause} (h : Poised P σ s x d) (hc : c.isDetermined = true)
    {input : RuleInput} (hx : input.goal = x) :
    Responds P σ s x (RuleBody.Offers P.hyps (s.context.instantiate d.type) (.clause c))
      (c.procedure input) := by
  subst hx
  have hmatch := matched_unify P s (fun y hy =>
    h.tidy.binding?_of_lt (h.last.trans_lt (mem_freshVars.1 hy).1)) hc h.closed
  have hparams := map_snd_bindings (c := c) (length_freshVars s.lastId c.params.length)
  unfold Clause.procedure
  refine (ends_adapt.2 (ends_goalType.2 ⟨d, h.decl, rfl, rfl⟩)).bind ?_
  refine (ends_adapt.2 (ends_goalHyps.2 ⟨d, h.decl, rfl, rfl⟩)).bind ?_
  rw [h.hyps]
  refine (ends_get.2 ⟨rfl, rfl⟩).bind ((ends_lift.2 (Clause.run_makeParams ..)).bind ?_)
  rw [List.append_nil, show ((c.params.map (·.1)).zip _).reverse = c.bindings _ from rfl]
  simp only [Clause.instantiateParams_bindings, hparams]
  cases hn : (s.declareAll P.hyps (Clause.paramTypes [] s.lastId c.params)).context.unify
      (c.fill ((freshVars s.lastId c.params.length).map .var) c.conclusion)
      (s.context.instantiate d.type) with
  | none =>
    rw [hn] at hmatch
    refine (ends_unify.2 (.inr ⟨hn, rfl, rfl⟩)).bind ?_
    simp only [Bool.false_eq_true, if_false]
    refine ((ends_restore (a := ())).2 rfl).bind (yields_throw fun premises ho => ?_)
    cases ho with
    | clause hlen hA => exact hmatch _ hlen hA
  | some n =>
    rw [hn] at hmatch
    obtain ⟨hmatched, htype⟩ := hmatch
    obtain ⟨u, hu⟩ : ∃ u : Solver, u = (s.declareAll P.hyps
      (Clause.paramTypes [] s.lastId c.params)).withContext n := ⟨_, rfl⟩
    obtain ⟨σ', k, hgrows, hlast, hassign, hway⟩ := proposesWay_clause (u := u)
      (A := s.context.instantiate d.type) h hc rfl
      (by rw [hu, lastId_withContext, lastId_declareAll, Clause.length_paramTypes])
      (by rwa [hu]) (by rwa [hu]) rfl rfl
    refine (ends_unify.2 (.inl ⟨n, hn, rfl, hu⟩)).bind ?_
    simp only [if_true]
    refine (Clause.ends_mkGoals P.hyps _ c.premises u).bind
      ((ends_adapt.2 ((ends_assign (a := ())).2 ⟨k, hassign, rfl⟩)).bind
      ((ends_get.2 ⟨rfl, rfl⟩).bind ?_))
    refine yields_pure ⟨by simp, σ', hgrows, hlast, fun p hp => ?_⟩
    obtain rfl := List.mem_singleton.1 hp
    exact hway

theorem responds_rule {r : RuleSpec} (h : Poised P σ s x d) (hr : r.body.isDetermined = true)
    {input : RuleInput} (hx : input.goal = x) :
    Responds P σ s x (r.body.Offers P.hyps (s.context.instantiate d.type))
      (r.rule.procedure input) := by
  show Responds _ _ _ _ _ (r.body.procedure input)
  cases hb : r.body with
  | assumption all => exact responds_assumption h hx all
  | clause c =>
    rw [hb] at hr
    exact responds_clause h hr hx

end

/-! ## Rules with the same procedure -/

/-- The ways that specifications of the rule `q` offer. -/
def RuleSpec.Offers (rules : List RuleSpec) (hyps : LocalContext) (A : Term) (q : Rule)
    (premises : List Term) : Prop :=
  ∃ r ∈ rules, r.rule = q ∧ r.body.Offers hyps A premises

section

variable {P : Problem} {σ : Valuation} {m n : Context} {s : Solver} {x : Var} {d : VarDecl}

/-- The state shows what a goal is reduced to. -/
theorem Reduces.unique {σ' : Valuation} {ts us : List Term} {goals : List Var}
    (h : Reduces P σ m x ts n goals) (h' : Reduces P σ' m x us n goals) : ts = us := by
  refine List.ext_getElem (h.goals.length_eq.symm.trans h'.goals.length_eq) fun i hi hi' => ?_
  have hlt : i < goals.length := h.goals.length_eq ▸ hi
  obtain ⟨-, -, -, htype⟩ := h.goals.get hlt hi
  obtain ⟨-, -, -, htype'⟩ := h'.goals.get hlt hi'
  exact Except.ok.inj (htype.symm.trans htype')

/-- A rule of determined specifications proposes the only way that they offer. -/
theorem responds_rules {rules : List RuleSpec} {q : Rule} (h : Poised P σ s x d)
    (hrules : ∀ r ∈ rules, r.body.isDetermined = true) (hq : ∃ r ∈ rules, r.rule = q)
    {input : RuleInput} (hx : input.goal = x) :
    Responds P σ s x (RuleSpec.Offers rules P.hyps (s.context.instantiate d.type) q)
      (q.procedure input) := by
  have hall (r : RuleSpec) (hr : r ∈ rules) (hrq : r.rule = q) :=
    hrq ▸ responds_rule h (hrules r hr) hx
  obtain ⟨r, hr, rfl⟩ := hq
  rcases (hall r hr rfl).cases with ⟨out, s', hends, hne, σ', hgrows, hlast, hps⟩ | ⟨e, s', hrun, -⟩
  · refine hends.yields ⟨hne, σ', hgrows, hlast, fun p hp => ?_⟩
    obtain ⟨hintro, hassigned, premises, hway, hreduces⟩ := hps p hp
    refine ⟨hintro, hassigned, premises, fun ts => ⟨?_, ?_⟩, hreduces⟩
    · rintro ⟨r', hr', heq, ho⟩
      obtain ⟨-, σ'', -, -, hps'⟩ := (hall r' hr' heq).of_ends hends
      obtain ⟨-, -, premises', hway', hreduces'⟩ := hps' p hp
      rw [(hway' ts).1 ho, hreduces.unique hreduces']
    · exact fun hts => ⟨r, hr, rfl, (hway ts).2 hts⟩
  · refine yields_of_error hrun ?_
    rintro premises ⟨r', hr', heq, ho⟩
    exact (hall r' hr' heq).of_error hrun premises ho

end

end ProofSearch
