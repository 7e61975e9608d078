import ProofSearch.Proofs.Metavar.Resolution
import ProofSearch.Rule.Assumption
import ProofSearch.Rule.Clause

/-!
# Derivations

What it means for a term to be a proof, without any mention of a search.

1. `Clause.fill`: a term of a clause with arguments in the place of the parameters.
2. `Derives`: the proofs that hypotheses and clauses give.
3. `Clause.subst_fill`: values for metavariables pass through the parameters of a clause.
-/

namespace ProofSearch

namespace Term

theorem substHypsList_eq_map (σ : String → Option Term) (ts : List Term) :
    substHypsList σ ts = ts.map (substHyps σ) := by
  induction ts with
  | nil => rfl
  | cons t ts ih => simp [substHypsList, ih]

theorem hasVar_of_mem {head : String} {args : List Term} (h : (app head args).hasVar = false)
    {t : Term} (ht : t ∈ args) : t.hasVar = false := by
  rw [hasVar, ← Bool.not_eq_true, hasVarList_iff] at h
  exact (Bool.not_eq_true _).mp fun hv => h ⟨t, ht, hv⟩

/-- In a closed term metavariables come in through the substituted terms only. -/
theorem subst_substHyps {t : Term} (h : t.hasVar = false) (σ : String → Option Term)
    (τ : Var → Term) :
    (t.substHyps σ).subst τ = t.substHyps fun name => (σ name).map (·.subst τ) := by
  induction t using ind with
  | const => rfl
  | hyp name => cases hσ : σ name <;> simp [substHyps, subst, hσ]
  | var x => cases h
  | app head args ih =>
    simp only [substHyps, subst, substHypsList_eq_map, substList_eq_map, List.map_map,
      app.injEq, true_and]
    exact List.map_congr_left fun t ht => ih t ht (hasVar_of_mem h ht)

theorem occurs_substHyps {t : Term} (h : t.hasVar = false) {σ : String → Option Term} {y : Var}
    (hy : (t.substHyps σ).occurs y = true) : ∃ name u, σ name = some u ∧ u.occurs y = true := by
  induction t using ind with
  | const => cases hy
  | hyp name =>
    cases hσ : σ name with
    | none => simp [substHyps, hσ, occurs] at hy
    | some u => exact ⟨name, u, hσ, by simpa [substHyps, hσ] using hy⟩
  | var x => cases h
  | app head args ih =>
    simp only [substHyps, occurs, substHypsList_eq_map, occursList_iff, List.mem_map] at hy
    obtain ⟨_, ⟨t, ht, rfl⟩, hy⟩ := hy
    exact ih t ht (hasVar_of_mem h ht) hy

theorem subst_apply (σ : Var → Term) (head : String) (args : List Term) :
    (apply head args).subst σ = apply head (args.map (·.subst σ)) := by
  cases args with
  | nil => rfl
  | cons t ts => simp [apply, subst, substList_eq_map]

theorem occurs_apply {head : String} {args : List Term} {y : Var} :
    (apply head args).occurs y = true ↔ ∃ t ∈ args, t.occurs y = true := by
  cases args with
  | nil => simp [apply, occurs]
  | cons t ts => simp only [apply, occurs, occursList_iff]

end Term

namespace Clause

/-! ## Filling in arguments -/

/-- The parameters with their arguments, the latest parameter first. -/
def bindings {α : Type} (c : Clause) (args : List α) : List (String × α) :=
  ((c.params.map (·.1)).zip args).reverse

/-- Puts arguments in the place of the parameters.  Of two parameters with the same name the later
one counts. -/
def fill (c : Clause) (args : List Term) (t : Term) : Term :=
  t.substHyps fun name => ((c.bindings args).find? (·.1 = name)).map (·.2)

/-- The clause mentions no metavariable. -/
def isClosed (c : Clause) : Bool :=
  c.params.all (!·.2.hasVar) && c.premises.all (!·.hasVar) && !c.conclusion.hasVar

variable {c : Clause}

theorem isClosed_iff : c.isClosed = true ↔ (∀ p ∈ c.params, p.2.hasVar = false) ∧
    (∀ t ∈ c.premises, t.hasVar = false) ∧ c.conclusion.hasVar = false := by
  simp [isClosed, and_assoc]

theorem bindings_map {α β : Type} (f : α → β) (args : List α) :
    c.bindings (args.map f) = (c.bindings args).map fun b => (b.1, f b.2) := by
  simp only [bindings, List.map_reverse, List.zip_map_right]
  rfl

theorem find?_bindings_map {α β : Type} (f : α → β) (args : List α) (name : String) :
    ((c.bindings (args.map f)).find? (·.1 = name)).map (·.2) =
      ((c.bindings args).find? (·.1 = name)).map fun b => f b.2 := by
  rw [bindings_map, List.find?_map, Option.map_map]
  rfl

theorem instantiateParams_bindings (xs : List Var) (t : Term) :
    instantiateParams (c.bindings xs) t = c.fill (xs.map .var) t := by
  simp only [instantiateParams, fill, find?_bindings_map]

/-- Values for metavariables pass through the parameters of a clause. -/
theorem subst_fill {t : Term} (ht : t.hasVar = false) (σ : Var → Term) (xs : List Var) :
    (c.fill (xs.map .var) t).subst σ = c.fill (xs.map σ) t := by
  rw [fill, Term.subst_substHyps ht, fill]
  simp only [find?_bindings_map, Option.map_map]
  rfl

theorem instantiate_fill {t : Term} (ht : t.hasVar = false) (m : Context) (xs : List Var) :
    m.instantiate (c.fill (xs.map .var) t) =
      c.fill (xs.map fun x => m.instantiate (.var x)) t := by
  rw [Context.instantiate_eq_subst, subst_fill ht]

theorem occurs_instantiateParams {bound : List (String × Var)} {t : Term} (ht : t.hasVar = false)
    {y : Var} (hy : (instantiateParams bound t).occurs y = true) : ∃ b ∈ bound, b.2 = y := by
  obtain ⟨name, u, hu, hy⟩ := Term.occurs_substHyps ht hy
  obtain ⟨b, hb, rfl⟩ := Option.map_eq_some_iff.1 hu
  exact ⟨b, List.mem_of_find?_eq_some hb, by simpa [Term.occurs] using hy⟩

theorem occurs_fill {t : Term} (ht : t.hasVar = false) {xs : List Var} {y : Var}
    (hy : (c.fill (xs.map .var) t).occurs y = true) : y ∈ xs := by
  rw [← instantiateParams_bindings] at hy
  obtain ⟨b, hb, rfl⟩ := occurs_instantiateParams ht hy
  exact (List.of_mem_zip (List.mem_reverse.1 hb)).2

end Clause

/-! ## Proofs -/

/-- `Derives clauses hyps q A`: the term `q` is a proof of `A`.  A hypothesis proves its type, and a
clause with proofs of its premises proves its conclusion, for any arguments. -/
inductive Derives (clauses : List Clause) (hyps : LocalContext) : Term → Term → Prop
  | hyp {h : Hypothesis} : h ∈ hyps → Derives clauses hyps (.hyp h.name) h.type
  | clause {c : Clause} {args proofs : List Term} : c ∈ clauses →
      args.length = c.params.length → proofs.length = c.premises.length →
      (∀ q premise, (q, premise) ∈ proofs.zip c.premises →
        Derives clauses hyps q (c.fill args premise)) →
      Derives clauses hyps (.apply c.name (args ++ proofs)) (c.fill args c.conclusion)

theorem Term.apply_inj {a b : String} {ts us : List Term} :
    apply a ts = apply b us ↔ a = b ∧ ts = us := by
  cases ts <;> cases us <;> simp [apply]

theorem Term.apply_ne_hyp (a : String) (ts : List Term) (name : String) :
    apply a ts ≠ .hyp name := by
  cases ts <;> simp [apply]

/-- A proof by a clause whose name no other clause has proves what this clause says, from proofs of
its premises. -/
theorem Derives.of_clause {clauses : List Clause} {hyps : LocalContext} {c : Clause}
    {args proofs : List Term} {A : Term}
    (h : Derives clauses hyps (.apply c.name (args ++ proofs)) A)
    (hname : ∀ c' ∈ clauses, c'.name = c.name → c' = c) (hlen : args.length = c.params.length) :
    A = c.fill args c.conclusion ∧ ∀ q premise, (q, premise) ∈ proofs.zip c.premises →
      Derives clauses hyps q (c.fill args premise) := by
  generalize hq : Term.apply c.name (args ++ proofs) = q at h
  cases h with
  | hyp => exact (Term.apply_ne_hyp _ _ _ hq).elim
  | @clause c' args' proofs' hc hlen' _ hpremises =>
    obtain ⟨hn, hargs⟩ := Term.apply_inj.1 hq
    obtain rfl := hname c' hc hn.symm
    obtain ⟨rfl, rfl⟩ := List.append_inj hargs (hlen.trans hlen'.symm)
    exact ⟨rfl, hpremises⟩

/-! ## The rules of a library -/

/-- What a rule does: it closes a goal by a hypothesis, or it applies a clause. -/
inductive RuleBody where
  | assumption (all : Bool)
  | clause (c : Clause)
deriving DecidableEq

def RuleBody.procedure : RuleBody → Procedure
  | .assumption all => Assumption.procedure all
  | .clause c => c.procedure

/-- A rule given by its body. -/
structure RuleSpec where
  name : String
  priority : Priority
  index : List IndexKey
  body : RuleBody
deriving DecidableEq

namespace RuleSpec

def rule (r : RuleSpec) : Rule := ⟨r.name, r.priority, r.index, r.body.procedure⟩

/-- The clauses that the rules apply. -/
def clauses (rules : List RuleSpec) : List Clause :=
  rules.filterMap fun r => match r.body with
    | .assumption _ => none
    | .clause c => some c

theorem mem_clauses {rules : List RuleSpec} {r : RuleSpec} {c : Clause} (hr : r ∈ rules)
    (hc : r.body = .clause c) : c ∈ clauses rules :=
  List.mem_filterMap.2 ⟨r, hr, by rw [hc]⟩

theorem exists_of_mem_clauses {rules : List RuleSpec} {c : Clause} (h : c ∈ clauses rules) :
    ∃ r ∈ rules, r.body = .clause c := by
  obtain ⟨r, hr, hbody⟩ := List.mem_filterMap.1 h
  refine ⟨r, hr, ?_⟩
  split at hbody
  · cases hbody
  · next c' hc' =>
    cases hbody
    exact hc'

end RuleSpec

end ProofSearch
