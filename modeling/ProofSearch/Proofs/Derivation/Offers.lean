import ProofSearch.Proofs.Derivation.Clauses

/-!
# What rules offer

A rule offers ways of proving a type.  A way is given by the types that are left to be proven.

1. `Clause.isDetermined`: all parameters can be read off the conclusion, so a clause offers at most
   one way (`Clause.fill_injective`).
2. `RuleBody.Offers`: the ways that a rule offers.
3. `exists_derives_of_offers`, `not_derives_of_stuck`: derivations in terms of ways.
-/

namespace ProofSearch

/-! ## References to hypotheses -/

namespace Term

mutual
/-- Whether the term refers to the hypothesis with the given name. -/
def refersTo (name : String) : Term → Bool
  | .const _ | .var _ => false
  | .hyp other => decide (other = name)
  | .app _ args => refersToList name args

def refersToList (name : String) : List Term → Bool
  | [] => false
  | t :: ts => refersTo name t || refersToList name ts
end

theorem refersToList_iff {name : String} {ts : List Term} :
    refersToList name ts = true ↔ ∃ t ∈ ts, t.refersTo name = true := by
  induction ts with
  | nil => simp [refersToList]
  | cons t ts ih => simp [refersToList, ih]

/-- A term with references filled in shows what was filled in. -/
theorem eq_of_substHyps_eq {σ τ : String → Option Term} {t : Term}
    (h : t.substHyps σ = t.substHyps τ) {name : String} (hn : t.refersTo name = true) :
    (σ name).getD (.hyp name) = (τ name).getD (.hyp name) := by
  induction t using ind with
  | const | var => cases hn
  | hyp other =>
    obtain rfl : other = name := by simpa [refersTo] using hn
    exact h
  | app head args ih =>
    obtain ⟨t, ht, hn⟩ := refersToList_iff.1 hn
    simp only [substHyps, substHypsList_eq_map, app.injEq, true_and] at h
    exact ih t ht (List.map_inj_left.1 h t ht) hn

theorem occurs_substHyps_of_refersTo {σ : String → Option Term} {t u : Term} {name : String}
    {y : Var} (hn : t.refersTo name = true) (hσ : σ name = some u) (hy : u.occurs y = true) :
    (t.substHyps σ).occurs y = true := by
  induction t using ind with
  | const | var => cases hn
  | hyp other =>
    obtain rfl : other = name := by simpa [refersTo] using hn
    simpa [substHyps, hσ] using hy
  | app head args ih =>
    obtain ⟨t, ht, hn⟩ := refersToList_iff.1 hn
    simp only [substHyps, occurs, substHypsList_eq_map, occursList_iff]
    exact ⟨_, List.mem_map_of_mem ht, ih t ht hn⟩

end Term

/-! ## Determined clauses -/

namespace Clause

/-- The clause mentions no metavariable, its parameters have different names, and its conclusion
refers to all of them. -/
def isDetermined (c : Clause) : Bool :=
  c.isClosed && decide (c.params.map (·.1)).Nodup && c.params.all (c.conclusion.refersTo ·.1)

variable {c : Clause}

theorem isDetermined_iff : c.isDetermined = true ↔ c.isClosed = true ∧ (c.params.map (·.1)).Nodup ∧
    ∀ p ∈ c.params, c.conclusion.refersTo p.1 = true := by
  simp [isDetermined, and_assoc]

theorem mem_bindings {α : Type} {args : List α} (hlen : args.length = c.params.length) {i : Nat}
    (hi : i < args.length) :
    ((c.params.get ⟨i, hlen ▸ hi⟩).1, args.get ⟨i, hi⟩) ∈ c.bindings args := by
  rw [bindings, List.mem_reverse]
  refine List.mem_iff_getElem.2 ⟨i, ?_, ?_⟩
  · simpa [hlen] using hi
  · simp

/-- With different names each parameter has its own argument. -/
theorem find?_bindings {α : Type} (hnames : (c.params.map (·.1)).Nodup) {args : List α}
    (hlen : args.length = c.params.length) {b : String × α} (hb : b ∈ c.bindings args) :
    (c.bindings args).find? (·.1 = b.1) = some b := by
  have hnodup : ((c.bindings args).map (·.1)).Nodup := by
    rw [bindings, List.map_reverse, List.map_fst_zip (by simp [hlen])]
    exact List.nodup_reverse.2 hnames
  obtain ⟨b', hb'⟩ : ∃ b', (c.bindings args).find? (·.1 = b.1) = some b' :=
    Option.isSome_iff_exists.1 (List.find?_isSome.2 ⟨b, hb, by simp⟩)
  have hname : b'.1 = b.1 := by
    have h := List.find?_some hb'
    simpa using h
  rw [hb', List.inj_on_of_nodup_map hnodup (List.mem_of_find?_eq_some hb') hb hname]

variable (hc : c.isDetermined = true)

include hc

/-- The conclusion shows the arguments. -/
theorem fill_injective {args args' : List Term} (hlen : args.length = c.params.length)
    (hlen' : args'.length = c.params.length)
    (h : c.fill args c.conclusion = c.fill args' c.conclusion) : args = args' := by
  obtain ⟨-, hnames, hrefers⟩ := isDetermined_iff.1 hc
  refine List.ext_getElem (hlen.trans hlen'.symm) fun i hi hi' => ?_
  have heq := Term.eq_of_substHyps_eq h (hrefers _ (List.get_mem c.params ⟨i, hlen ▸ hi⟩))
  rw [find?_bindings hnames hlen (mem_bindings hlen hi),
    find?_bindings hnames hlen' (mem_bindings hlen' hi')] at heq
  exact heq

theorem occurs_fill_conclusion {xs : List Var} (hlen : xs.length = c.params.length) {x : Var}
    (hx : x ∈ xs) : (c.fill (xs.map .var) c.conclusion).occurs x = true := by
  obtain ⟨-, hnames, hrefers⟩ := isDetermined_iff.1 hc
  obtain ⟨i, hi, rfl⟩ := List.mem_iff_getElem.1 hx
  refine Term.occurs_substHyps_of_refersTo (u := .var xs[i])
    (hrefers _ (List.get_mem c.params ⟨i, hlen ▸ hi⟩)) ?_ (by simp [Term.occurs])
  rw [find?_bindings_map, find?_bindings hnames hlen (mem_bindings hlen hi)]
  rfl

end Clause

/-! ## Ways -/

/-- The body leaves no choice but which rule to use. -/
def RuleBody.isDetermined : RuleBody → Bool
  | .assumption _ => true
  | .clause c => c.isDetermined

/-- `body.Offers hyps A premises`: the body reduces a proof of `A` to proofs of the premises. -/
inductive RuleBody.Offers (hyps : LocalContext) (A : Term) : RuleBody → List Term → Prop
  | hyp {all : Bool} {h : Hypothesis} : h ∈ hyps → h.type = A → Offers hyps A (.assumption all) []
  | clause {c : Clause} {args : List Term} : args.length = c.params.length →
      c.fill args c.conclusion = A → Offers hyps A (.clause c) (c.premises.map (c.fill args))

theorem RuleBody.Offers.unique {hyps : LocalContext} {A : Term} {body : RuleBody}
    {premises premises' : List Term} (hb : body.isDetermined = true)
    (h : body.Offers hyps A premises) (h' : body.Offers hyps A premises') :
    premises = premises' := by
  cases h with
  | hyp =>
    cases h'
    rfl
  | clause hlen hA =>
    cases h' with
    | clause hlen' hA' => rw [Clause.fill_injective hb hlen hlen' (hA.trans hA'.symm)]

theorem RuleBody.Offers.iff_eq {hyps : LocalContext} {A : Term} {body : RuleBody}
    {premises : List Term} (h : body.Offers hyps A premises) (hb : body.isDetermined = true)
    (ts : List Term) : body.Offers hyps A ts ↔ ts = premises :=
  ⟨fun h' => h'.unique hb h, fun hts => hts ▸ h⟩

namespace RuleSpec

/-- The rule is tentative, selected for every goal, and determined. -/
def isUnrestricted (r : RuleSpec) : Bool :=
  (match r.priority with | .tentative _ => true | _ => false) && r.index.isEmpty &&
    r.body.isDetermined

def isAssumption (r : RuleSpec) : Bool :=
  match r.body with
  | .assumption _ => true
  | .clause _ => false

/-- The hypotheses, if there is a rule that uses them. -/
def usableHyps (rules : List RuleSpec) (hyps : LocalContext) : LocalContext :=
  if rules.any isAssumption then hyps else []

end RuleSpec

section

variable {rules : List RuleSpec} {hyps : LocalContext}

theorem exists_proofs {clauses : List Clause} {types : List Term}
    (h : ∀ B ∈ types, ∃ q, Derives clauses hyps q B) :
    ∃ proofs : List Term, List.Forall₂ (Derives clauses hyps) proofs types := by
  induction types with
  | nil => exact ⟨[], .nil⟩
  | cons B types ih =>
    obtain ⟨q, hq⟩ := h B List.mem_cons_self
    obtain ⟨proofs, hproofs⟩ := ih fun C hC => h C (List.mem_cons_of_mem B hC)
    exact ⟨q :: proofs, .cons hq hproofs⟩

/-- A type is derivable if some rule reduces it to derivable types. -/
theorem exists_derives_of_offers {r : RuleSpec} {A : Term} {premises : List Term} (hr : r ∈ rules)
    (ho : r.body.Offers hyps A premises)
    (hp : ∀ B ∈ premises,
      ∃ q, Derives (RuleSpec.clauses rules) (RuleSpec.usableHyps rules hyps) q B) :
    ∃ q, Derives (RuleSpec.clauses rules) (RuleSpec.usableHyps rules hyps) q A := by
  generalize hbody : r.body = body at ho
  cases ho with
  | @hyp all h hh hA =>
    have hany : rules.any RuleSpec.isAssumption = true :=
      List.any_eq_true.2 ⟨r, hr, by rw [RuleSpec.isAssumption, hbody]⟩
    refine ⟨.hyp h.name, hA ▸ .hyp ?_⟩
    rwa [RuleSpec.usableHyps, if_pos hany]
  | @clause c args hlen hA =>
    obtain ⟨proofs, hproofs⟩ := exists_proofs hp
    rw [List.forall₂_map_right_iff] at hproofs
    have hderives := Derives.clause (RuleSpec.mem_clauses hr hbody) hlen hproofs.length_eq
      fun q premise hq => List.forall₂_zip hproofs hq
    exact ⟨_, hA ▸ hderives⟩

/-- If every way to prove a type in `U` leads to a type in `U`, no type in `U` is derivable. -/
theorem not_derives_of_stuck {U : Term → Prop}
    (hU : ∀ A, U A → ∀ r ∈ rules, ∀ premises, r.body.Offers hyps A premises → ∃ B ∈ premises, U B)
    {q A : Term} (h : Derives (RuleSpec.clauses rules) (RuleSpec.usableHyps rules hyps) q A) :
    ¬ U A := by
  induction h with
  | @hyp k hk =>
    intro hA
    unfold RuleSpec.usableHyps at hk
    split at hk
    · next hany =>
      obtain ⟨r, hr, hass⟩ := List.any_eq_true.1 hany
      cases hbody : r.body with
      | assumption all =>
        obtain ⟨B, hB, -⟩ := hU _ hA r hr [] (hbody ▸ .hyp hk rfl)
        cases hB
      | clause c => simp [RuleSpec.isAssumption, hbody] at hass
    · cases hk
  | @clause c args proofs hc hlen hproofs _ ih =>
    intro hA
    obtain ⟨r, hr, hbody⟩ := RuleSpec.exists_of_mem_clauses hc
    obtain ⟨B, hB, hBU⟩ := hU _ hA r hr (c.premises.map (c.fill args)) (hbody ▸ .clause hlen rfl)
    obtain ⟨premise, hpremise, rfl⟩ := List.mem_map.1 hB
    obtain ⟨i, hi, rfl⟩ := List.mem_iff_getElem.1 hpremise
    refine ih proofs[i] c.premises[i] (List.mem_iff_getElem.2 ⟨i, ?_, ?_⟩) hBU
    · simpa [hproofs] using hi
    · simp

end

end ProofSearch
