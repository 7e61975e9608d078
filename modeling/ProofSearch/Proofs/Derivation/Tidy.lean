import ProofSearch.Proofs.Derivation.Ledger

/-!
# Tidy contexts

A search with determined clauses knows the value of a parameter as soon as its clause is applied.
All other variables of the search stand for proofs.

1. `Valuation`: the values of all parameters so far; it grows by new parameters (`addParams`) and by
   new proof variables (`raise`).
2. `Tidy`: a context in which every parameter has its value, types mention parameters only, and the
   value of a proof variable mentions parameters and later proof variables.
3. `Tidy.extend`: a context stays tidy if what is new in it is.
4. `Tidy.goalType_closed`: in a tidy context all types are closed.
-/

namespace ProofSearch

/-! ## Values of parameters -/

/-- The closed values of the parameters of applied clauses, and the number of the latest
variable. -/
structure Valuation where
  value? : Var → Option Term
  last : Nat
  closed : ∀ x u, value? x = some u → u.hasVar = false
  le_last : ∀ x u, value? x = some u → x.index ≤ last

namespace Valuation

/-- The variables so far keep their roles and values. -/
structure Grows (σ σ' : Valuation) : Prop where
  last : σ.last ≤ σ'.last
  value : ∀ x, x.index ≤ σ.last → σ'.value? x = σ.value? x

theorem Grows.refl (σ : Valuation) : σ.Grows σ := ⟨le_rfl, fun _ _ => rfl⟩

theorem Grows.trans {σ σ' σ'' : Valuation} (h : σ.Grows σ') (h' : σ'.Grows σ'') : σ.Grows σ'' :=
  ⟨h.last.trans h'.last, fun x hx => (h'.value x (hx.trans h.last)).trans (h.value x hx)⟩

/-- No parameter so far. -/
def blank (last : Nat) : Valuation := ⟨fun _ => none, last, nofun, nofun⟩

/-- Proof variables are made. -/
def raise (σ : Valuation) {last : Nat} (h : σ.last ≤ last) : Valuation :=
  ⟨σ.value?, last, σ.closed, fun x u hu => (σ.le_last x u hu).trans h⟩

theorem grows_raise (σ : Valuation) {last : Nat} (h : σ.last ≤ last) : σ.Grows (σ.raise h) :=
  ⟨h, fun _ _ => rfl⟩

/-- The closed value that a variable has in a context, if it has one. -/
def closedValue? (m : Context) (x : Var) : Option Term :=
  match m.binding? x with
  | some (.value u) => if u.hasVar then none else some u
  | _ => none

theorem closedValue?_eq_some {m : Context} {x : Var} {u : Term} :
    closedValue? m x = some u ↔ m.binding? x = some (.value u) ∧ u.hasVar = false := by
  unfold closedValue?
  split
  · next v hv =>
    rw [hv]
    split
    · next h => exact ⟨nofun, by rintro ⟨he, hu⟩; cases he; exact nomatch h.symm.trans hu⟩
    · next h =>
      constructor
      · intro he
        cases he
        exact ⟨rfl, by simpa using h⟩
      · rintro ⟨he, -⟩
        cases he
        rfl
  · next hv => exact ⟨nofun, fun ⟨h, _⟩ => (hv u h).elim⟩

/-- Parameters are made that have their values in `m`. -/
def addParams (σ : Valuation) (m : Context) (count : Nat) : Valuation where
  value? x := if σ.last < x.index ∧ x.index ≤ σ.last + count then closedValue? m x else σ.value? x
  last := σ.last + count
  closed x u hu := by
    split at hu
    · exact (closedValue?_eq_some.1 hu).2
    · exact σ.closed x u hu
  le_last x u hu := by
    split at hu
    · next h => exact h.2
    · exact (σ.le_last x u hu).trans (Nat.le_add_right ..)

theorem grows_addParams (σ : Valuation) (m : Context) (count : Nat) :
    σ.Grows (σ.addParams m count) :=
  ⟨Nat.le_add_right .., fun _ hx => if_neg fun h => absurd h.1 (by omega)⟩

end Valuation

section

variable (P : Problem) (σ : Valuation) (m : Context)

/-- A declared parameter of an applied clause. -/
structure IsParam (x : Var) : Prop where
  own : P.Own x
  declared : m.isDeclared x = true
  value : (σ.value? x).isSome = true

/-- A proof variable that was made after `x`. -/
structure IsLaterProof (x y : Var) : Prop where
  own : P.Own y
  proof : σ.value? y = none
  later : x.index < y.index
  le_last : y.index ≤ σ.last

/-- How a variable is declared: its type mentions parameters that were made before it. -/
structure TidyDecl (x : Var) (d : VarDecl) : Prop where
  le_last : x.index ≤ σ.last
  hyps : d.hyps = P.hyps
  type : ∀ y, d.type.occurs y = true → IsParam P σ m y ∧ y.index < x.index

/-- What may be assigned to the proof variable `x`. -/
def TidyValue (x : Var) (v : Term) : Prop :=
  ∀ y, v.occurs y = true → IsParam P σ m y ∨ IsLaterProof P σ x y

/-- Every variable of the search is declared and bound as its role demands. -/
structure Tidy : Prop where
  base_le : P.base ≤ σ.last
  decl : ∀ x d, P.Own x → m.decl? x = some d → TidyDecl P σ m x d
  param : ∀ x u, P.Own x → m.isDeclared x = true → σ.value? x = some u →
    m.binding? x = some (.value u)
  proof : ∀ x b, P.Own x → σ.value? x = none → m.binding? x = some b →
    ∃ v, b = .value v ∧ TidyValue P σ m x v

end

variable {P : Problem} {σ σ' : Valuation} {m n : Context}

theorem Context.instantiate_closed_value {x : Var} {u : Term} (hb : m.binding? x = some (.value u))
    (hu : u.hasVar = false) : m.instantiate (.var x) = u := by
  have hplain : m.Plain x := .value hb (plainTerm_closed hu)
  rw [hplain.instantiate_eq hb, instantiate_closed hu]

/-- A context stays tidy if what is new in it is. -/
theorem Tidy.extend (h : Tidy P σ m) (hext : m.Extends n)
    (hkeep : ∀ x d, m.decl? x = some d → n.decl? x = some d)
    (hdecl : ∀ x d, P.Own x → n.decl? x = some d → m.decl? x = some d ∨ TidyDecl P σ n x d)
    (hparam : ∀ x u, P.Own x → n.isDeclared x = true → σ.value? x = some u →
      m.isDeclared x = true ∨ n.binding? x = some (.value u))
    (hproof : ∀ x b, P.Own x → σ.value? x = none → n.binding? x = some b →
      m.binding? x = some b ∨ ∃ v, b = .value v ∧ TidyValue P σ n x v) : Tidy P σ n := by
  have hpar {y : Var} (hy : IsParam P σ m y) : IsParam P σ n y := by
    obtain ⟨d, hd⟩ := Context.exists_decl? hy.declared
    exact ⟨hy.own, Context.isDeclared_of_decl? (hkeep y d hd), hy.value⟩
  refine ⟨h.base_le, fun x d ho hd => ?_, fun x u ho hx hu => ?_, fun x b ho hx hb => ?_⟩
  · refine (hdecl x d ho hd).elim (fun hd => ?_) id
    have htidy := h.decl x d ho hd
    exact ⟨htidy.le_last, htidy.hyps, fun y hy => (htidy.type y hy).imp_left hpar⟩
  · exact (hparam x u ho hx hu).elim (fun hx => hext x _ (h.param x u ho hx hu)) id
  · refine (hproof x b ho hx hb).elim (fun hb => ?_) id
    obtain ⟨v, rfl, hv⟩ := h.proof x b ho hx hb
    exact ⟨v, rfl, fun y hy => (hv y hy).imp_left hpar⟩

namespace Tidy

theorem le_last (h : Tidy P σ m) {x : Var} (ho : P.Own x) (hx : m.isDeclared x = true) :
    x.index ≤ σ.last := by
  obtain ⟨d, hd⟩ := Context.exists_decl? hx
  exact (h.decl x d ho hd).le_last

theorem own_of_lt (h : Tidy P σ m) {x : Var} (hx : σ.last < x.index) : P.Own x :=
  .inr (h.base_le.trans_lt hx)

/-- Numbers above the latest one are free. -/
theorem get?_of_lt (h : Tidy P σ m) {x : Var} (hx : σ.last < x.index) : m.get? x = none := by
  by_contra hne
  have hdecl : m.isDeclared x = true := Option.isSome_iff_ne_none.2 hne
  exact absurd (h.le_last (h.own_of_lt hx) hdecl) (by omega)

theorem binding?_of_lt (h : Tidy P σ m) {x : Var} (hx : σ.last < x.index) :
    m.binding? x = none := by
  rw [Context.binding?, h.get?_of_lt hx]
  rfl

/-- The roles of later variables do not matter. -/
theorem grow (h : Tidy P σ m) (hσ : σ.Grows σ') : Tidy P σ' m := by
  have hvalue {x : Var} (ho : P.Own x) (hx : m.isDeclared x = true) :
      σ'.value? x = σ.value? x := hσ.value x (h.le_last ho hx)
  have hpar {y : Var} (hy : IsParam P σ m y) : IsParam P σ' m y :=
    ⟨hy.own, hy.declared, by rw [hvalue hy.own hy.declared]; exact hy.value⟩
  refine ⟨h.base_le.trans hσ.last, fun x d ho hd => ?_, fun x u ho hx hu => ?_,
    fun x b ho hx hb => ?_⟩
  · have htidy := h.decl x d ho hd
    exact ⟨htidy.le_last.trans hσ.last, htidy.hyps, fun y hy => (htidy.type y hy).imp_left hpar⟩
  · exact h.param x u ho hx ((hvalue ho hx).symm.trans hu)
  · obtain ⟨d, hd⟩ := Context.exists_decl?_of_binding? hb
    obtain ⟨v, rfl, hv⟩ :=
      h.proof x b ho ((hvalue ho (Context.isDeclared_of_decl? hd)).symm.trans hx) hb
    refine ⟨v, rfl, fun y hy => (hv y hy).imp hpar fun hl => ?_⟩
    exact ⟨hl.own, (hσ.value y hl.le_last).trans hl.proof, hl.later, hl.le_last.trans hσ.last⟩

/-- The value of a parameter is closed. -/
theorem instantiate_param (h : Tidy P σ m) {x : Var} (hx : IsParam P σ m x) :
    (m.instantiate (.var x)).hasVar = false := by
  obtain ⟨u, hu⟩ := Option.isSome_iff_exists.1 hx.value
  have hclosed := σ.closed x u hu
  rwa [Context.instantiate_closed_value (h.param x u hx.own hx.declared hu) hclosed]

/-- A term over parameters has a closed value. -/
theorem instantiate_closed (h : Tidy P σ m) {t : Term}
    (ht : ∀ y, t.occurs y = true → IsParam P σ m y) : (m.instantiate t).hasVar = false := by
  refine Term.hasVar_eq_false.2 fun y => (Bool.not_eq_true _).mp fun hy => ?_
  obtain ⟨x, hx, hxy⟩ := Context.occurs_instantiate.1 hy
  rw [Term.hasVar_eq_false.1 (h.instantiate_param (ht x hx))] at hxy
  cases hxy

/-- A term over parameters keeps its value. -/
theorem instantiate_eq (h : Tidy P σ m) (hext : m.Extends n) {t : Term}
    (ht : ∀ y, t.occurs y = true → IsParam P σ m y) : n.instantiate t = m.instantiate t := by
  rw [Context.instantiate_eq_subst, Context.instantiate_eq_subst]
  refine Term.subst_congr fun y hy => ?_
  have hy := ht y hy
  obtain ⟨u, hu⟩ := Option.isSome_iff_exists.1 hy.value
  have hb := h.param y u hy.own hy.declared hu
  have hclosed := σ.closed y u hu
  rw [Context.instantiate_closed_value (hext y _ hb) hclosed,
    Context.instantiate_closed_value hb hclosed]

/-- Only the values of proof variables mention variables. -/
theorem value_mentions (h : Tidy P σ m) {x y : Var} {v : Term} (ho : P.Own x)
    (hb : m.binding? x = some (.value v)) (hy : v.occurs y = true) :
    σ.value? x = none ∧ (IsParam P σ m y ∨ IsLaterProof P σ x y) := by
  cases hx : σ.value? x with
  | some u =>
    obtain ⟨d, hd⟩ := Context.exists_decl?_of_binding? hb
    have hu := h.param x u ho (Context.isDeclared_of_decl? hd) hx
    obtain rfl : u = v := by simpa using hu.symm.trans hb
    rw [Term.hasVar_eq_false.1 (σ.closed x u hx) y] at hy
    cases hy
  | none =>
    obtain ⟨w, hw, hin⟩ := h.proof x _ ho hx hb
    obtain rfl : v = w := by simpa using hw
    exact ⟨rfl, hin y hy⟩

/-- All types are closed. -/
theorem goalType_closed (h : Tidy P σ m) {x : Var} {A : Term} (ho : P.Own x)
    (hA : m.goalType x = .ok A) : A.hasVar = false := by
  unfold Context.goalType at hA
  split at hA
  · cases hA
  · next d hd =>
    cases hA
    exact h.instantiate_closed fun y hy => ((h.decl x d ho hd).type y hy).1

end Tidy

end ProofSearch
