import ProofSearch.Proofs.Derivation.Clauses
import ProofSearch.Proofs.Metavar.Unification

/-!
# The ledger of a search

A search gives two roles to its variables.  Some stand for proofs: the root, the premises of an
applied clause, and copies of these.  All others stand in types.  The ledger says which is which and
what each proof variable proves.

1. `Conforms`: a context in which every binding of a proof variable is a step of a derivation.
2. `Advance`: from a conforming context to a later one.
3. `Advance.declare`, `Advance.unify`, `Advance.assign`: what rules do to a context is of this kind.
-/

namespace ProofSearch

/-! ## Problems and ledgers -/

/-- What a search is about: a closed goal, closed clauses, and the number of the latest variable
before the search. -/
structure Problem where
  clauses : List Clause
  root : Var
  type : Term
  hyps : LocalContext
  base : Nat
  root_le : root.index ≤ base
  type_closed : type.hasVar = false
  hyps_closed : ∀ h ∈ hyps, h.type.hasVar = false
  clauses_closed : ∀ c ∈ clauses, c.isClosed = true

/-- The variables of the search itself. -/
def Problem.Own (P : Problem) (x : Var) : Prop := x = P.root ∨ P.base < x.index

/-- What each proof variable proves, in terms of the parameters of the clause it is a premise of,
and the number of the latest variable. -/
structure Ledger where
  claim? : Var → Option Term
  last : Nat

namespace Ledger

/-- The entries so far stay. -/
structure Grows (L L' : Ledger) : Prop where
  last : L.last ≤ L'.last
  claim : ∀ x, x.index ≤ L.last → L'.claim? x = L.claim? x

theorem Grows.refl (L : Ledger) : L.Grows L := ⟨le_rfl, fun _ _ => rfl⟩

theorem Grows.trans {L L' L'' : Ledger} (h : L.Grows L') (h' : L'.Grows L'') : L.Grows L'' :=
  ⟨h.last.trans h'.last, fun x hx => (h'.claim x (hx.trans h.last)).trans (h.claim x hx)⟩

/-- The ledger with an entry for the next variable. -/
def add (L : Ledger) (claim : Option Term) : Ledger where
  claim? x := if x.index = L.last + 1 then claim else L.claim? x
  last := L.last + 1

theorem grows_add (L : Ledger) (claim : Option Term) : L.Grows (L.add claim) :=
  ⟨Nat.le_succ _, fun x hx => if_neg (by omega)⟩

@[simp] theorem claim?_add (L : Ledger) (claim : Option Term) :
    (L.add claim).claim? ⟨L.last + 1⟩ = claim := if_pos rfl

end Ledger

section

variable (P : Problem) (L : Ledger) (m : Context)

/-- A declared variable of the search that stands in types. -/
structure InTypes (x : Var) : Prop where
  own : P.Own x
  entry : L.claim? x = none
  declared : m.isDeclared x = true

/-- A declared variable of the search that stands for a proof of `A`. -/
structure InProofs (A : Term) (x : Var) : Prop where
  own : P.Own x
  entry : L.claim? x = some A
  declared : m.isDeclared x = true

/-- All variables of the term stand in types. -/
def OverTypes (t : Term) : Prop := ∀ x, t.occurs x = true → InTypes P L m x

/-- The term is one step of a proof of `A`: a hypothesis, a clause whose premises are proof
variables, or a copy. -/
inductive Justifies (A : Term) : Term → Prop
  | hyp {h : Hypothesis} : h ∈ P.hyps → m.instantiate A = h.type → Justifies A (.hyp h.name)
  | clause {c : Clause} {xs ys : List Var} : c ∈ P.clauses → xs.length = c.params.length →
      (∀ x ∈ xs, InTypes P L m x) →
      m.instantiate (c.fill (xs.map .var) c.conclusion) = m.instantiate A →
      List.Forall₂ (fun y premise => InProofs P L m (c.fill (xs.map .var) premise) y) ys
        c.premises →
      Justifies A (.apply c.name ((xs ++ ys).map .var))
  | copy {y : Var} : InProofs P L m A y → Justifies A (.var y)

/-- What may be assigned to a variable, by its role. -/
structure Fits (x : Var) (t : Term) : Prop where
  inTypes : L.claim? x = none → OverTypes P L m t
  inProofs : ∀ A, L.claim? x = some A → Justifies P L m A t

/-- How a variable may be declared, by its role. -/
structure Declares (x : Var) (d : VarDecl) : Prop where
  hyps : d.hyps = P.hyps
  type : OverTypes P L m d.type
  claim : ∀ A, L.claim? x = some A →
    OverTypes P L m A ∧ m.instantiate d.type = m.instantiate A

/-- The variables of the search are declared and bound as the ledger says. -/
structure Conforms : Prop where
  base_le : P.base ≤ L.last
  le_last : ∀ x, P.Own x → m.isDeclared x = true → x.index ≤ L.last
  decl : ∀ x d, P.Own x → m.decl? x = some d → Declares P L m x d
  value : ∀ x b, P.Own x → m.binding? x = some b → ∃ t, b = .value t ∧ Fits P L m x t
  plain : ∀ x, P.Own x → m.Plain x

end

variable {P : Problem} {L L' : Ledger} {m n : Context}

theorem Context.isDeclared_of_isAssigned {x : Var} (h : m.isAssigned x = true) :
    m.isDeclared x = true := by
  obtain ⟨b, hb⟩ := Option.isSome_iff_exists.1 h
  obtain ⟨d, hd⟩ := Context.exists_decl?_of_binding? hb
  exact Context.isDeclared_of_decl? hd

theorem overTypes_closed {t : Term} (h : t.hasVar = false) : OverTypes P L m t := by
  intro x hx
  rw [Term.hasVar_eq_false.1 h x] at hx
  cases hx

theorem overTypes_fill {c : Clause} {t : Term} (ht : t.hasVar = false) {xs : List Var}
    (h : ∀ x ∈ xs, InTypes P L m x) : OverTypes P L m (c.fill (xs.map .var) t) :=
  fun x hx => h x (Clause.occurs_fill ht hx)

namespace Conforms

theorem plainTerm {t : Term} (h : Conforms P L m) (ht : OverTypes P L m t) : m.PlainTerm t :=
  fun x hx => h.plain x (ht x hx).own

/-- The value of a variable in types mentions such variables only. -/
theorem inTypes_of_occurs (h : Conforms P L m) {x y : Var} (hx : InTypes P L m x)
    (hy : (m.instantiate (.var x)).occurs y = true) : InTypes P L m y := by
  induction h.plain x hx.own with
  | @unbound x hb =>
    rw [Context.instantiate_open hb] at hy
    obtain rfl : x = y := by simpa [Term.occurs] using hy
    exact hx
  | @value x t hb hall ih =>
    rw [(Context.Plain.value hb hall).instantiate_eq hb, Context.occurs_instantiate] at hy
    obtain ⟨z, hz, hzy⟩ := hy
    obtain ⟨u, hu, hfit⟩ := h.value x _ hx.own hb
    cases hu
    exact ih z hz (hfit.inTypes hx.entry z hz) hzy

theorem overTypes_instantiate (h : Conforms P L m) {t : Term} (ht : OverTypes P L m t) :
    OverTypes P L m (m.instantiate t) := by
  intro y hy
  obtain ⟨x, hx, hxy⟩ := Context.occurs_instantiate.1 hy
  exact h.inTypes_of_occurs (ht x hx) hxy

theorem instantiate_instantiate (h : Conforms P L m) {t : Term} (ht : OverTypes P L m t) :
    m.instantiate (m.instantiate t) = m.instantiate t :=
  (h.plainTerm ht).instantiate_extends (.refl m)

end Conforms

/-- A step of a proof mentions declared variables of the search only. -/
theorem Justifies.own_declared {A t : Term} (h : Justifies P L m A t) {y : Var}
    (hy : t.occurs y = true) : P.Own y ∧ m.isDeclared y = true := by
  cases h with
  | hyp => cases hy
  | @clause c xs ys hc hlen hxs heq hys =>
    obtain ⟨u, hu, hy⟩ := Term.occurs_apply.1 hy
    obtain ⟨z, hz, rfl⟩ := List.mem_map.1 hu
    obtain rfl : z = y := by simpa [Term.occurs] using hy
    rcases List.mem_append.1 hz with hz | hz
    · exact ⟨(hxs z hz).own, (hxs z hz).declared⟩
    · obtain ⟨i, hi, rfl⟩ := List.mem_iff_getElem.1 hz
      have hpremise := hys.get hi (hys.length_eq ▸ hi)
      exact ⟨hpremise.own, hpremise.declared⟩
  | @copy z hz =>
    obtain rfl : z = y := by simpa [Term.occurs] using hy
    exact ⟨hz.own, hz.declared⟩

theorem Fits.own_declared {x : Var} {t : Term} (h : Fits P L m x t) {y : Var}
    (hy : t.occurs y = true) : P.Own y ∧ m.isDeclared y = true := by
  cases hx : L.claim? x with
  | none => exact ⟨(h.inTypes hx y hy).own, (h.inTypes hx y hy).declared⟩
  | some A => exact (h.inProofs A hx).own_declared hy

theorem Fits.own {x : Var} {t : Term} (h : Fits P L m x t) {y : Var} (hy : t.occurs y = true) :
    P.Own y := (h.own_declared hy).1

/-! ## Later contexts -/

/-- The context `n` with the ledger `L'` knows all that `m` with `L` does, and the variables of
others are bound as before. -/
structure Later (P : Problem) (L : Ledger) (m : Context) (L' : Ledger) (n : Context) : Prop where
  grows : L.Grows L'
  extension : m.Extends n
  decl : ∀ x d, m.decl? x = some d → n.decl? x = some d
  others : ∀ x, ¬ P.Own x → n.binding? x = m.binding? x
  plain : ∀ x, P.Own x → n.Plain x

section

variable (h : Conforms P L m) (hl : Later P L m L' n)

include hl in
theorem Later.declared {x : Var} (hx : m.isDeclared x = true) : n.isDeclared x = true := by
  obtain ⟨d, hd⟩ := Context.exists_decl? hx
  exact Context.isDeclared_of_decl? (hl.decl x d hd)

include hl in
theorem Later.isAssigned {x : Var} (hx : m.isAssigned x = true) : n.isAssigned x = true := by
  obtain ⟨b, hb⟩ := Option.isSome_iff_exists.1 hx
  exact Option.isSome_iff_exists.2 ⟨b, hl.extension x b hb⟩

include h hl

theorem Later.claim? {x : Var} (ho : P.Own x) (hx : m.isDeclared x = true) :
    L'.claim? x = L.claim? x := hl.grows.claim x (h.le_last x ho hx)

theorem InTypes.later {x : Var} (hx : InTypes P L m x) : InTypes P L' n x :=
  ⟨hx.own, (hl.claim? h hx.own hx.declared).trans hx.entry, hl.declared hx.declared⟩

theorem InProofs.later {x : Var} {A : Term} (hx : InProofs P L m A x) : InProofs P L' n A x :=
  ⟨hx.own, (hl.claim? h hx.own hx.declared).trans hx.entry, hl.declared hx.declared⟩

theorem OverTypes.later {t : Term} (ht : OverTypes P L m t) : OverTypes P L' n t :=
  fun x hx => (ht x hx).later h hl

omit h in
/-- What was equal stays equal. -/
theorem Later.instantiate_eq {t u : Term} (ht : OverTypes P L m t) (hu : OverTypes P L m u)
    (heq : m.instantiate t = m.instantiate u) : n.instantiate t = n.instantiate u := by
  have hp {v : Term} (hv : OverTypes P L m v) : n.instantiate (m.instantiate v) = n.instantiate v :=
    Context.PlainTerm.instantiate_extends (fun x hx => hl.plain x (hv x hx).own) hl.extension
  rw [← hp ht, heq, hp hu]

theorem Justifies.later {A t : Term} (hA : OverTypes P L m A) (ht : Justifies P L m A t) :
    Justifies P L' n A t := by
  cases ht with
  | @hyp k hk heq =>
    refine .hyp hk ?_
    have hclosed := P.hyps_closed k hk
    rw [hl.instantiate_eq hA (overTypes_closed hclosed)
      (heq.trans (Context.instantiate_closed hclosed).symm), Context.instantiate_closed hclosed]
  | @clause c xs ys hc hlen hxs heq hys =>
    have hconcl := (Clause.isClosed_iff.1 (P.clauses_closed c hc)).2.2
    exact .clause hc hlen (fun x hx => (hxs x hx).later h hl)
      (hl.instantiate_eq (overTypes_fill hconcl hxs) hA heq)
      (hys.imp fun _ _ hy => hy.later h hl)
  | copy hy => exact .copy (hy.later h hl)

theorem Declares.later {x : Var} {d : VarDecl} (ho : P.Own x) (hd : m.decl? x = some d)
    (hx : Declares P L m x d) : Declares P L' n x d := by
  refine ⟨hx.hyps, hx.type.later h hl, fun A hA => ?_⟩
  rw [hl.claim? h ho (Context.isDeclared_of_decl? hd)] at hA
  obtain ⟨hAt, heq⟩ := hx.claim A hA
  exact ⟨hAt.later h hl, hl.instantiate_eq hx.type hAt heq⟩

theorem Fits.later {x : Var} {t : Term} (ho : P.Own x) (hb : m.binding? x = some (.value t))
    (hx : Fits P L m x t) : Fits P L' n x t := by
  obtain ⟨d, hd⟩ := Context.exists_decl?_of_binding? hb
  have hclaim := hl.claim? h ho (Context.isDeclared_of_decl? hd)
  refine ⟨fun hn => (hx.inTypes (hclaim.symm.trans hn)).later h hl, fun A hA => ?_⟩
  have hA := hclaim.symm.trans hA
  exact (hx.inProofs A hA).later h hl ((h.decl x d ho hd).claim A hA).1

/-- A later context conforms if what is new in it does. -/
theorem Conforms.later
    (hdecl : ∀ x d, P.Own x → n.decl? x = some d → m.decl? x = some d ∨
      x.index ≤ L'.last ∧ Declares P L' n x d)
    (hvalue : ∀ x b, P.Own x → n.binding? x = some b → m.binding? x = some b ∨
      ∃ t, b = .value t ∧ Fits P L' n x t) : Conforms P L' n where
  base_le := h.base_le.trans hl.grows.last
  le_last x ho hx := by
    obtain ⟨d, hd⟩ := Context.exists_decl? hx
    rcases hdecl x d ho hd with hd | ⟨hle, -⟩
    · exact (h.le_last x ho (Context.isDeclared_of_decl? hd)).trans hl.grows.last
    · exact hle
  decl x d ho hd := by
    rcases hdecl x d ho hd with hd | ⟨-, hd⟩
    · exact (h.decl x d ho hd).later h hl ho hd
    · exact hd
  value x b ho hb := by
    rcases hvalue x b ho hb with hb | hb
    · obtain ⟨t, rfl, hfit⟩ := h.value x b ho hb
      exact ⟨t, rfl, hfit.later h hl ho hb⟩
    · exact hb
  plain := hl.plain

end

/-! ## Steps -/

/-- From a context to a later one that conforms. -/
structure Advance (P : Problem) (L : Ledger) (m : Context) (L' : Ledger) (n : Context) : Prop
    extends Later P L m L' n where
  conforms : Conforms P L' n

namespace Advance

theorem refl (h : Conforms P L m) : Advance P L m L m :=
  ⟨⟨.refl L, .refl m, fun _ _ => id, fun _ _ => rfl, h.plain⟩, h⟩

theorem trans {L'' : Ledger} {k : Context} (h : Advance P L m L' n) (h' : Advance P L' n L'' k) :
    Advance P L m L'' k where
  grows := h.grows.trans h'.grows
  extension := h.extension.trans h'.extension
  decl x d hd := h'.decl x d (h.decl x d hd)
  others x hx := (h'.others x hx).trans (h.others x hx)
  plain := h'.plain
  conforms := h'.conforms

/-- The ledger may grow while the context stays. -/
theorem grow (h : Conforms P L m) (hL : L.Grows L') : Advance P L m L' m := by
  have hl : Later P L m L' m := ⟨hL, .refl m, fun _ _ => id, fun _ _ => rfl, h.plain⟩
  exact ⟨hl, h.later hl (fun _ _ _ => .inl) fun _ _ _ => .inl⟩

/-- The next variable is declared in the role that the ledger gives it. -/
theorem declare (h : Conforms P L m) {type : Term} {claim : Option Term}
    (ht : OverTypes P L m type) (hclaim : ∀ A, claim = some A →
      OverTypes P L m A ∧ m.instantiate type = m.instantiate A) :
    Advance P L m (L.add claim) (m.declareFresh ⟨L.last + 1⟩ { type, hyps := P.hyps }) := by
  have hbase := h.base_le
  have hown : P.Own ⟨L.last + 1⟩ := .inr (by simpa using Nat.lt_succ_of_le hbase)
  have hnone : m.decl? ⟨L.last + 1⟩ = none := by
    cases hd : m.decl? ⟨L.last + 1⟩ with
    | none => rfl
    | some d => exact absurd (h.le_last _ hown (Context.isDeclared_of_decl? hd)) (by simp)
  have hbinding := fun y =>
    Context.binding?_declareFresh m ⟨L.last + 1⟩ y { type, hyps := P.hyps }
  have hl : Later P L m (L.add claim)
      (m.declareFresh ⟨L.last + 1⟩ { type, hyps := P.hyps }) := by
    refine ⟨L.grows_add claim, fun y b hb => (hbinding y).trans hb, fun y d hd => ?_,
      fun y _ => hbinding y, fun y hy => (h.plain y hy).congr hbinding⟩
    rw [Context.decl?_declareFresh, if_neg]
    · exact hd
    · rintro rfl
      exact nomatch hnone.symm.trans hd
  refine ⟨hl, h.later hl (fun y d _ hd => ?_) fun y b _ hb => .inl ((hbinding y).symm.trans hb)⟩
  rw [Context.decl?_declareFresh] at hd
  split at hd
  · next hy =>
    subst hy
    cases hd
    refine .inr ⟨le_rfl, rfl, ht.later h hl, fun A hA => ?_⟩
    obtain ⟨hAt, heq⟩ := hclaim A ((L.claim?_add claim).symm.trans hA)
    exact ⟨hAt.later h hl, hl.instantiate_eq ht hAt heq⟩
  · exact .inl hd

/-- Variables in types are bound to terms over such variables. -/
theorem binds {V : Var → Prop} (h : Conforms P L m) (hb : Context.Binds V m n)
    (hV : ∀ y, V y → InTypes P L m y) : Advance P L m L n := by
  have hl : Later P L m L n := ⟨.refl L, hb.extension, fun x d hd => (hb.decl x).trans hd,
    fun x hx => hb.binding_eq fun hx' => hx (hV x hx').own, fun x hx => hb.plain x (h.plain x hx)⟩
  refine ⟨hl, h.later hl (fun x d _ hd => .inl ((hb.decl x).symm.trans hd)) fun x b _ hx => ?_⟩
  refine (hb.bound x b hx).imp_right fun ⟨hxV, t, hbt, ht⟩ => ⟨t, hbt, fun _ y hy => ?_, ?_⟩
  · exact (hV y (ht y hy)).later h hl
  · intro A hA
    rw [(hV x hxV).entry] at hA
    cases hA

/-- Unifying terms over variables in types makes them equal. -/
theorem unify (h : Conforms P L m) {l r : Term} (hl : OverTypes P L m l) (hr : OverTypes P L m r)
    (hu : m.unify l r = some n) : Advance P L m L n ∧ n.instantiate l = n.instantiate r := by
  refine ⟨.binds h (Context.binds_unify hu (h.plainTerm hl) (h.plainTerm hr)) fun y hy => ?_,
    Context.unify_equal hu (h.plainTerm hl) (h.plainTerm hr)⟩
  exact hy.elim (h.overTypes_instantiate hl y) (h.overTypes_instantiate hr y)

/-- A variable is assigned a term that fits its role. -/
theorem assign (h : Conforms P L m) {x : Var} {t : Term} (ho : P.Own x) (hfit : Fits P L m x t)
    (ha : m.assign x t = .ok n) : Advance P L m L n := by
  have hb : Context.Binds P.Own m n := Context.binds_assign ha
    (fun y hy => h.plain y (hfit.own hy)) ho fun y hy => hfit.own hy
  have hl : Later P L m L n := ⟨.refl L, hb.extension, fun y d hd => (hb.decl y).trans hd,
    fun y => hb.binding_eq, fun y hy => hb.plain y (h.plain y hy)⟩
  have hvalue := (Context.binding?_of_assign ha).2
  obtain ⟨d, hd⟩ := Context.exists_decl?_of_binding? hvalue
  have hdm := (hb.decl x).symm.trans hd
  have hnew : Fits P L n x t := by
    refine ⟨fun hn => (hfit.inTypes hn).later h hl, fun A hA => ?_⟩
    exact (hfit.inProofs A hA).later h hl ((h.decl x d ho hdm).claim A hA).1
  refine ⟨hl, h.later hl (fun y d _ hd => .inl ((hb.decl y).symm.trans hd)) fun y b _ hy => ?_⟩
  by_cases hyx : y = x
  · subst hyx
    exact .inr ⟨t, Option.some.inj (hy.symm.trans hvalue), hnew⟩
  · obtain ⟨e, -, -, rfl⟩ := Context.assign_eq_ok_iff.1 ha
    rw [Context.binding?_bind, if_neg hyx] at hy
    exact .inl hy

end Advance

end ProofSearch
