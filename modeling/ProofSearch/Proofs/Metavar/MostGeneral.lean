import ProofSearch.Metavar.Solver
import ProofSearch.Proofs.Metavar.Cycles
import ProofSearch.Proofs.Metavar.Matching

/-!
# Most general unifiers

In a context without delayed variables and without cycles, unification finds the most general
unifier of two terms, or there is no unifier.

1. `Respects`: a substitution that agrees with all values of a context.  `respects_unifyAll`: the
   substitutions that respect a context and solve the equations are those that respect the context
   in which the equations have been solved.
2. `Unifying`: unification as a plain recursion that instantiates both terms at every call and has
   no bound.  `unifying_unify`: it ends, with the context that `unify` returns.
3. `unify_mostGeneral`: all of this for a solver.
-/

namespace ProofSearch

/-! ## The occurs check -/

namespace Term

theorem size_le_sizeList {t : Term} {ts : List Term} (h : t ∈ ts) : t.size ≤ sizeList ts := by
  induction ts with
  | nil => cases h
  | cons u us ih =>
    rw [sizeList]
    rcases List.mem_cons.1 h with rfl | h
    · exact Nat.le_add_right ..
    · exact (ih h).trans (Nat.le_add_left ..)

theorem size_le_size_subst {σ : Var → Term} {x : Var} {t : Term} (h : t.occurs x = true) :
    (σ x).size ≤ (t.subst σ).size := by
  induction t using ind with
  | const | hyp => cases h
  | var y =>
    obtain rfl : y = x := by simpa [occurs] using h
    exact le_rfl
  | app head args ih =>
    obtain ⟨t, ht, hx⟩ := occursList_iff.1 h
    have hmem : t.subst σ ∈ substList σ args := by
      rw [substList_eq_map]
      exact List.mem_map_of_mem ht
    calc (σ x).size
      _ ≤ (t.subst σ).size := ih t ht hx
      _ ≤ sizeList (substList σ args) := size_le_sizeList hmem
      _ ≤ 1 + sizeList (substList σ args) := Nat.le_add_left ..

/-- No substitution makes a variable equal to a larger term in which it occurs. -/
theorem subst_ne_of_occurs {x : Var} {t : Term} (h : t.occurs x = true) (hne : t ≠ .var x)
    (σ : Var → Term) : σ x ≠ t.subst σ := by
  cases t with
  | const | hyp => cases h
  | var y =>
    obtain rfl : y = x := by simpa [occurs] using h
    exact (hne rfl).elim
  | app head args =>
    intro heq
    obtain ⟨t, ht, hx⟩ := occursList_iff.1 h
    have hmem : t.subst σ ∈ substList σ args := by
      rw [substList_eq_map]
      exact List.mem_map_of_mem ht
    have hle := (size_le_size_subst (σ := σ) hx).trans (size_le_sizeList hmem)
    rw [heq, subst, size] at hle
    omega

end Term

namespace Context

variable {m n : Context} {x y : Var} {l r t : Term} {es rest : List Equation} {σ : Var → Term}

/-! ## Contexts without cycles -/

/-- No variable waits for another one. -/
def Undelayed (m : Context) : Prop := ∀ x p, m.binding? x ≠ some (.delayed p)

theorem Undelayed.plain (hd : m.Undelayed) (h : m.Grounded x) : m.Plain x := by
  induction h with
  | intro x _ ih =>
    cases hb : m.binding? x with
    | none => exact .unbound hb
    | some b =>
      cases b with
      | value t => exact .value hb fun y hy => ih y (.inl ⟨t, hb, hy⟩)
      | delayed p => exact (hd x p hb).elim

theorem undelayed_of_plain (h : ∀ x, m.Plain x) : m.Undelayed := by
  intro x p hp
  cases h x with
  | unbound hb => exact nomatch hb.symm.trans hp
  | value hb => exact nomatch hb.symm.trans hp

theorem acyclic_of_plain (h : ∀ x, m.Plain x) : m.Acyclic :=
  fun x => (h x).grounded.not_refers_back

/-! ## Substitutions that respect a context -/

/-- The substitution gives every assigned variable what it gives the assigned term. -/
def Respects (m : Context) (σ : Var → Term) : Prop :=
  ∀ x t, m.binding? x = some (.value t) → σ x = t.subst σ

theorem Respects.subst_instantiate_var (h : m.Respects σ) (hx : m.Plain x) :
    (m.instantiate (.var x)).subst σ = σ x := by
  induction hx with
  | unbound hb =>
    rw [instantiate_open hb]
    rfl
  | @value x t hb hall ih =>
    rw [(Plain.value hb hall).instantiate_eq hb, instantiate_eq_subst, Term.subst_subst, h x t hb]
    exact Term.subst_congr ih

/-- Instantiating first makes no difference to a substitution that respects the context. -/
theorem Respects.subst_instantiate (h : m.Respects σ) (ht : m.PlainTerm t) :
    (m.instantiate t).subst σ = t.subst σ := by
  rw [instantiate_eq_subst, Term.subst_subst]
  exact Term.subst_congr fun x hx => h.subst_instantiate_var (ht x hx)

theorem respects_assign (h : m.assign x t = .ok n) :
    n.Respects σ ↔ m.Respects σ ∧ σ x = t.subst σ := by
  obtain ⟨hx, hxt⟩ := binding?_of_assign h
  obtain ⟨d, -, -, rfl⟩ := assign_eq_ok_iff.1 h
  constructor
  · intro hn
    exact ⟨fun y u hy => hn y u (extends_bind hx d _ y _ hy), hn x t hxt⟩
  · rintro ⟨hm, hσ⟩ y u hy
    rw [binding?_bind] at hy
    split at hy
    · next hyx =>
      cases hy
      rw [hyx, hσ]
    · exact hm y u hy

theorem Respects.solves_instantiate (h : m.Respects σ) (hp : ∀ y, Mentions es y → m.Plain y) :
    Solves σ (es.map (·.map m.instantiate)) ↔ Solves σ es := by
  refine List.forall_mem_map.trans (forall₂_congr fun e he => ?_)
  have hl : m.PlainTerm e.left := fun y hy => hp y ⟨e, he, .inl hy⟩
  have hr : m.PlainTerm e.right := fun y hy => hp y ⟨e, he, .inr hy⟩
  rw [Equation.map, h.subst_instantiate hl, h.subst_instantiate hr]

/-! ## Failure -/

theorem demand_clash (h : demand es = .clash) (σ : Var → Term) : ¬ Solves σ es := by
  fun_induction demand es with
  | case1 => cases h
  | case2 l r rest hs ih => exact fun hσ => ih h (solves_cons.1 hσ).2
  | case3 l r rest es hs ih =>
    intro hσ
    obtain ⟨hlr, hrest⟩ := solves_cons.1 hσ
    exact ih h (solves_append.2 ⟨((unifyStep_split hs).1 σ).2 hlr, hrest⟩)
  | case4 => cases h
  | case5 l r rest hs => exact fun hσ => unifyStep_clash hs σ (solves_cons.1 hσ).1

theorem unifyStep_bind_ne (h : unifyStep l r = .bind x t) : t ≠ .var x := by
  revert h
  fun_cases unifyStep l r <;> intro h <;> cases h
  · next hne =>
    intro heq
    cases heq
    exact hne rfl
  · next hne => exact fun heq => hne _ heq
  · next hne => exact fun heq => hne _ heq

theorem demand_bind_ne (h : demand es = .bind x t rest) : t ≠ .var x := by
  fun_induction demand es with
  | case1 => cases h
  | case2 _ _ _ _ ih => exact ih h
  | case3 _ _ _ _ _ ih => exact ih h
  | case4 _ _ _ _ _ hs =>
    cases h
    exact unifyStep_bind_ne hs
  | case5 => cases h

/-- An open declared variable fails to be assigned only to a term in which it occurs. -/
theorem occurs_of_assign_error {e : MetavarError} (h : m.assign x t = .error e)
    (hd : m.isDeclared x = true) (hx : m.binding? x = none) :
    (m.instantiate t).occurs x = true := by
  by_contra ho
  obtain ⟨d, hd⟩ := exists_decl? hd
  have hok := assign_eq_ok_iff.2 ⟨d, assignable_iff_open.2 ⟨hd, hx⟩, by simpa using ho, rfl⟩
  exact nomatch h.symm.trans hok

/-! ## Solutions -/

/-- The variables of the equations are declared. -/
def Declares (m : Context) (es : List Equation) : Prop := ∀ y, Mentions es y → m.isDeclared y = true

/-- Solving equations loses no solution and adds none. -/
theorem respects_unifyAll (hes : m.Unbound es) (hdecl : m.Declares es) :
    (∃ n, m.unifyAll es = some n ∧ n.Respects σ) ↔ m.Respects σ ∧ Solves σ es := by
  fun_induction unifyAll m es with
  | case1 m es hd => simp [demand_solved hd]
  | case2 m es hd => simp [demand_clash hd]
  | case3 m es x t rest hd e ha =>
    -- the variable is open and declared, so it occurs in the larger term it should be equal to
    obtain ⟨hsol, hx, ht, -⟩ := demand_bind hd
    have ho := occurs_of_assign_error ha (hdecl x hx) (hes x hx)
    have hself : m.instantiate t = t :=
      Term.subst_eq_self fun y hy => instantiate_open (hes y (ht y hy))
    rw [hself] at ho
    have hno := Term.subst_ne_of_occurs ho (demand_bind_ne hd) σ
    simp [hsol, hno]
  | case4 m es x t rest hd n ha ih =>
    obtain ⟨hsol, hx, ht, hrest⟩ := demand_bind hd
    have htopen (z : Var) (hz : t.occurs z = true) : m.binding? z = none := hes z (ht z hz)
    have hopen : m.Unbound rest := fun y hy => hes y (hrest y hy)
    have hb : Binds (Mentions es) m n :=
      binds_assign ha (fun z hz => .unbound (htopen z hz)) hx ht
    have hmen {y : Var} (hy : Mentions (rest.map (·.map n.instantiate)) y) : Mentions es y :=
      (mentions_instantiate ha hopen htopen hy).2.elim (hrest y) (ht y)
    have hplain (y : Var) (hy : Mentions rest y) : n.Plain y := hb.plain y (.unbound (hopen y hy))
    rw [ih (fun y hy => (mentions_instantiate ha hopen htopen hy).1)
      fun y hy => (isDeclared_congr (hb.decl y)).trans (hdecl y (hmen hy)), hsol,
      ← and_assoc, ← respects_assign ha]
    exact and_congr_right fun hn => hn.solves_instantiate hplain

/-- The substitutions that make two terms equal are those that respect the context in which the
terms have been unified. -/
theorem respects_unify (hl : m.PlainTerm l) (hr : m.PlainTerm r)
    (hdecl : ∀ y, (m.instantiate l).occurs y = true ∨ (m.instantiate r).occurs y = true →
      m.isDeclared y = true) :
    (∃ n, m.unify l r = some n ∧ n.Respects σ) ↔ m.Respects σ ∧ l.subst σ = r.subst σ := by
  rw [unify, respects_unifyAll (unbound_instantiate hl hr)]
  · refine and_congr_right fun hm => ?_
    simp [Solves, hm.subst_instantiate hl, hm.subst_instantiate hr]
  · rintro y ⟨e, he, hy⟩
    obtain rfl := List.mem_singleton.1 he
    exact hdecl y hy

/-! ## Unification as a recursion -/

/-- Following the bindings of all variables of `t` ends, and leaves `u`. -/
def Reads (m : Context) (t u : Term) : Prop :=
  ∃ τ : Var → Term, (∀ y, t.occurs y = true → m.Follows y (τ y)) ∧ u = t.subst τ

theorem Reads.eq_instantiate {u : Term} (h : m.Reads t u) : u = m.instantiate t := by
  obtain ⟨τ, hτ, rfl⟩ := h
  exact Term.subst_congr fun y hy => (hτ y hy).eq_instantiate

theorem reads_instantiate (h : m.PlainTerm t) : m.Reads t (m.instantiate t) :=
  ⟨_, fun y hy => (h y hy).grounded.follows, rfl⟩

/-- Unifying the terms of the equations in turn ends, with a context or with a failure.  Both terms
of an equation are read anew when its turn comes, in the context that the equations before it have
left, and the arguments of equal symbols are unified in the same way. -/
inductive Unifying : Context → List Equation → Option Context → Prop
  | nil {m : Context} : Unifying m [] (some m)
  | done {m : Context} {l r l' r' : Term} {rest : List Equation} {o : Option Context} :
      m.Reads l l' → m.Reads r r' → unifyStep l' r' = .done → Unifying m rest o →
      Unifying m (⟨l, r⟩ :: rest) o
  | clash {m : Context} {l r l' r' : Term} {rest : List Equation} :
      m.Reads l l' → m.Reads r r' → unifyStep l' r' = .clash → Unifying m (⟨l, r⟩ :: rest) none
  | bind {m n : Context} {l r l' r' t : Term} {x : Var} {rest : List Equation}
      {o : Option Context} : m.Reads l l' → m.Reads r r' → unifyStep l' r' = .bind x t →
      m.assign x t = .ok n → Unifying n rest o → Unifying m (⟨l, r⟩ :: rest) o
  | refused {m : Context} {l r l' r' t : Term} {x : Var} {rest : List Equation}
      {e : MetavarError} : m.Reads l l' → m.Reads r r' → unifyStep l' r' = .bind x t →
      m.assign x t = .error e → Unifying m (⟨l, r⟩ :: rest) none
  | split {m n : Context} {l r l' r' : Term} {es rest : List Equation} {o : Option Context} :
      m.Reads l l' → m.Reads r r' → unifyStep l' r' = .split es → Unifying m es (some n) →
      Unifying n rest o → Unifying m (⟨l, r⟩ :: rest) o
  | unsplit {m : Context} {l r l' r' : Term} {es rest : List Equation} :
      m.Reads l l' → m.Reads r r' → unifyStep l' r' = .split es → Unifying m es none →
      Unifying m (⟨l, r⟩ :: rest) none

/-! ### One equation after the other -/

theorem unifyAll_nil (m : Context) : m.unifyAll [] = some m := by
  rw [unifyAll, demand]

theorem unifyAll_done (h : unifyStep l r = .done) :
    m.unifyAll (⟨l, r⟩ :: rest) = m.unifyAll rest := by
  rw [unifyAll, demand, h, ← unifyAll]

theorem unifyAll_split (h : unifyStep l r = .split es) :
    m.unifyAll (⟨l, r⟩ :: rest) = m.unifyAll (es ++ rest) := by
  rw [unifyAll, demand, h, ← unifyAll]

theorem unifyAll_clash (h : unifyStep l r = .clash) : m.unifyAll (⟨l, r⟩ :: rest) = none := by
  rw [unifyAll, demand, h]

theorem unifyAll_bind (h : unifyStep l r = .bind x t) (ha : m.assign x t = .ok n) :
    m.unifyAll (⟨l, r⟩ :: rest) = n.unifyAll (rest.map (·.map n.instantiate)) := by
  rw [unifyAll, demand, h]
  dsimp only
  rw [ha]

theorem unifyAll_refused {e : MetavarError} (h : unifyStep l r = .bind x t)
    (ha : m.assign x t = .error e) : m.unifyAll (⟨l, r⟩ :: rest) = none := by
  rw [unifyAll, demand, h]
  dsimp only
  rw [ha]

/-- The terms of the equations, instantiated. -/
def instantiateAll (m : Context) (es : List Equation) : List Equation :=
  es.map (·.map m.instantiate)

theorem instantiateAll_append (m : Context) (es fs : List Equation) :
    m.instantiateAll (es ++ fs) = m.instantiateAll es ++ m.instantiateAll fs := List.map_append

theorem instantiateAll_extends (h : m.Extends n) (hp : ∀ x, n.Plain x) (es : List Equation) :
    n.instantiateAll (m.instantiateAll es) = n.instantiateAll es := by
  have hterm (t : Term) : n.instantiate (m.instantiate t) = n.instantiate t :=
    Context.instantiate_extends h fun x _ => (hp x).grounded
  simp [instantiateAll, Equation.map, Function.comp_def, hterm]

/-- The arguments of instantiated terms are instantiated. -/
theorem instantiateAll_split (hp : ∀ x, m.Plain x)
    (h : unifyStep (m.instantiate l) (m.instantiate r) = .split es) : m.instantiateAll es = es := by
  have hopen {y : Var} (hy : Mentions es y) : m.instantiate (.var y) = .var y := by
    refine instantiate_open ?_
    rcases (unifyStep_split h).2 y hy with hy | hy
    · exact PlainTerm.binding_of_occurs (fun x _ => hp x) hy
    · exact PlainTerm.binding_of_occurs (fun x _ => hp x) hy
  refine (List.map_congr_left fun e he => ?_).trans es.map_id
  have hl : m.instantiate e.left = e.left :=
    Term.subst_eq_self fun y hy => hopen ⟨e, he, .inl hy⟩
  have hr : m.instantiate e.right = e.right :=
    Term.subst_eq_self fun y hy => hopen ⟨e, he, .inr hy⟩
  rw [Equation.map, hl, hr, id]

theorem unifyAll_arguments (hp : ∀ x, m.Plain x)
    (h : unifyStep (m.instantiate l) (m.instantiate r) = .split es) :
    m.unifyAll (m.instantiateAll (⟨l, r⟩ :: rest)) = m.unifyAll (m.instantiateAll (es ++ rest)) := by
  rw [instantiateAll_append, instantiateAll_split hp h]
  exact unifyAll_split h

theorem plain_assign (h : m.assign x t = .ok n) (hp : ∀ y, m.Plain y) (y : Var) : n.Plain y :=
  (binds_assign (V := fun _ => True) h (fun z _ => hp z) trivial fun _ _ => trivial).plain y (hp y)

/-! ### The recursion ends -/

theorem Unifying.plain {o : Option Context} (h : Unifying m es o) (ho : o = some n)
    (hp : ∀ x, m.Plain x) : ∀ x, n.Plain x := by
  induction h generalizing n with
  | nil =>
    cases ho
    exact hp
  | done _ _ _ _ ih => exact ih ho hp
  | bind _ _ _ ha _ ih => exact ih ho (plain_assign ha hp)
  | split _ _ _ _ _ ih ih' => exact ih' ho (ih rfl hp)
  | clash | refused | unsplit => cases ho

theorem Unifying.openCount_lt {o : Option Context} (h : Unifying m es o) (ho : o = some n) :
    n = m ∨ n.openCount < m.openCount := by
  induction h generalizing n with
  | nil =>
    cases ho
    exact .inl rfl
  | done _ _ _ _ ih => exact ih ho
  | bind _ _ _ ha _ ih =>
    have := openCount_assign ha
    rcases ih ho with rfl | hlt
    · exact .inr (by omega)
    · exact .inr (by omega)
  | split _ _ _ _ _ ih ih' =>
    rcases ih rfl with rfl | hlt
    · exact ih' ho
    · rcases ih' ho with rfl | hlt'
      · exact .inr hlt
      · exact .inr (hlt'.trans hlt)
  | clash | refused | unsplit => cases ho

/-- The recursion solves its equations before all others. -/
theorem Unifying.unifyAll_append {o : Option Context} (h : Unifying m es o) (hp : ∀ x, m.Plain x)
    (fs : List Equation) : m.unifyAll (m.instantiateAll (es ++ fs)) =
      o.bind fun n => n.unifyAll (n.instantiateAll fs) := by
  induction h generalizing fs with
  | nil => rfl
  | done hl hr hs _ ih =>
    rw [hl.eq_instantiate, hr.eq_instantiate] at hs
    exact (unifyAll_done hs).trans (ih hp fs)
  | clash hl hr hs =>
    rw [hl.eq_instantiate, hr.eq_instantiate] at hs
    exact unifyAll_clash hs
  | @bind m n l r _ _ t x rest o hl hr hs ha _ ih =>
    rw [hl.eq_instantiate, hr.eq_instantiate] at hs
    have hn := plain_assign ha hp
    have he : m.Extends n :=
      (binds_assign (V := fun _ => True) ha (fun z _ => hp z) trivial fun _ _ => trivial).extension
    calc m.unifyAll (m.instantiateAll (⟨l, r⟩ :: rest ++ fs))
      _ = n.unifyAll (n.instantiateAll (m.instantiateAll (rest ++ fs))) := unifyAll_bind hs ha
      _ = n.unifyAll (n.instantiateAll (rest ++ fs)) := by rw [instantiateAll_extends he hn]
      _ = o.bind fun k => k.unifyAll (k.instantiateAll fs) := ih hn fs
  | refused hl hr hs ha =>
    rw [hl.eq_instantiate, hr.eq_instantiate] at hs
    exact unifyAll_refused hs ha
  | @split m n l r _ _ es rest o hl hr hs h _ ih ih' =>
    rw [hl.eq_instantiate, hr.eq_instantiate] at hs
    calc m.unifyAll (m.instantiateAll (⟨l, r⟩ :: rest ++ fs))
      _ = m.unifyAll (m.instantiateAll (es ++ (rest ++ fs))) := unifyAll_arguments hp hs
      _ = n.unifyAll (n.instantiateAll (rest ++ fs)) := ih hp (rest ++ fs)
      _ = o.bind fun k => k.unifyAll (k.instantiateAll fs) := ih' (h.plain rfl hp) fs
  | unsplit hl hr hs _ ih =>
    rw [hl.eq_instantiate, hr.eq_instantiate] at hs
    exact (unifyAll_arguments hp hs).trans (ih hp _)

/-- The recursion ends: a binding leaves fewer open variables, and between two bindings symbols are
taken off the instantiated equations. -/
theorem exists_unifying (hp : ∀ x, m.Plain x) (es : List Equation) : ∃ o, Unifying m es o := by
  induction hk : m.openCount using Nat.strong_induction_on generalizing m es with
  | _ k ihk =>
    induction hsize : Equation.totalSize (m.instantiateAll es) using Nat.strong_induction_on
      generalizing es with
    | _ size ihs =>
      cases es with
      | nil => exact ⟨_, .nil⟩
      | cons e rest =>
        obtain ⟨l, r⟩ := e
        have hl : m.Reads l _ := reads_instantiate fun x _ => hp x
        have hr : m.Reads r _ := reads_instantiate fun x _ => hp x
        have hadd : Equation.totalSize (m.instantiateAll (⟨l, r⟩ :: rest)) =
            (m.instantiate l).size + (m.instantiate r).size +
              Equation.totalSize (m.instantiateAll rest) := rfl
        have hpos := (m.instantiate l).size_pos
        have hrest : ∃ o, Unifying m rest o := ihs _ (by omega) rest rfl
        cases hs : unifyStep (m.instantiate l) (m.instantiate r) with
        | done =>
          obtain ⟨o, ho⟩ := hrest
          exact ⟨o, .done hl hr hs ho⟩
        | clash => exact ⟨none, .clash hl hr hs⟩
        | bind x t =>
          cases ha : m.assign x t with
          | error e => exact ⟨none, .refused hl hr hs ha⟩
          | ok n =>
            have hlt := openCount_assign ha
            obtain ⟨o, ho⟩ := ihk n.openCount (by omega) (plain_assign ha hp) rest rfl
            exact ⟨o, .bind hl hr hs ha ho⟩
        | split fs =>
          have hlt := totalSize_lt_of_unifyStep hs
          obtain ⟨o, ho⟩ := ihs (Equation.totalSize (m.instantiateAll fs))
            (by rw [instantiateAll_split hp hs]; omega) fs rfl
          cases o with
          | none => exact ⟨none, .unsplit hl hr hs ho⟩
          | some n =>
            have hafter : ∃ o, Unifying n rest o := by
              rcases ho.openCount_lt rfl with rfl | hlt
              · exact hrest
              · exact ihk n.openCount (by omega) (ho.plain rfl hp) rest rfl
            obtain ⟨o, ho'⟩ := hafter
            exact ⟨o, .split hl hr hs ho ho'⟩

/-- The recursion ends, with what `unify` returns and with nothing else. -/
theorem unifying_unify (hp : ∀ x, m.Plain x) (l r : Term) (o : Option Context) :
    Unifying m [⟨l, r⟩] o ↔ o = m.unify l r := by
  have heq {o : Option Context} (h : Unifying m [⟨l, r⟩] o) : o = m.unify l r := by
    refine Eq.trans ?_ (h.unifyAll_append hp []).symm
    cases o with
    | none => rfl
    | some n => exact (unifyAll_nil n).symm
  refine ⟨heq, ?_⟩
  rintro rfl
  obtain ⟨o, ho⟩ := exists_unifying hp [⟨l, r⟩]
  rwa [← heq ho]

end Context

/-! ## Solvers -/

namespace Solver

/-- In a context without delayed variables and without cycles, in which all variables below the two
terms are declared, unification ends.  Either it finds the most general unifier: it adds values of
open variables, keeps the context free of cycles, makes the terms equal, and every substitution that
respects the old values and makes the terms equal respects the new values.  Or there is no such
substitution, and the solver is as it was. -/
theorem unify_mostGeneral (s : Solver) (l r : Term) (hdelay : s.context.Undelayed)
    (hacyclic : s.context.Acyclic)
    (hdecl : ∀ x y, l.occurs x = true ∨ r.occurs x = true → s.context.Reaches x y →
      s.context.isDeclared y = true) :
    ∃ found s', (Solver.unify l r).run s = (found, s') ∧
      (∀ o, Context.Unifying s.context [⟨l, r⟩] o ↔
        o = if found then some s'.context else none) ∧
      (found = true →
        s' = s.withContext s'.context ∧
        (∀ x, s'.context.decl? x = s.context.decl? x) ∧
        (∀ x, s.isAssigned x = true → s'.context.binding? x = s.context.binding? x) ∧
        s'.context.Undelayed ∧ s'.context.Acyclic ∧
        s'.context.instantiate l = s'.context.instantiate r ∧
        ∀ σ, s'.context.Respects σ ↔ s.context.Respects σ ∧ l.subst σ = r.subst σ) ∧
      (found = false → s' = s ∧ ∀ σ, s.context.Respects σ → l.subst σ ≠ r.subst σ) := by
  have hp (x : Var) : s.context.Plain x := hdelay.plain (hacyclic.grounded x)
  have hopen (y : Var) (hy : (s.context.instantiate l).occurs y = true ∨
      (s.context.instantiate r).occurs y = true) : s.context.isDeclared y = true := by
    have hbelow {t : Term} (ht : ∀ x, t.occurs x = true → l.occurs x = true ∨ r.occurs x = true)
        (hy : (s.context.instantiate t).occurs y = true) : s.context.isDeclared y = true := by
      obtain ⟨x, hx, hxy⟩ := Context.occurs_instantiate.1 hy
      exact hdecl x y (ht x hx) ((hacyclic.grounded x).of_occurs hxy).1
    exact hy.elim (hbelow fun _ => .inl) (hbelow fun _ => .inr)
  have hsol (σ : Var → Term) :=
    Context.respects_unify (σ := σ) (l := l) (r := r) (fun x _ => hp x) (fun x _ => hp x) hopen
  have hrec := Context.unifying_unify hp l r
  cases h : s.context.unify l r with
  | none =>
    refine ⟨false, s, by simp [Solver.unify, StateT.run, h], fun o => by rw [hrec, h]; rfl, nofun,
      fun _ => ⟨rfl, fun σ hσ heq => ?_⟩⟩
    obtain ⟨n, hn, -⟩ := (hsol σ).2 ⟨hσ, heq⟩
    exact nomatch h.symm.trans hn
  | some n =>
    have hb := Context.binds_unify h (fun x _ => hp x) fun x _ => hp x
    have hpn (x : Var) : n.Plain x := hb.plain x (hp x)
    refine ⟨true, s.withContext n, by simp [Solver.unify, StateT.run, h],
      fun o => by rw [hrec, h]; rfl, fun _ => ⟨rfl, hb.decl, fun x hx => ?_,
        Context.undelayed_of_plain hpn, Context.acyclic_of_plain hpn,
        Context.unify_equal h (fun x _ => hp x) fun x _ => hp x, fun σ => ?_⟩, nofun⟩
    · obtain ⟨b, hb'⟩ := Option.isSome_iff_exists.1 hx
      exact (hb.extension x b hb').trans hb'.symm
    · refine Iff.trans ⟨fun hn => ⟨n, h, hn⟩, ?_⟩ (hsol σ)
      rintro ⟨k, hk, hσ⟩
      cases h.symm.trans hk
      exact hσ

/-- Four variables, of which the first one has the value `f(?m2)`. -/
def chained : Solver :=
  let decl : VarDecl := { type := .const "T", hyps := [] }
  let unassigned := [1, 2, 3, 4].foldl (fun m i => m.declareFresh ⟨i⟩ decl) Context.empty
  { state := ⟨unassigned.bind ⟨1⟩ decl (.value (.app "f" [.var ⟨2⟩])), .empty⟩, lastId := 4 }

theorem binding?_chained (x : Var) : chained.context.binding? x =
    if x = ⟨1⟩ then some (.value (.app "f" [.var ⟨2⟩])) else none := by
  have hempty : Context.empty.binding? x = none := rfl
  simp only [chained, context, Context.binding?_bind, List.foldl_cons, List.foldl_nil,
    Context.binding?_declareFresh, hempty]

theorem refers_chained {x y : Var} (h : chained.context.Refers x y) : x = ⟨1⟩ ∧ y = ⟨2⟩ := by
  rw [Context.Refers, binding?_chained] at h
  split at h
  · next hx =>
    obtain ⟨t, ht, hy⟩ | ht := h
    · cases ht
      obtain rfl : ⟨2⟩ = y := by
        simpa only [Term.occurs, Term.occursList, Bool.or_false, decide_eq_true_eq] using hy
      exact ⟨hx, rfl⟩
    · cases ht
  · simp at h

/-- The arguments are unified from left to right: the last pair is `?m4` and `b`.  With `f(a)` for
the first variable the second pair clashes. -/
theorem unify_mostGeneral_chained : chained.context.Undelayed ∧ chained.context.Acyclic ∧
    (∃ s', (Solver.unify (.app "g" [.var ⟨1⟩, .var ⟨3⟩, .var ⟨2⟩])
        (.app "g" [.var ⟨3⟩, .app "f" [.var ⟨4⟩], .const "b"])).run chained = (true, s') ∧
      s'.context.Acyclic ∧ s'.context.instantiate (.var ⟨3⟩) = .app "f" [.const "b"]) ∧
    ∀ σ, σ ⟨1⟩ = .app "f" [σ ⟨2⟩] →
      Term.subst σ (.app "g" [.var ⟨1⟩, .var ⟨2⟩]) ≠ .app "g" [.app "f" [.const "a"], .const "b"] := by
  have hdelay : chained.context.Undelayed := by
    intro x p
    rw [binding?_chained]
    split <;> simp
  have hacyclic : chained.context.Acyclic := by
    intro x hx
    obtain ⟨y, hxy, -⟩ := Relation.TransGen.head'_iff.1 hx
    obtain ⟨z, -, hzx⟩ := Relation.TransGen.tail'_iff.1 hx
    exact nomatch (refers_chained hxy).1.symm.trans (refers_chained hzx).2
  have hdecl {l r : Term} (h : ∀ x ∈ l.occurrences ++ r.occurrences,
      chained.context.isDeclared x = true) (x y : Var)
      (hx : l.occurs x = true ∨ r.occurs x = true) (hr : chained.context.Reaches x y) :
      chained.context.isDeclared y = true := by
    rcases Relation.ReflTransGen.cases_tail hr with rfl | ⟨z, -, hz⟩
    · exact h _ (List.mem_append.2 (hx.imp Term.mem_occurrences.2 Term.mem_occurrences.2))
    · rw [(refers_chained hz).2]
      rfl
  refine ⟨hdelay, hacyclic, ?_, ?_⟩
  · obtain ⟨found, s', hrun, -, htrue, -⟩ := unify_mostGeneral chained
      (.app "g" [.var ⟨1⟩, .var ⟨3⟩, .var ⟨2⟩])
      (.app "g" [.var ⟨3⟩, .app "f" [.var ⟨4⟩], .const "b"]) hdelay hacyclic
      (hdecl (by decide))
    have hfound : ((Solver.unify (.app "g" [.var ⟨1⟩, .var ⟨3⟩, .var ⟨2⟩])
        (.app "g" [.var ⟨3⟩, .app "f" [.var ⟨4⟩], .const "b"])).run chained).1 = true ∧
        ((Solver.unify (.app "g" [.var ⟨1⟩, .var ⟨3⟩, .var ⟨2⟩])
        (.app "g" [.var ⟨3⟩, .app "f" [.var ⟨4⟩], .const "b"])).run chained).2.context.instantiate
          (.var ⟨3⟩) = .app "f" [.const "b"] := by decide +kernel
    rw [hrun] at hfound
    obtain ⟨rfl, hvalue⟩ := hfound
    exact ⟨s', hrun, (htrue rfl).2.2.2.2.1, hvalue⟩
  · intro σ hσ
    obtain ⟨found, s', hrun, -, -, hfalse⟩ := unify_mostGeneral chained
      (.app "g" [.var ⟨1⟩, .var ⟨2⟩]) (.app "g" [.app "f" [.const "a"], .const "b"]) hdelay hacyclic
      (hdecl (by decide))
    have hfound : ((Solver.unify (.app "g" [.var ⟨1⟩, .var ⟨2⟩])
        (.app "g" [.app "f" [.const "a"], .const "b"])).run chained).1 = false := by decide +kernel
    rw [hrun] at hfound
    refine (hfalse hfound).2 σ fun x t hx => ?_
    rw [binding?_chained] at hx
    split at hx
    · next h1 =>
      cases hx
      rw [h1, hσ]
      rfl
    · cases hx

end Solver

end ProofSearch
