import ProofSearch.Proofs.Metavar.Unification

/-!
# Matching

Unification with closed terms on the right.  Only variables on the left are bound, and to closed
terms, so no occurs check can fail and unification fails only if there is no solution.

1. `demand_matching`: taking equations apart keeps the right sides closed.
2. `unifyAll_matching`: all variables get closed values, or the equations have no solution.
3. `unify_matching`: the same for two terms; `unify_closed`: closed terms are only compared.
-/

namespace ProofSearch

/-! ## Equations with closed right sides -/

/-- The right sides mention no variable. -/
def RightClosed (es : List Equation) : Prop := ∀ e ∈ es, e.right.hasVar = false

theorem rightClosed_cons {e : Equation} {es : List Equation} :
    RightClosed (e :: es) ↔ e.right.hasVar = false ∧ RightClosed es := by
  simp [RightClosed]

theorem rightClosed_append {es fs : List Equation} :
    RightClosed (es ++ fs) ↔ RightClosed es ∧ RightClosed fs := by
  simp [RightClosed, or_imp, forall_and]

theorem rightClosed_pairs : ∀ {ls rs : List Term}, (∀ t ∈ rs, t.hasVar = false) →
    RightClosed (Equation.pairs ls rs)
  | [], _, _ | _ :: _, [], _ => nofun
  | _ :: _, _ :: _, h => rightClosed_cons.2
    ⟨h _ List.mem_cons_self, rightClosed_pairs fun t ht => h t (List.mem_cons_of_mem _ ht)⟩

theorem mentions_pairs_left {y : Var} : ∀ {ls rs : List Term}, ls.length = rs.length →
    (∃ t ∈ ls, t.occurs y = true) → Mentions (Equation.pairs ls rs) y
  | [], _, _, ⟨t, ht, _⟩ => nomatch ht
  | _ :: _, [], hlen, _ => nomatch hlen
  | l :: ls, r :: rs, hlen, ⟨t, ht, hy⟩ => by
    rw [Equation.pairs, mentions_cons]
    rcases List.mem_cons.1 ht with rfl | ht
    · exact .inl (.inl hy)
    · exact .inr (mentions_pairs_left (Nat.succ.inj hlen) ⟨t, ht, hy⟩)

namespace Context

theorem unifyStep_clash {l r : Term} (h : unifyStep l r = .clash) (σ : Var → Term) :
    l.subst σ ≠ r.subst σ := by
  cases l <;> cases r <;> simp [unifyStep, Term.subst, Term.substList_eq_map] at h ⊢
  case const.const => exact h
  case hyp.hyp => exact h
  case var.var => split at h <;> cases h
  case app.app f xs g ys =>
    intro hfg he
    exact h hfg (by simpa using congrArg List.length he)

theorem unifyStep_split_closed {l r : Term} {es : List Equation} (h : unifyStep l r = .split es)
    (hr : r.hasVar = false) : RightClosed es ∧
      ∀ y, l.occurs y = true ∨ r.occurs y = true → Mentions es y := by
  revert h
  fun_cases unifyStep l r <;> intro h
  case case9 f xs g ys hfg =>
    cases h
    refine ⟨rightClosed_pairs fun t ht => ?_, fun y hy => mentions_pairs_left hfg.2 ?_⟩
    · refine Term.hasVar_eq_false.2 fun y => ?_
      have hy := Term.hasVar_eq_false.1 hr y
      rw [Term.occurs, ← Bool.not_eq_true, Term.occursList_iff] at hy
      exact (Bool.not_eq_true _).mp fun ho => hy ⟨t, ht, ho⟩
    · rw [Term.hasVar_eq_false.1 hr y] at hy
      exact Term.occursList_iff.1 (hy.resolve_right Bool.false_ne_true)
  all_goals cases h

/-- What the first demand of equations with closed right sides says. -/
theorem demand_matching {es : List Equation} (hr : RightClosed es) : match demand es with
    | .solved => ∀ y, ¬ Mentions es y
    | .bind x t rest => t.hasVar = false ∧ RightClosed rest ∧
        ∀ y, Mentions es y → y = x ∨ Mentions rest y
    | .clash => ∀ σ, ¬ Solves σ es := by
  fun_induction demand es with
  | case1 =>
    rintro y ⟨e, he, -⟩
    cases he
  | case2 l r rest hs ih =>
    obtain ⟨hclosed, hrest⟩ := rightClosed_cons.1 hr
    have hnone (y : Var) (hy : Mentions (⟨l, r⟩ :: rest) y) : Mentions rest y := by
      refine (mentions_cons.1 hy).resolve_left fun hlr => ?_
      simp [unifyStep_done hs, Term.hasVar_eq_false.1 hclosed y] at hlr
    have ih := ih hrest
    split at ih
    · exact fun y hy => ih y (hnone y hy)
    · exact ⟨ih.1, ih.2.1, fun y hy => ih.2.2 y (hnone y hy)⟩
    · exact fun σ hσ => ih σ (solves_cons.1 hσ).2
  | case3 l r rest fs hs ih =>
    obtain ⟨hclosed, hrest⟩ := rightClosed_cons.1 hr
    obtain ⟨hfs, hmen⟩ := unifyStep_split_closed hs hclosed
    have hes (y : Var) (hy : Mentions (⟨l, r⟩ :: rest) y) : Mentions (fs ++ rest) y :=
      mentions_append.2 ((mentions_cons.1 hy).imp_left (hmen y))
    have ih := ih (rightClosed_append.2 ⟨hfs, hrest⟩)
    split at ih
    · exact fun y hy => ih y (hes y hy)
    · exact ⟨ih.1, ih.2.1, fun y hy => ih.2.2 y (hes y hy)⟩
    · refine fun σ hσ => ih σ (solves_append.2 ⟨?_, (solves_cons.1 hσ).2⟩)
      exact ((unifyStep_split hs).1 σ).2 (solves_cons.1 hσ).1
  | case4 l r rest x t hs =>
    obtain ⟨hclosed, hrest⟩ := rightClosed_cons.1 hr
    rcases unifyStep_bind hs with ⟨rfl, rfl⟩ | ⟨-, rfl⟩
    · refine ⟨hclosed, hrest, fun y hy => (mentions_cons.1 hy).imp_left fun hy => ?_⟩
      simpa [Term.occurs, Term.hasVar_eq_false.1 hclosed y, eq_comm] using hy
    · cases hclosed
  | case5 l r rest hs => exact fun σ hσ => unifyStep_clash hs σ (solves_cons.1 hσ).1

/-! ## Solutions -/

variable {m n : Context}

/-- The value of a variable after a closed term is assigned to `x`. -/
theorem instantiate_assign_closed {x y : Var} {t : Term} (h : m.assign x t = .ok n)
    (ht : t.hasVar = false) (hy : m.binding? y = none) :
    n.instantiate (.var y) = if y = x then t else .var y := by
  obtain ⟨d, -, -, rfl⟩ := assign_eq_ok_iff.1 h
  split
  · next hyx =>
    have hb : (m.bind x d (.value t)).binding? y = some (.value t) := by
      rw [binding?_bind, if_pos hyx]
    have hplain : (m.bind x d (.value t)).Plain y := .value hb (plainTerm_closed ht)
    rw [hplain.instantiate_eq hb, instantiate_closed ht]
  · next hyx => exact instantiate_open (by rw [binding?_bind, if_neg hyx, hy])

theorem exists_assign_closed {x : Var} {t : Term} (hx : m.binding? x = none)
    (hd : m.isDeclared x = true) (ht : t.hasVar = false) : ∃ n, m.assign x t = .ok n := by
  obtain ⟨d, hd⟩ := exists_decl? hd
  refine ⟨m.bind x d (.value t), assign_eq_ok_iff.2 ⟨d, assignable_iff_open.2 ⟨hd, hx⟩, ?_, rfl⟩⟩
  rw [instantiate_closed ht, Term.hasVar_eq_false.1 ht]

/-- A variable other than the assigned one stays in the equations. -/
theorem mentions_instantiate_other {x y : Var} {t : Term} {es : List Equation}
    (h : m.assign x t = .ok n) (ht : t.hasVar = false) (hes : m.Unbound es) (hyx : y ≠ x)
    (hy : Mentions es y) : Mentions (es.map (·.map n.instantiate)) y := by
  have hvalue : (n.instantiate (.var y)).occurs y = true := by
    simp [instantiate_assign_closed h ht (hes y hy), hyx, Term.occurs]
  obtain ⟨e, he, hey⟩ := hy
  exact ⟨e.map n.instantiate, List.mem_map_of_mem he, hey.imp
    (fun hl => occurs_instantiate.2 ⟨y, hl, hvalue⟩) fun hr => occurs_instantiate.2 ⟨y, hr, hvalue⟩⟩

/-- A solution that agrees with an assignment solves what the assignment leaves. -/
theorem solves_instantiate_assign {x : Var} {t : Term} {es : List Equation} {σ : Var → Term}
    (h : m.assign x t = .ok n) (ht : t.hasVar = false) (hes : m.Unbound es)
    (hσ : σ x = t.subst σ ∧ Solves σ es) : Solves σ (es.map (·.map n.instantiate)) := by
  have hvalue {y : Var} (hy : Mentions es y) : (n.instantiate (.var y)).subst σ = σ y := by
    rw [instantiate_assign_closed h ht (hes y hy)]
    split
    · next hyx => rw [hyx, hσ.1]
    · rfl
  intro e' he'
  obtain ⟨e, he, rfl⟩ := List.mem_map.1 he'
  show (n.instantiate e.left).subst σ = (n.instantiate e.right).subst σ
  rw [instantiate_eq_subst, instantiate_eq_subst, Term.subst_subst, Term.subst_subst,
    Term.subst_congr fun y hy => hvalue ⟨e, he, .inl hy⟩,
    Term.subst_congr fun y hy => hvalue ⟨e, he, .inr hy⟩]
  exact hσ.2 e he

/-- All variables are bound to closed terms, or there is no solution. -/
theorem unifyAll_matching {es : List Equation} (hr : RightClosed es) (hes : m.Unbound es)
    (hd : ∀ y, Mentions es y → m.isDeclared y = true) : match m.unifyAll es with
      | some n => ∀ y, Mentions es y → ∃ u, n.binding? y = some (.value u) ∧ u.hasVar = false
      | none => ∀ σ, ¬ Solves σ es := by
  fun_induction unifyAll m es with
  | case1 m es hdem =>
    have hdemand := demand_matching hr
    rw [hdem] at hdemand
    exact fun y hy => (hdemand y hy).elim
  | case2 m es hdem =>
    have hdemand := demand_matching hr
    rwa [hdem] at hdemand
  | case3 m es x t rest hdem e ha =>
    have hdemand := demand_matching hr
    rw [hdem] at hdemand
    have hx := (demand_bind hdem).2.1
    obtain ⟨n, hn⟩ := exists_assign_closed (hes x hx) (hd x hx) hdemand.1
    cases hn.symm.trans ha
  | case4 m es x t rest hdem k ha ih =>
    have hdemand := demand_matching hr
    rw [hdem] at hdemand
    obtain ⟨hclosed, hright, hsplit⟩ := hdemand
    obtain ⟨hsol, hx, -, hrest⟩ := demand_bind hdem
    have htopen (z : Var) (hz : t.occurs z = true) : m.binding? z = none := by
      simp [Term.hasVar_eq_false.1 hclosed z] at hz
    have hopen : m.Unbound rest := fun y hy => hes y (hrest y hy)
    have hstep : Binds (fun _ => True) m k := binds_assign ha (plainTerm_closed hclosed) trivial
      fun _ _ => trivial
    have hback {y : Var} (hy : Mentions (rest.map (·.map k.instantiate)) y) :
        k.binding? y = none ∧ Mentions rest y := by
      obtain ⟨hyk, hy⟩ := mentions_instantiate ha hopen htopen hy
      exact ⟨hyk, hy.resolve_right (by simp [Term.hasVar_eq_false.1 hclosed y])⟩
    have hright' : RightClosed (rest.map (·.map k.instantiate)) := by
      intro e' he'
      obtain ⟨e, he, rfl⟩ := List.mem_map.1 he'
      show (k.instantiate e.right).hasVar = false
      rw [instantiate_closed (hright e he)]
      exact hright e he
    have hdecl {y : Var} (hy : m.isDeclared y = true) : k.isDeclared y = true := by
      have hiff (c : Context) : (c.decl? y).isSome = c.isDeclared y := Option.isSome_map
      rw [← hiff, hstep.decl, hiff, hy]
    have ih := ih hright' (fun y hy => (hback hy).1) fun y hy => hdecl (hd y (hrest y (hback hy).2))
    cases hk : k.unifyAll (rest.map (·.map k.instantiate)) with
    | none =>
      rw [hk] at ih
      exact fun σ hσ => ih σ (solves_instantiate_assign ha hclosed hopen ((hsol σ).1 hσ))
    | some n =>
      rw [hk] at ih
      intro y hy
      by_cases hyx : y = x
      · have hext := (binds_unifyAll hk fun y hy => (hback hy).1).1.extension
        exact ⟨t, hyx ▸ hext x _ (binding?_of_assign ha).2, hclosed⟩
      · exact ih y (mentions_instantiate_other ha hclosed hopen hyx
          ((hsplit y hy).resolve_left hyx))

theorem unify_closed {l r : Term} (hl : l.hasVar = false) (hr : r.hasVar = false) :
    m.unify l r = if l = r then some m else none := by
  have hdemand := @demand_matching [⟨l, r⟩] (by simpa [RightClosed] using hr)
  have hnone (y : Var) : ¬ Mentions [⟨l, r⟩] y := by
    simp [Mentions, Term.hasVar_eq_false.1 hl y, Term.hasVar_eq_false.1 hr y]
  rw [unify, instantiate_closed hl, instantiate_closed hr, unifyAll]
  cases hd : demand [⟨l, r⟩] with
  | solved =>
    have heq := demand_solved hd .var _ List.mem_cons_self
    simp only [Term.subst_var] at heq
    exact (if_pos heq).symm
  | bind x t rest => exact (hnone x (demand_bind hd).2.1).elim
  | clash =>
    rw [hd] at hdemand
    refine (if_neg fun heq => hdemand .var (solves_cons.2 ⟨?_, List.forall_mem_nil _⟩)).symm
    rw [heq]

/-- A term over open variables is matched with a closed one if it can be. -/
theorem unify_matching {l r : Term} (hr : r.hasVar = false)
    (hl : ∀ y, l.occurs y = true → m.binding? y = none ∧ m.isDeclared y = true) :
    match m.unify l r with
    | some n => n.instantiate l = r ∧
        ∀ y, l.occurs y = true → ∃ u, n.binding? y = some (.value u) ∧ u.hasVar = false
    | none => ∀ σ, l.subst σ ≠ r := by
  have hplain : m.PlainTerm l := fun y hy => .unbound (hl y hy).1
  have hleft : m.instantiate l = l := Term.subst_eq_self fun y hy => instantiate_open (hl y hy).1
  have hmen {y : Var} (hy : Mentions [⟨l, r⟩] y) : l.occurs y = true := by
    simpa [Mentions, Term.hasVar_eq_false.1 hr y] using hy
  have hall := @unifyAll_matching m [⟨l, r⟩] (by simpa [RightClosed] using hr)
    (fun y hy => (hl y (hmen hy)).1) fun y hy => (hl y (hmen hy)).2
  have hunify : m.unify l r = m.unifyAll [⟨l, r⟩] := by
    rw [unify, hleft, instantiate_closed hr]
  cases hn : m.unify l r with
  | none =>
    rw [← hunify, hn] at hall
    intro σ hσ
    refine hall σ (solves_cons.2 ⟨?_, List.forall_mem_nil _⟩)
    rw [hσ]
    exact (Term.subst_eq_self fun y hy => by simp [Term.hasVar_eq_false.1 hr y] at hy).symm
  | some n =>
    rw [← hunify, hn] at hall
    refine ⟨?_, fun y hy => hall y (by simp [Mentions, hy])⟩
    rw [unify_equal hn hplain (plainTerm_closed hr), instantiate_closed hr]

end Context

end ProofSearch
