import Mathlib.Tactic.ByContra
import ProofSearch.Metavar.Unify
import ProofSearch.Proofs.Metavar.Resolution

/-!
# Unification makes terms equal

1. `demand_bind`: taking equations apart neither loses nor adds a solution.
2. `Binds`: what assignments within a set of variables do to a context.
3. `binds_unify`, `unify_equal`: unifying plain terms binds variables that their values mention, to
   terms over such variables, and makes the two terms equal.
-/

namespace ProofSearch

/-! ## Equations -/

/-- The substitution makes both sides of all equations equal. -/
def Solves (σ : Var → Term) (es : List Equation) : Prop :=
  ∀ e ∈ es, e.left.subst σ = e.right.subst σ

/-- The variable occurs in one of the equations. -/
def Mentions (es : List Equation) (y : Var) : Prop :=
  ∃ e ∈ es, e.left.occurs y = true ∨ e.right.occurs y = true

theorem solves_cons {σ : Var → Term} {e : Equation} {es : List Equation} :
    Solves σ (e :: es) ↔ e.left.subst σ = e.right.subst σ ∧ Solves σ es := by
  simp [Solves]

theorem solves_append {σ : Var → Term} {es fs : List Equation} :
    Solves σ (es ++ fs) ↔ Solves σ es ∧ Solves σ fs := by
  simp [Solves, or_imp, forall_and]

theorem mentions_cons {e : Equation} {es : List Equation} {y : Var} : Mentions (e :: es) y ↔
    (e.left.occurs y = true ∨ e.right.occurs y = true) ∨ Mentions es y := by
  simp [Mentions]

theorem mentions_append {es fs : List Equation} {y : Var} :
    Mentions (es ++ fs) y ↔ Mentions es y ∨ Mentions fs y := by
  simp [Mentions, or_and_right, exists_or]

theorem solves_pairs {σ : Var → Term} : ∀ {ls rs : List Term}, ls.length = rs.length →
    (Solves σ (Equation.pairs ls rs) ↔ ls.map (·.subst σ) = rs.map (·.subst σ))
  | [], [], _ => by simp [Equation.pairs, Solves]
  | l :: ls, r :: rs, h => by
    simp only [Equation.pairs, solves_cons, List.map_cons, List.cons.injEq]
    rw [solves_pairs (by simpa using h)]

theorem mentions_pairs {y : Var} : ∀ {ls rs : List Term}, Mentions (Equation.pairs ls rs) y →
    (∃ t ∈ ls, t.occurs y = true) ∨ ∃ t ∈ rs, t.occurs y = true
  | [], _, h => by simp [Equation.pairs, Mentions] at h
  | _ :: _, [], h => by simp [Equation.pairs, Mentions] at h
  | l :: ls, r :: rs, h => by
    rw [Equation.pairs, mentions_cons] at h
    rcases h with (h | h) | h
    · exact .inl ⟨l, List.mem_cons_self, h⟩
    · exact .inr ⟨r, List.mem_cons_self, h⟩
    · rcases mentions_pairs h with ⟨t, ht, hy⟩ | ⟨t, ht, hy⟩
      · exact .inl ⟨t, List.mem_cons_of_mem l ht, hy⟩
      · exact .inr ⟨t, List.mem_cons_of_mem r ht, hy⟩

namespace Context

/-! ## One step -/

theorem unifyStep_done {l r : Term} (h : unifyStep l r = .done) : l = r := by
  revert h
  fun_cases unifyStep l r <;> intro h <;> simp_all

theorem unifyStep_split {l r : Term} {es : List Equation} (h : unifyStep l r = .split es) :
    (∀ σ, Solves σ es ↔ l.subst σ = r.subst σ) ∧
      ∀ y, Mentions es y → l.occurs y = true ∨ r.occurs y = true := by
  revert h
  fun_cases unifyStep l r <;> intro h
  case case9 f xs g ys hfg =>
    cases h
    refine ⟨fun σ => ?_, fun y hy => ?_⟩
    · rw [solves_pairs hfg.2]
      simp [Term.subst, Term.substList_eq_map, hfg.1]
    · simpa [Term.occurs, Term.occursList_iff] using mentions_pairs hy
  all_goals cases h

theorem unifyStep_bind {l r t : Term} {x : Var} (h : unifyStep l r = .bind x t) :
    l = .var x ∧ r = t ∨ l = t ∧ r = .var x := by
  revert h
  fun_cases unifyStep l r <;> intro h <;> cases h
  · exact .inl ⟨rfl, rfl⟩
  · exact .inl ⟨rfl, rfl⟩
  · exact .inr ⟨rfl, rfl⟩

theorem demand_solved {es : List Equation} (h : demand es = .solved) (σ : Var → Term) :
    Solves σ es := by
  fun_induction demand es with
  | case1 => exact nofun
  | case2 l r rest hs ih => exact solves_cons.2 ⟨by rw [unifyStep_done hs], ih h⟩
  | case3 l r rest es hs ih =>
    obtain ⟨hes, hrest⟩ := solves_append.1 (ih h)
    exact solves_cons.2 ⟨((unifyStep_split hs).1 σ).1 hes, hrest⟩
  | case4 => cases h
  | case5 => cases h

/-- The demanded binding and the rest of the equations have the same solutions as the equations. -/
theorem demand_bind {es rest : List Equation} {x : Var} {t : Term}
    (h : demand es = .bind x t rest) :
    (∀ σ, Solves σ es ↔ σ x = t.subst σ ∧ Solves σ rest) ∧ Mentions es x ∧
      (∀ y, t.occurs y = true → Mentions es y) ∧ ∀ y, Mentions rest y → Mentions es y := by
  fun_induction demand es with
  | case1 => cases h
  | case2 l r es hs ih =>
    obtain ⟨hsol, hx, ht, hrest⟩ := ih h
    have hl := unifyStep_done hs
    refine ⟨fun σ => ?_, mentions_cons.2 (.inr hx), fun y hy => mentions_cons.2 (.inr (ht y hy)),
      fun y hy => mentions_cons.2 (.inr (hrest y hy))⟩
    rw [solves_cons, ← hsol]
    exact and_iff_right (by rw [hl])
  | case3 l r es fs hs ih =>
    obtain ⟨hsol, hx, ht, hrest⟩ := ih h
    obtain ⟨hsplit, hfs⟩ := unifyStep_split hs
    have hmen (y : Var) (hy : Mentions (fs ++ es) y) : Mentions (⟨l, r⟩ :: es) y :=
      mentions_cons.2 ((mentions_append.1 hy).imp_left (hfs y))
    refine ⟨fun σ => ?_, hmen x hx, fun y hy => hmen y (ht y hy), fun y hy => hmen y (hrest y hy)⟩
    rw [solves_cons, ← hsplit, ← solves_append, hsol]
  | case4 l r es y u hs =>
    cases h
    refine ⟨fun σ => ?_, ?_, fun y hy => ?_, fun y hy => mentions_cons.2 (.inr hy)⟩
    · rw [solves_cons]
      rcases unifyStep_bind hs with ⟨rfl, rfl⟩ | ⟨rfl, rfl⟩
      · rfl
      · exact and_congr_left' eq_comm
    · rcases unifyStep_bind hs with ⟨rfl, rfl⟩ | ⟨rfl, rfl⟩ <;>
        simp [mentions_cons, Term.occurs]
    · rcases unifyStep_bind hs with ⟨rfl, rfl⟩ | ⟨rfl, rfl⟩ <;> simp [mentions_cons, hy]
  | case5 => cases h

/-! ## Bindings within a set of variables -/

variable {m n k : Context} {V : Var → Prop}

/-- The context `n` arises from `m` by binding variables in `V` to terms over `V`. -/
structure Binds (V : Var → Prop) (m n : Context) : Prop where
  decl : ∀ y, n.decl? y = m.decl? y
  extension : m.Extends n
  plain : ∀ y, m.Plain y → n.Plain y
  bound : ∀ y b, n.binding? y = some b → m.binding? y = some b ∨
    V y ∧ ∃ t, b = .value t ∧ ∀ z, t.occurs z = true → V z

namespace Binds

theorem refl (V : Var → Prop) (m : Context) : Binds V m m :=
  ⟨fun _ => rfl, .refl m, fun _ => id, fun _ _ => .inl⟩

theorem trans (h : Binds V m n) (h' : Binds V n k) : Binds V m k where
  decl y := (h'.decl y).trans (h.decl y)
  extension := h.extension.trans h'.extension
  plain y hy := h'.plain y (h.plain y hy)
  bound y b hb := (h'.bound y b hb).elim (h.bound y b) .inr

theorem mono {W : Var → Prop} (h : Binds V m n) (hW : ∀ y, V y → W y) : Binds W m n where
  decl := h.decl
  extension := h.extension
  plain := h.plain
  bound y b hb := (h.bound y b hb).imp_right fun ⟨hy, t, hbt, ht⟩ =>
    ⟨hW y hy, t, hbt, fun z hz => hW z (ht z hz)⟩

theorem plainTerm {t : Term} (h : Binds V m n) (ht : m.PlainTerm t) : n.PlainTerm t :=
  fun x hx => h.plain x (ht x hx)

theorem binding_eq {y : Var} (h : Binds V m n) (hy : ¬ V y) : n.binding? y = m.binding? y := by
  cases hb : n.binding? y with
  | none =>
    cases hm : m.binding? y with
    | none => rfl
    | some b => exact (hb.symm.trans (h.extension y b hm)).symm ▸ rfl
  | some b => exact ((h.bound y b hb).resolve_right fun hV => hy hV.1).symm

end Binds

theorem binding?_of_assign {x : Var} {t : Term} (h : m.assign x t = .ok n) :
    m.binding? x = none ∧ n.binding? x = some (.value t) := by
  obtain ⟨d, hd, -, rfl⟩ := assign_eq_ok_iff.1 h
  exact ⟨(assignable_iff_open.1 hd).2, by rw [binding?_bind, if_pos rfl]⟩

/-- An assignment changes the binding of one variable only. -/
theorem assign_frame {x : Var} {t : Term} (h : m.assign x t = .ok n)
    (y : Var) : n.decl? y = m.decl? y ∧ (y ≠ x → n.binding? y = m.binding? y) := by
  obtain ⟨d, hd, -, rfl⟩ := assign_eq_ok_iff.1 h
  exact ⟨decl?_bind_of_decl? (assignable_iff_open.1 hd).1 _ y,
    fun hy => by rw [binding?_bind, if_neg hy]⟩

theorem extends_assign {x : Var} {t : Term} (h : m.assign x t = .ok n) : m.Extends n := by
  obtain ⟨d, hd, -, rfl⟩ := assign_eq_ok_iff.1 h
  exact extends_bind (assignable_iff_open.1 hd).2 d _

theorem binds_assign {x : Var} {t : Term} (h : m.assign x t = .ok n) (ht : m.PlainTerm t)
    (hx : V x) (hV : ∀ z, t.occurs z = true → V z) : Binds V m n := by
  have hxm := (binding?_of_assign h).1
  obtain ⟨d, hd, ho, rfl⟩ := assign_eq_ok_iff.1 h
  refine ⟨decl?_bind_of_decl? (assignable_iff_open.1 hd).1 _, extends_bind hxm d _,
    fun y => Plain.bind hxm ht ho, fun y b hb => ?_⟩
  · rw [binding?_bind] at hb
    split at hb
    · next hy =>
      cases hb
      exact .inr ⟨hy ▸ hx, t, rfl, hV⟩
    · exact .inl hb

/-! ## Unification -/

/-- The variables of the equations have no binding, as after instantiation. -/
def Unbound (m : Context) (es : List Equation) : Prop := ∀ y, Mentions es y → m.binding? y = none

/-- Instantiating after an assignment brings in variables of the assigned term only. -/
theorem mentions_instantiate {x : Var} {t : Term} {es : List Equation} {y : Var}
    (h : m.assign x t = .ok n) (hes : m.Unbound es) (ht : ∀ z, t.occurs z = true → m.binding? z = none)
    (hy : Mentions (es.map (·.map n.instantiate)) y) :
    n.binding? y = none ∧ (Mentions es y ∨ t.occurs y = true) := by
  have hplain {z : Var} (hz : m.binding? z = none) : n.Plain z :=
    (binds_assign (V := fun _ => True) h (fun z hz => .unbound (ht z hz)) trivial
      fun _ _ => trivial).plain z (.unbound hz)
  have hother {z : Var} (hz : m.binding? z = none) (hzx : z ≠ x) : n.binding? z = none := by
    obtain ⟨d, -, -, rfl⟩ := assign_eq_ok_iff.1 h
    rw [binding?_bind, if_neg hzx, hz]
  have htx {z : Var} (hz : t.occurs z = true) : z ≠ x := by
    rintro rfl
    obtain ⟨-, -, ho, -⟩ := assign_eq_ok_iff.1 h
    rw [occurs_instantiate.2 ⟨z, hz, by simp [instantiate_open (ht z hz), Term.occurs]⟩] at ho
    cases ho
  -- `y` comes from a variable `z` of the equations, which the assignment may have bound.
  have hvar {z : Var} (hz : Mentions es z) (hzy : (n.instantiate (.var z)).occurs y = true) :
      Mentions es y ∨ t.occurs y = true := by
    by_cases hzx : z = x
    · subst hzx
      rw [(hplain (hes z hz)).instantiate_eq (binding?_of_assign h).2, occurs_instantiate] at hzy
      obtain ⟨w, hw, hwy⟩ := hzy
      rw [instantiate_open (hother (ht w hw) (htx hw))] at hwy
      obtain rfl : w = y := by simpa [Term.occurs] using hwy
      exact .inr hw
    · rw [instantiate_open (hother (hes z hz) hzx)] at hzy
      obtain rfl : z = y := by simpa [Term.occurs] using hzy
      exact .inl hz
  obtain ⟨_, he', hy⟩ := hy
  obtain ⟨e, he, rfl⟩ := List.mem_map.1 he'
  obtain ⟨z, hz, hzy⟩ : ∃ z, Mentions es z ∧ (n.instantiate (.var z)).occurs y = true := by
    rcases hy with hy | hy
    · obtain ⟨z, hz, hzy⟩ := occurs_instantiate.1 hy
      exact ⟨z, ⟨e, he, .inl hz⟩, hzy⟩
    · obtain ⟨z, hz, hzy⟩ := occurs_instantiate.1 hy
      exact ⟨z, ⟨e, he, .inr hz⟩, hzy⟩
  exact ⟨(hplain (hes z hz)).binding_of_occurs hzy, hvar hz hzy⟩

/-- A context after the equations solves them if it solves their instances. -/
theorem solves_of_instantiate {es : List Equation} (he : m.Extends n)
    (hp : ∀ y, Mentions es y → n.Plain y)
    (h : Solves (fun y => n.instantiate (.var y)) (es.map (·.map m.instantiate))) :
    Solves (fun y => n.instantiate (.var y)) es := by
  intro e hes
  have hl : n.PlainTerm e.left := fun y hy => hp y ⟨e, hes, .inl hy⟩
  have hr : n.PlainTerm e.right := fun y hy => hp y ⟨e, hes, .inr hy⟩
  have heq : n.instantiate (m.instantiate e.left) = n.instantiate (m.instantiate e.right) :=
    h _ (List.mem_map_of_mem hes)
  rwa [hl.instantiate_extends he, hr.instantiate_extends he] at heq

theorem binds_unifyAll {es : List Equation} (h : m.unifyAll es = some n) (hes : m.Unbound es) :
    Binds (Mentions es) m n ∧ Solves (fun y => n.instantiate (.var y)) es := by
  fun_induction unifyAll m es with
  | case1 m es hd =>
    cases h
    exact ⟨.refl .., demand_solved hd _⟩
  | case2 => cases h
  | case3 => cases h
  | case4 m es x t rest hd k ha ih =>
    obtain ⟨hsol, hx, ht, hrest⟩ := demand_bind hd
    have htopen (z : Var) (hz : t.occurs z = true) : m.binding? z = none := hes z (ht z hz)
    have hopen : m.Unbound rest := fun y hy => hes y (hrest y hy)
    have hstep : Binds (Mentions es) m k :=
      binds_assign ha (fun z hz => .unbound (htopen z hz)) hx ht
    obtain ⟨hb, hs⟩ := ih h fun y hy => (mentions_instantiate ha hopen htopen hy).1
    have hb' : Binds (Mentions es) k n :=
      hb.mono fun y hy => (mentions_instantiate ha hopen htopen hy).2.elim (hrest y) (ht y)
    have hplain (y : Var) (hy : Mentions es y) : n.Plain y :=
      hb'.plain y (hstep.plain y (.unbound (hes y hy)))
    refine ⟨hstep.trans hb', (hsol _).2 ⟨?_, ?_⟩⟩
    · exact (hplain x hx).instantiate_eq (hb'.extension x _ (binding?_of_assign ha).2)
    · exact solves_of_instantiate hb'.extension (fun y hy => hplain y (hrest y hy)) hs

variable {l r : Term}

theorem unbound_instantiate (hl : m.PlainTerm l) (hr : m.PlainTerm r) :
    m.Unbound [⟨m.instantiate l, m.instantiate r⟩] := by
  rintro y ⟨e, he, hy⟩
  obtain rfl := List.mem_singleton.1 he
  exact hy.elim hl.binding_of_occurs hr.binding_of_occurs

theorem binds_unify (h : m.unify l r = some n) (hl : m.PlainTerm l) (hr : m.PlainTerm r) :
    Binds (fun y => (m.instantiate l).occurs y = true ∨ (m.instantiate r).occurs y = true) m n := by
  refine (binds_unifyAll h (unbound_instantiate hl hr)).1.mono ?_
  rintro y ⟨e, he, hy⟩
  obtain rfl := List.mem_singleton.1 he
  exact hy

theorem unify_equal (h : m.unify l r = some n) (hl : m.PlainTerm l) (hr : m.PlainTerm r) :
    n.instantiate l = n.instantiate r := by
  have hb := binds_unify h hl hr
  have heq : n.instantiate (m.instantiate l) = n.instantiate (m.instantiate r) :=
    (binds_unifyAll h (unbound_instantiate hl hr)).2 _ List.mem_cons_self
  rwa [(hb.plainTerm hl).instantiate_extends hb.extension,
    (hb.plainTerm hr).instantiate_extends hb.extension] at heq

end Context

end ProofSearch
