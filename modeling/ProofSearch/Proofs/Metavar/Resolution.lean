import Mathlib.Data.Finset.Card
import Mathlib.Logic.Relation
import ProofSearch.Metavar.Instantiate

/-!
# Following bindings

A variable is grounded if no chain of references from it goes on for ever.  Other variables of the
same context may refer to themselves.

1. `Grounded.resolve_stable`: the number of declared variables is enough fuel for a grounded
   variable, so `instantiate_value` and `instantiate_delayed` hold without any mention of fuel.
2. `instantiate_extends`: instantiating first in an earlier context changes nothing.
3. `Plain`: a variable whose value needs no delayed variable.
4. `Plain.bind`: the occurs check keeps plain variables plain.
-/

namespace ProofSearch

/-! ## Substitutions -/

namespace Term

theorem subst_subst (σ τ : Var → Term) (t : Term) :
    (t.subst σ).subst τ = t.subst fun x => (σ x).subst τ := by
  induction t using ind with
  | const | hyp | var => rfl
  | app head args ih =>
    simp only [subst, substList_eq_map, List.map_map, app.injEq, true_and]
    exact List.map_congr_left fun t ht => ih t ht

theorem subst_var (t : Term) : t.subst .var = t := by
  induction t using ind with
  | const | hyp | var => rfl
  | app head args ih =>
    simp only [subst, substList_eq_map, app.injEq, true_and]
    exact (List.map_congr_left fun t ht => ih t ht).trans args.map_id

theorem subst_eq_self {σ : Var → Term} {t : Term} (h : ∀ x, t.occurs x = true → σ x = .var x) :
    t.subst σ = t := (subst_congr h).trans t.subst_var

theorem occurs_subst {σ : Var → Term} {t : Term} {y : Var} :
    (t.subst σ).occurs y = true ↔ ∃ x, t.occurs x = true ∧ (σ x).occurs y = true := by
  induction t using ind with
  | const | hyp => simp [subst, occurs]
  | var x => simp [subst, occurs]
  | app head args ih =>
    simp only [subst, occurs, substList_eq_map, occursList_iff, List.mem_map]
    constructor
    · rintro ⟨_, ⟨t, ht, rfl⟩, hy⟩
      obtain ⟨x, hx, hxy⟩ := (ih t ht).1 hy
      exact ⟨x, ⟨t, ht, hx⟩, hxy⟩
    · rintro ⟨x, ⟨t, ht, hx⟩, hxy⟩
      exact ⟨_, ⟨t, ht, rfl⟩, (ih t ht).2 ⟨x, hx, hxy⟩⟩

theorem hasVar_eq_false {t : Term} : t.hasVar = false ↔ ∀ x, t.occurs x = false := by
  rw [← Bool.not_eq_true, hasVar_iff]
  simp

end Term

namespace Context

/-! ## References -/

/-- The binding of `x` mentions `y`. -/
def Refers (m : Context) (x y : Var) : Prop :=
  (∃ t, m.binding? x = some (.value t) ∧ t.occurs y = true) ∨ m.binding? x = some (.delayed y)

/-- No chain of references from `x` goes on for ever. -/
def Grounded (m : Context) (x : Var) : Prop := Acc (fun y x => m.Refers x y) x

variable {m n : Context} {x y : Var} {t : Term}

theorem Refers.isAssigned (h : m.Refers x y) : m.isAssigned x = true := by
  obtain ⟨t, hb, -⟩ | hb := h <;> simp [Context.isAssigned, hb]

theorem Grounded.of_refers (h : m.Grounded x) (hr : m.Refers x y) : m.Grounded y := h.inv hr

theorem grounded_of_open (h : m.binding? x = none) : m.Grounded x := by
  refine .intro x fun y hy => ?_
  have := hy.isAssigned
  rw [isAssigned, h] at this
  cases this

theorem Grounded.not_refers_back (h : m.Grounded x) :
    ¬ Relation.TransGen m.Refers x x := by
  induction h with
  | intro x _ ih =>
    intro hx
    obtain ⟨y, hxy, hyx⟩ := Relation.TransGen.head'_iff.1 hx
    exact ih y hxy (.tail' hyx hxy)

theorem mem_vars_of_isAssigned (h : m.isAssigned x = true) : x ∈ m.vars := by
  obtain ⟨b, hb⟩ := Option.isSome_iff_exists.1 h
  obtain ⟨e, he, -⟩ := Option.bind_eq_some_iff.1 hb
  exact List.mem_map.2 ⟨(x, e), (SortedMap.lookup_eq_some_iff m.entries.increasing).1 he, rfl⟩

open Classical in
/-- The assigned variables that can be reached from a variable. -/
noncomputable def reach (m : Context) (x : Var) : Finset Var :=
  m.vars.toFinset.filter fun z => m.isAssigned z = true ∧ Relation.ReflTransGen m.Refers x z

theorem mem_reach {z : Var} :
    z ∈ m.reach x ↔ m.isAssigned z = true ∧ Relation.ReflTransGen m.Refers x z := by
  simp only [reach, Finset.mem_filter, List.mem_toFinset]
  exact ⟨And.right, fun h => ⟨mem_vars_of_isAssigned h.1, h⟩⟩

open Classical in
theorem card_reach_le : (m.reach x).card ≤ m.size := by
  calc (m.reach x).card
    _ ≤ m.vars.toFinset.card := Finset.card_filter_le ..
    _ ≤ m.vars.length := m.vars.toFinset_card_le
    _ = m.size := List.length_map ..

/-- Each reference from a variable that no cycle goes through leaves fewer variables to be
reached. -/
theorem card_reach_lt (h : ¬ Relation.TransGen m.Refers x x) (hr : m.Refers x y) :
    (m.reach y).card < (m.reach x).card := by
  refine Finset.card_lt_card ⟨fun z hz => ?_, fun hsub => ?_⟩
  · obtain ⟨ha, hyz⟩ := mem_reach.1 hz
    exact mem_reach.2 ⟨ha, .head hr hyz⟩
  · obtain ⟨-, hyx⟩ := mem_reach.1 (hsub (mem_reach.2 ⟨hr.isAssigned, .refl⟩))
    exact h (.head' hr hyx)

theorem Grounded.card_reach_lt (h : m.Grounded x) (hr : m.Refers x y) :
    (m.reach y).card < (m.reach x).card := Context.card_reach_lt h.not_refers_back hr

/-- Fuel beyond the number of variables that can be reached is not used. -/
theorem Grounded.resolve_stable (h : m.Grounded x) {k : Nat} (hk : (m.reach x).card ≤ k) :
    m.resolve (k + 1) x = m.resolve k x := by
  induction k generalizing x with
  | zero =>
    have hnone : m.binding? x = none := by
      by_contra hne
      have hmem : x ∈ m.reach x := mem_reach.2 ⟨Option.isSome_iff_ne_none.2 hne, .refl⟩
      simp only [Nat.le_zero, Finset.card_eq_zero] at hk
      simp [hk] at hmem
    simp [resolve, hnone]
  | succ k ih =>
    have hy {y : Var} (hr : m.Refers x y) : m.resolve (k + 1) y = m.resolve k y :=
      ih (h.of_refers hr) (by have := h.card_reach_lt hr; omega)
    rw [resolve.eq_def m (k + 1 + 1), resolve.eq_def m (k + 1)]
    dsimp only
    split
    · rfl
    · next t hb => exact Term.subst_congr fun y hy' => hy (.inl ⟨t, hb, hy'⟩)
    · next p hb => rw [hy (.inr hb)]

/-! ## Instantiation -/

theorem instantiate_eq_subst (m : Context) (t : Term) :
    m.instantiate t = t.subst fun x => m.instantiate (.var x) := rfl

theorem instantiate_var_eq (m : Context) (x : Var) :
    m.instantiate (.var x) = m.resolve m.size x := rfl

theorem occurs_instantiate : (m.instantiate t).occurs y = true ↔
    ∃ x, t.occurs x = true ∧ (m.instantiate (.var x)).occurs y = true := Term.occurs_subst

theorem instantiate_closed (h : t.hasVar = false) : m.instantiate t = t :=
  Term.subst_eq_self fun x hx => by
    rw [Term.hasVar_eq_false.1 h x] at hx
    cases hx

theorem instantiate_open (h : m.binding? x = none) : m.instantiate (.var x) = .var x := by
  rw [instantiate_var_eq]
  cases m.size with
  | zero => rfl
  | succ k => simp [resolve, h]

theorem Grounded.instantiate_eq (h : m.Grounded x) :
    m.instantiate (.var x) = m.resolve (m.size + 1) x := (h.resolve_stable card_reach_le).symm

theorem instantiate_value (h : m.Grounded x) (hb : m.binding? x = some (.value t)) :
    m.instantiate (.var x) = m.instantiate t := by
  rw [h.instantiate_eq, resolve, hb]
  rfl

theorem instantiate_delayed {p : Var} (h : m.Grounded x) (hb : m.binding? x = some (.delayed p)) :
    m.instantiate (.var x) =
      if (m.instantiate (.var p)).hasVar then .var x else m.instantiate (.var p) := by
  rw [h.instantiate_eq, resolve, hb]
  rfl

/-! ## Extensions -/

/-- Every binding of `m` is a binding of `n`. -/
def Extends (m n : Context) : Prop := ∀ x b, m.binding? x = some b → n.binding? x = some b

theorem Extends.refl (m : Context) : m.Extends m := fun _ _ => id

theorem Extends.trans {k : Context} (h : m.Extends n) (h' : n.Extends k) : m.Extends k :=
  fun x b hb => h' x b (h x b hb)

theorem Refers.extends (hr : m.Refers x y) (h : m.Extends n) : n.Refers x y :=
  hr.imp (fun ⟨t, hb, ht⟩ => ⟨t, h x _ hb, ht⟩) (h x _)

theorem Grounded.of_extends (hg : n.Grounded x) (h : m.Extends n) : m.Grounded x := by
  induction hg with
  | intro x _ ih => exact .intro x fun y hy => ih y (hy.extends h)

theorem instantiate_instantiate (m n : Context) (t : Term) : n.instantiate (m.instantiate t) =
    t.subst fun x => n.instantiate (m.instantiate (.var x)) := Term.subst_subst ..

theorem Grounded.instantiate_extends (hg : n.Grounded x) (h : m.Extends n) :
    n.instantiate (m.instantiate (.var x)) = n.instantiate (.var x) := by
  induction hg with
  | intro x hacc ih =>
    have hgn : n.Grounded x := .intro x hacc
    have hgm := hgn.of_extends h
    cases hb : m.binding? x with
    | none => rw [instantiate_open hb]
    | some b =>
      cases b with
      | value t =>
        rw [instantiate_value hgm hb, instantiate_value hgn (h x _ hb), instantiate_instantiate]
        exact Term.subst_congr fun y hy => ih y (.inl ⟨t, h x _ hb, hy⟩)
      | delayed p =>
        have hp := ih p (.inr (h x _ hb))
        rw [instantiate_delayed hgm hb]
        split
        · rfl
        · next hv =>
          have hclosed : n.instantiate (m.instantiate (.var p)) = m.instantiate (.var p) :=
            instantiate_closed (by simpa using hv)
          rw [hp] at hclosed
          rw [hp, instantiate_delayed hgn (h x _ hb), hclosed, if_neg hv]

/-- Instantiating first in an earlier context changes nothing. -/
theorem instantiate_extends (h : m.Extends n) (hg : ∀ x, t.occurs x = true → n.Grounded x) :
    n.instantiate (m.instantiate t) = n.instantiate t := by
  rw [instantiate_instantiate]
  exact Term.subst_congr fun x hx => (hg x hx).instantiate_extends h

/-! ## Plain variables -/

/-- The value of `x` needs no delayed variable, and no variable below it refers back to itself. -/
inductive Plain (m : Context) : Var → Prop
  | unbound {x : Var} : m.binding? x = none → m.Plain x
  | value {x : Var} {t : Term} : m.binding? x = some (.value t) →
      (∀ y, t.occurs y = true → m.Plain y) → m.Plain x

theorem Plain.grounded (h : m.Plain x) : m.Grounded x := by
  induction h with
  | unbound hb => exact grounded_of_open hb
  | @value x t hb _ ih =>
    refine .intro x fun y hy => ?_
    obtain ⟨u, hu, hy⟩ | hu := hy
    · rw [hb] at hu
      cases hu
      exact ih y hy
    · rw [hb] at hu
      cases hu

theorem Plain.instantiate_eq (h : m.Plain x) (hb : m.binding? x = some (.value t)) :
    m.instantiate (.var x) = m.instantiate t := instantiate_value h.grounded hb

/-- The value of a plain variable mentions open variables only. -/
theorem Plain.binding_of_occurs (h : m.Plain x) (hy : (m.instantiate (.var x)).occurs y = true) :
    m.binding? y = none := by
  induction h with
  | @unbound x hb =>
    rw [instantiate_open hb] at hy
    obtain rfl : x = y := by simpa [Term.occurs] using hy
    exact hb
  | value hb hall ih =>
    rw [instantiate_value (Plain.value hb hall).grounded hb, occurs_instantiate] at hy
    obtain ⟨z, hz, hzy⟩ := hy
    exact ih z hz hzy

theorem Plain.congr (h : m.Plain x) (hb : ∀ y, n.binding? y = m.binding? y) : n.Plain x := by
  induction h with
  | unbound hx => exact .unbound ((hb _).trans hx)
  | value hx _ ih => exact .value ((hb _).trans hx) ih

/-- All variables of the term are plain. -/
def PlainTerm (m : Context) (t : Term) : Prop := ∀ x, t.occurs x = true → m.Plain x

theorem PlainTerm.binding_of_occurs (h : m.PlainTerm t) (hy : (m.instantiate t).occurs y = true) :
    m.binding? y = none := by
  obtain ⟨x, hx, hxy⟩ := occurs_instantiate.1 hy
  exact (h x hx).binding_of_occurs hxy

theorem PlainTerm.instantiate_extends (h : n.PlainTerm t) (he : m.Extends n) :
    n.instantiate (m.instantiate t) = n.instantiate t :=
  Context.instantiate_extends he fun x hx => (h x hx).grounded

theorem plainTerm_closed (h : t.hasVar = false) : m.PlainTerm t := by
  intro x hx
  rw [Term.hasVar_eq_false.1 h x] at hx
  cases hx

/-! ## Declaring and binding -/

theorem binding?_bind (m : Context) (x y : Var) (d : VarDecl) (b : Binding) :
    (m.bind x d b).binding? y = if y = x then some b else m.binding? y := by
  simp only [binding?, get?_bind]
  split <;> rfl

theorem decl?_bind (m : Context) (x y : Var) (d : VarDecl) (b : Binding) :
    (m.bind x d b).decl? y = if y = x then some d else m.decl? y := by
  simp only [decl?, get?_bind]
  split <;> rfl

/-- A binding leaves the declarations as they are. -/
theorem decl?_bind_of_decl? {d : VarDecl} (hd : m.decl? x = some d) (b : Binding) (y : Var) :
    (m.bind x d b).decl? y = m.decl? y := by
  rw [decl?_bind]
  split
  · next hy => rw [hy, hd]
  · rfl

theorem decl?_declareFresh (m : Context) (x y : Var) (d : VarDecl) :
    (m.declareFresh x d).decl? y = if y = x then some d else m.decl? y := by
  simp only [decl?, get?_declareFresh]
  split <;> rfl

theorem isDeclared_congr (h : n.decl? x = m.decl? x) : n.isDeclared x = m.isDeclared x := by
  have hsome (k : Context) : k.isDeclared x = (k.decl? x).isSome := by simp [isDeclared, decl?]
  rw [hsome, hsome, h]

theorem binding?_of_decl?_none (h : m.decl? x = none) : m.binding? x = none := by
  rw [decl?, Option.map_eq_none_iff] at h
  rw [binding?, h]
  rfl

theorem binding?_of_not_declared (h : m.isDeclared x = false) : m.binding? x = none :=
  binding?_of_decl?_none (decl?_of_undeclared h)

/-- A new declaration loses no other. -/
theorem decl?_declareFresh_of_undeclared {d : VarDecl} (e : VarDecl) (hx : m.isDeclared x = false)
    (hy : m.decl? y = some d) : (m.declareFresh x e).decl? y = some d := by
  rw [decl?_declareFresh, if_neg]
  · exact hy
  · rintro rfl
    exact nomatch (decl?_of_undeclared hx).symm.trans hy

theorem extends_bind (h : m.binding? x = none) (d : VarDecl) (b : Binding) :
    m.Extends (m.bind x d b) := by
  intro y c hc
  rw [binding?_bind, if_neg]
  · exact hc
  · rintro rfl
    exact nomatch h.symm.trans hc

/-- The occurs check keeps plain variables plain. -/
theorem Plain.bind {d : VarDecl} (hx : m.binding? x = none) (ht : m.PlainTerm t)
    (ho : (m.instantiate t).occurs x = false) (h : m.Plain y) :
    (m.bind x d (.value t)).Plain y := by
  have hbound {z : Var} {u : Term} (hz : m.binding? z = some (.value u)) :
      (m.bind x d (.value t)).binding? z = some (.value u) := extends_bind hx d _ z _ hz
  have hother {z : Var} (hz : m.Plain z) : (m.instantiate (.var z)).occurs x = false →
      (m.bind x d (.value t)).Plain z := by
    induction hz with
    | @unbound z hz =>
      intro hzx
      rw [instantiate_open hz] at hzx
      refine .unbound ?_
      rw [binding?_bind, if_neg (by simpa [Term.occurs] using hzx)]
      exact hz
    | @value z u hz hall ih =>
      intro hzx
      refine .value (hbound hz) fun w hw => ih w hw ?_
      rw [(Plain.value hz hall).instantiate_eq hz] at hzx
      by_contra hne
      rw [occurs_instantiate.2 ⟨w, hw, by simpa using hne⟩] at hzx
      cases hzx
  have hself : (m.bind x d (.value t)).Plain x := by
    refine .value (t := t) (by rw [binding?_bind, if_pos rfl]) fun z hz => hother (ht z hz) ?_
    by_contra hne
    rw [occurs_instantiate.2 ⟨z, hz, by simpa using hne⟩] at ho
    cases ho
  induction h with
  | @unbound z hz =>
    by_cases hzx : z = x
    · exact hzx ▸ hself
    · exact .unbound (by rw [binding?_bind, if_neg hzx, hz])
  | value hz _ ih => exact .value (hbound hz) ih

end Context

end ProofSearch
