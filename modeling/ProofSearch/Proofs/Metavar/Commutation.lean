import ProofSearch.Proofs.Metavar.MostGeneral

/-!
# The order of assignments

The occurs check of an assignment looks at the context that it meets, and this is another one in
every order of the same assignments.  Without delayed variables the check is exact: it refuses an
assignment if and only if the assignment would close a cycle.  A part of a graph without cycles has
no cycles either, so what is accepted in one order is accepted in all of them.

1. `assign_eq_ok_iff_acyclic`, `exists_assign_iff`: what is accepted, in terms of references.
2. `assignAll_binds`: what is bound after several assignments.
3. `assign_comm`: two assignments may change places; `assignAll_perm`: so may any number of them.
4. `assignments_commute`: all this for the contexts that declarations and assignments make.
-/

namespace ProofSearch

namespace Context

variable {m n k : Context} {x y : Var} {t u : Term}

/-! ## One assignment -/

/-- Without delayed variables the occurs check finds a variable exactly if it is open and can be
reached. -/
theorem occurs_instantiate_iff (hp : ∀ z, m.Plain z) : (m.instantiate t).occurs x = true ↔
    m.binding? x = none ∧ ∃ y, t.occurs y = true ∧ m.Reaches y x := by
  have hg (z : Var) : m.Grounded z := (hp z).grounded
  constructor
  · intro h
    obtain ⟨y, hy, hyx⟩ := occurs_instantiate.1 h
    exact ⟨(hp y).binding_of_occurs hyx, y, hy, ((hg y).of_occurs hyx).1⟩
  · rintro ⟨hx, y, hy, hr⟩
    obtain ⟨z, hz, hzx⟩ := (hg y).exists_occurs hr hx
    obtain rfl := hzx.eq_of_open ((hp y).binding_of_occurs hz)
    exact occurs_instantiate.2 ⟨y, hy, hz⟩

/-- An assignment is accepted if and only if its variable is declared and open and cannot be reached
from the assigned term. -/
theorem exists_assign_iff (hp : ∀ z, m.Plain z) : (∃ n, m.assign x t = .ok n) ↔
    m.isDeclared x = true ∧ m.isAssigned x = false ∧
      ∀ y, t.occurs y = true → ¬ m.Reaches y x := by
  have hopen : m.isAssigned x = false ↔ m.binding? x = none := by simp [isAssigned]
  simp only [assign_eq_ok_iff, assignable_iff_open, hopen]
  constructor
  · rintro ⟨n, d, ⟨hd, hx⟩, ho, -⟩
    refine ⟨isDeclared_of_decl? hd, hx, fun y hy hr => ?_⟩
    rw [(occurs_instantiate_iff hp).2 ⟨hx, y, hy, hr⟩] at ho
    cases ho
  · rintro ⟨hdeclared, hx, hnot⟩
    obtain ⟨d, hd⟩ := exists_decl? hdeclared
    refine ⟨_, d, ⟨hd, hx⟩, Bool.eq_false_iff.2 fun ho => ?_, rfl⟩
    obtain ⟨-, y, hy, hr⟩ := (occurs_instantiate_iff hp).1 ho
    exact hnot y hy hr

/-- An assignment is accepted if and only if its variable is declared and open and the new binding
closes no cycle. -/
theorem assign_eq_ok_iff_acyclic (hp : ∀ z, m.Plain z) : m.assign x t = .ok n ↔
    ∃ d, m.assignable x = .ok d ∧ n = m.bind x d (.value t) ∧ n.Acyclic := by
  constructor
  · intro h
    obtain ⟨d, hd, -, hn⟩ := assign_eq_ok_iff.1 h
    exact ⟨d, hd, hn, acyclic_of_plain (plain_assign h hp)⟩
  · rintro ⟨d, hd, rfl, hac⟩
    have hx : m.binding? x = none := (assignable_iff_open.1 hd).2
    refine assign_eq_ok_iff.2 ⟨d, hd, Bool.eq_false_iff.2 fun ho => ?_, rfl⟩
    obtain ⟨-, y, hy, hr⟩ := (occurs_instantiate_iff hp).1 ho
    exact hac x (transGen_bind hx hy hr)

/-! ## Several assignments -/

/-- Makes assignments one after the other; the first one that is refused ends the sequence. -/
def assignAll (m : Context) (as : List (Var × Term)) : Except MetavarError Context :=
  as.foldlM (fun m a => m.assign a.1 a.2) m

theorem assignAll_cons_eq_ok {a : Var × Term} {as : List (Var × Term)} :
    m.assignAll (a :: as) = .ok n ↔ ∃ k, m.assign a.1 a.2 = .ok k ∧ k.assignAll as = .ok n := by
  rw [assignAll, List.foldlM_cons]
  cases h : m.assign a.1 a.2 with
  | error e => exact ⟨nofun, nofun⟩
  | ok k => exact ⟨fun hn => ⟨k, rfl, hn⟩, fun ⟨_, hk, hn⟩ => Except.ok.inj hk ▸ hn⟩

/-- What `n` binds after the assignments `as` on `m`. -/
structure Assigned (m : Context) (as : List (Var × Term)) (n : Context) : Prop where
  listed : ∀ a ∈ as, n.binding? a.1 = some (.value a.2)
  others : ∀ x, (∀ a ∈ as, a.1 ≠ x) → n.binding? x = m.binding? x
  decl : ∀ x, n.decl? x = m.decl? x

theorem extends_assignAll {as : List (Var × Term)} (h : m.assignAll as = .ok n) : m.Extends n := by
  induction as generalizing m with
  | nil =>
    cases h
    exact .refl _
  | cons a as ih =>
    obtain ⟨k, hk, hrest⟩ := assignAll_cons_eq_ok.1 h
    exact (extends_assign hk).trans (ih hrest)

/-- Each variable of the list has its value, and nothing else has changed. -/
theorem assignAll_binds {as : List (Var × Term)} (h : m.assignAll as = .ok n) :
    Assigned m as n := by
  induction as generalizing m with
  | nil =>
    cases h
    exact ⟨List.forall_mem_nil _, fun _ _ => rfl, fun _ => rfl⟩
  | cons a as ih =>
    obtain ⟨k, hk, hrest⟩ := assignAll_cons_eq_ok.1 h
    have hkn := ih hrest
    refine ⟨List.forall_mem_cons.2 ⟨?_, hkn.listed⟩, fun x hx => ?_, fun x => ?_⟩
    · exact extends_assignAll hrest _ _ (binding?_of_assign hk).2
    · obtain ⟨hne, hx⟩ := List.forall_mem_cons.1 hx
      exact (hkn.others x hx).trans ((assign_frame hk x).2 hne.symm)
    · exact (hkn.decl x).trans (assign_frame hk x).1

theorem bind_comm (m : Context) (hne : x ≠ y) (d e : VarDecl) (b c : Binding) :
    (m.bind x d b).bind y e c = (m.bind y e c).bind x d b := by
  refine ext fun z => ?_
  simp only [get?_bind]
  by_cases hx : z = x
  · simp [hx, hne]
  · simp [hx]

theorem get?_bind_of_ne (m : Context) (hne : y ≠ x) (d : VarDecl) (b : Binding) :
    (m.bind x d b).get? y = m.get? y := by
  rw [get?_bind, if_neg hne]

/-- Two assignments that are accepted one after the other are accepted the other way round, with the
same result: the second one alone makes a part of the references of both. -/
theorem assign_comm (hp : ∀ z, m.Plain z) (h₁ : m.assign x t = .ok k) (h₂ : k.assign y u = .ok n) :
    ∃ k', m.assign y u = .ok k' ∧ k'.assign x t = .ok n := by
  obtain ⟨d, hx, rfl, -⟩ := (assign_eq_ok_iff_acyclic hp).1 h₁
  obtain ⟨e, hy, rfl, hac⟩ := (assign_eq_ok_iff_acyclic (plain_assign h₁ hp)).1 h₂
  have hne : y ≠ x := by
    rintro rfl
    have hopen := (assignable_iff_open.1 hy).2
    rw [binding?_bind, if_pos rfl] at hopen
    cases hopen
  rw [assignable_eq_ok_iff, get?_bind_of_ne m hne, ← assignable_eq_ok_iff] at hy
  have hx' : (m.bind y e (.value u)).assignable x = .ok d := by
    rw [assignable_eq_ok_iff, get?_bind_of_ne m hne.symm]
    exact assignable_eq_ok_iff.1 hx
  rw [bind_comm m hne.symm] at hac ⊢
  have hextends := extends_bind (assignable_iff_open.1 hx').2 d (.value t)
  have hsecond : m.assign y u = .ok (m.bind y e (.value u)) :=
    (assign_eq_ok_iff_acyclic hp).2 ⟨e, hy, rfl, hac.of_extends hextends⟩
  exact ⟨_, hsecond, (assign_eq_ok_iff_acyclic (plain_assign hsecond hp)).2 ⟨d, hx', rfl, hac⟩⟩

/-- Assignments that are accepted in one order are accepted in every order, with the same result. -/
theorem assignAll_perm {as bs : List (Var × Term)} (h : as.Perm bs) (hp : ∀ z, m.Plain z)
    (has : m.assignAll as = .ok n) : m.assignAll bs = .ok n := by
  induction h generalizing m with
  | nil => exact has
  | cons a _ ih =>
    obtain ⟨k, hk, hrest⟩ := assignAll_cons_eq_ok.1 has
    exact assignAll_cons_eq_ok.2 ⟨k, hk, ih (plain_assign hk hp) hrest⟩
  | swap a b as =>
    obtain ⟨k, hk, hrest⟩ := assignAll_cons_eq_ok.1 has
    obtain ⟨l, hl, hrest⟩ := assignAll_cons_eq_ok.1 hrest
    obtain ⟨k', hk', hl'⟩ := assign_comm hp hk hl
    exact assignAll_cons_eq_ok.2 ⟨k', hk', assignAll_cons_eq_ok.2 ⟨l, hl', hrest⟩⟩
  | trans _ _ ih ih' => exact ih' hp (ih hp has)

/-! ## Contexts made by declarations and assignments -/

theorem Call.plain_perform {c : Call} (hc : ∀ x p, c ≠ .assignDelayed x p) (hp : ∀ z, m.Plain z)
    (z : Var) : (perform m c).Plain z := by
  cases h : c.attempt m with
  | error e =>
    rw [perform, h]
    exact hp z
  | ok n =>
    rw [perform, h]
    cases c with
    | declare x d => exact (hp z).congr (binding?_declare h)
    | assign x t => exact plain_assign h hp z
    | assignDelayed x p => exact (hc x p rfl).elim

theorem Call.plain_performAll {cs : List Call} (hcs : ∀ x p, .assignDelayed x p ∉ cs)
    (hp : ∀ z, m.Plain z) (z : Var) : (performAll m cs).Plain z := by
  induction cs generalizing m with
  | nil => exact hp z
  | cons c cs ih =>
    refine ih (fun x p hmem => hcs x p (List.mem_cons_of_mem c hmem)) (plain_perform ?_ hp)
    rintro x p rfl
    exact hcs x p List.mem_cons_self

open Call in
/-- After any declarations and assignments on the empty context, a further assignment is accepted if
and only if its variable is declared and open and cannot be reached from the variables of the
assigned term.  Assignments that are accepted one after the other are accepted in every other order
too, and the resulting context is the same: it binds each variable of the list to its term and
everything else as before. -/
theorem assignments_commute (cs : List Call) (hcs : ∀ x p, .assignDelayed x p ∉ cs) :
    (∀ x t, (∃ n, (performAll .empty cs).assign x t = .ok n) ↔
      (performAll .empty cs).isDeclared x = true ∧ (performAll .empty cs).isAssigned x = false ∧
        ∀ y, t.occurs y = true → ¬ (performAll .empty cs).Reaches y x) ∧
    ∀ as n, (performAll .empty cs).assignAll as = .ok n →
      (∀ bs, as.Perm bs → (performAll .empty cs).assignAll bs = .ok n) ∧
      (∀ a ∈ as, n.binding? a.1 = some (.value a.2)) ∧
      (∀ x, (∀ a ∈ as, a.1 ≠ x) → n.binding? x = (performAll .empty cs).binding? x) ∧
      ∀ x, n.decl? x = (performAll .empty cs).decl? x := by
  have hp (z : Var) : (performAll .empty cs).Plain z :=
    plain_performAll hcs (fun _ => .unbound rfl) z
  refine ⟨fun x t => exists_assign_iff hp, fun as n hn => ⟨fun bs hperm => ?_, ?_⟩⟩
  · exact assignAll_perm hperm hp hn
  · obtain ⟨hlisted, hothers, hdecl⟩ := assignAll_binds hn
    exact ⟨hlisted, hothers, hdecl⟩

/-- Four variables, of which the last holds `f(?m1)`. -/
def Call.headed : List Call := [
  .declare ⟨1⟩ ⟨.const "T", [], none⟩,
  .declare ⟨2⟩ ⟨.const "T", [], none⟩,
  .declare ⟨3⟩ ⟨.const "T", [], none⟩,
  .declare ⟨4⟩ ⟨.const "T", [], none⟩,
  .assign ⟨4⟩ (.app "f" [.var ⟨1⟩])]

/-- The chain from the last variable on may be made from either end, and no variable of it may be
assigned a term that leads back to it. -/
theorem assignments_commute_chain :
    (∀ x p, .assignDelayed x p ∉ Call.headed) ∧
    (¬ ∃ n, (Call.performAll .empty Call.headed).assign ⟨1⟩ (.app "g" [.var ⟨4⟩]) = .ok n) ∧
    ∃ n, (Call.performAll .empty Call.headed).assignAll
        [(⟨1⟩, .app "g" [.var ⟨2⟩]), (⟨2⟩, .app "h" [.var ⟨3⟩]), (⟨3⟩, .const "a")] = .ok n ∧
      (Call.performAll .empty Call.headed).assignAll
        [(⟨3⟩, .const "a"), (⟨2⟩, .app "h" [.var ⟨3⟩]), (⟨1⟩, .app "g" [.var ⟨2⟩])] = .ok n ∧
      n.binding? ⟨2⟩ = some (.value (.app "h" [.var ⟨3⟩])) ∧
      n.binding? ⟨4⟩ = some (.value (.app "f" [.var ⟨1⟩])) := by
  have hcs (x p : Var) : .assignDelayed x p ∉ Call.headed := by simp [Call.headed]
  obtain ⟨haccepted, hcommute⟩ := assignments_commute Call.headed hcs
  obtain ⟨m, hm⟩ : ∃ m, m = Call.performAll .empty Call.headed := ⟨_, rfl⟩
  have h4 : m.binding? ⟨4⟩ = some (.value (.app "f" [.var ⟨1⟩])) := by rw [hm]; decide
  have hlast : m.Reaches ⟨4⟩ ⟨1⟩ := .single (.inl ⟨_, h4, by decide⟩)
  refine ⟨hcs, fun h => ?_, ?_⟩
  · exact ((haccepted _ _).1 h).2.2 ⟨4⟩ (by decide) (hm ▸ hlast)
  · obtain ⟨n, hn⟩ : ∃ n, (Call.performAll .empty Call.headed).assignAll
        [(⟨1⟩, .app "g" [.var ⟨2⟩]), (⟨2⟩, .app "h" [.var ⟨3⟩]), (⟨3⟩, .const "a")] = .ok n :=
      ⟨_, rfl⟩
    obtain ⟨hperm, hlisted, hothers, -⟩ := hcommute _ n hn
    refine ⟨n, hn, hperm _ (List.reverse_perm _).symm, hlisted (⟨2⟩, _) (by decide), ?_⟩
    rw [hothers ⟨4⟩ (by decide), ← hm, h4]

end Context

end ProofSearch
