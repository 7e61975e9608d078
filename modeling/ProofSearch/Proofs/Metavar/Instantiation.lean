import ProofSearch.Proofs.Metavar.Cycles

/-!
# What instantiation leaves

Without a cycle of references, substitution and the collection of open variables agree on every
mixture of values and waiting variables.

1. `Grounded.waits_of_occurs`: a delayed variable that is left waits for a value that is not closed.
2. `Grounded.exists_open`: what is left leads to an open variable.
3. `mem_dependencies`: the open variables that a goal depends on.
4. `instantiate_openVars`: what instantiation leaves, and which open variables are below it.
-/

namespace ProofSearch

/-- The variable occurs in the type or in a hypothesis of a declaration. -/
def VarDecl.Mentions (d : VarDecl) (x : Var) : Prop :=
  d.type.occurs x = true ∨ ∃ h ∈ d.hyps, h.type.occurs x = true

namespace Context

variable {m : Context} {x y : Var} {t : Term}

theorem Grounded.waits_of_occurs {p : Var} (h : m.Grounded x)
    (hy : (m.instantiate (.var x)).occurs y = true) (hp : m.binding? y = some (.delayed p)) :
    (m.instantiate (.var p)).hasVar = true := by
  induction h with
  | intro x hacc ih =>
    have hx : m.Grounded x := .intro x hacc
    cases hb : m.binding? x with
    | none =>
      rw [instantiate_open hb] at hy
      obtain rfl : x = y := by simpa [Term.occurs] using hy
      cases hb.symm.trans hp
    | some b =>
      cases b with
      | value u =>
        rw [instantiate_value hx hb] at hy
        obtain ⟨z, hz, hzy⟩ := occurs_instantiate.1 hy
        exact ih z (.inl ⟨u, hb, hz⟩) hzy
      | delayed q =>
        rw [instantiate_delayed hx hb] at hy
        split at hy
        · next hvar =>
          obtain rfl : x = y := by simpa [Term.occurs] using hy
          rw [hb] at hp
          cases hp
          exact hvar
        · next hclosed =>
          rw [Term.hasVar_eq_false.1 (by simpa using hclosed) y] at hy
          cases hy

/-- A variable whose value is not closed leads to an open variable. -/
theorem Grounded.exists_open (h : m.Grounded x) (hv : (m.instantiate (.var x)).hasVar = true) :
    ∃ y, m.Reaches x y ∧ m.binding? y = none := by
  induction h with
  | intro x hacc ih =>
    have hx : m.Grounded x := .intro x hacc
    -- the variable is open, or it refers to one whose value is not closed
    have hnext : m.binding? x = none ∨
        ∃ z, m.Refers x z ∧ (m.instantiate (.var z)).hasVar = true := by
      cases hb : m.binding? x with
      | none => exact .inl rfl
      | some b =>
        cases b with
        | value u =>
          rw [instantiate_value hx hb] at hv
          obtain ⟨y, hy⟩ := Term.hasVar_iff.1 hv
          obtain ⟨z, hz, hzy⟩ := occurs_instantiate.1 hy
          exact .inr ⟨z, .inl ⟨u, hb, hz⟩, Term.hasVar_iff.2 ⟨y, hzy⟩⟩
        | delayed p =>
          refine .inr ⟨p, .inr hb, ?_⟩
          rw [instantiate_delayed hx hb] at hv
          split at hv
          · next hvar => exact hvar
          · exact hv
    obtain hb | ⟨z, hxz, hz⟩ := hnext
    · exact ⟨x, .refl, hb⟩
    · obtain ⟨y, hzy, hy⟩ := ih z hxz hz
      exact ⟨y, .head hxz hzy, hy⟩

/-- No open variable is below a term exactly if its instantiation is closed. -/
theorem openVars_eq_empty_iff (hg : ∀ x, m.Grounded x) :
    m.openVars t = ∅ ↔ (m.instantiate t).hasVar = false := by
  constructor
  · intro hempty
    refine (Bool.not_eq_true _).mp fun hv => ?_
    obtain ⟨z, hz⟩ := Term.hasVar_iff.1 hv
    obtain ⟨x, hx, hxz⟩ := occurs_instantiate.1 hz
    obtain ⟨y, hxy, hy⟩ := (hg x).exists_open (Term.hasVar_iff.2 ⟨z, hxz⟩)
    have hmem : y ∈ m.openVars t := (mem_openVars hg).2 ⟨hy, x, hx, hxy⟩
    rw [hempty] at hmem
    exact VarSet.not_mem_empty y hmem
  · intro hclosed
    refine VarSet.ext fun y => iff_of_false (fun hy => ?_) (VarSet.not_mem_empty y)
    obtain ⟨hy, x, hx, hxy⟩ := (mem_openVars hg).1 hy
    obtain ⟨z, hz, -⟩ := (hg x).exists_occurs hxy hy
    exact nomatch (Term.hasVar_eq_false.1 hclosed z).symm.trans (occurs_instantiate.2 ⟨x, hx, hz⟩)

/-- A goal depends on the other open variables that can be reached from its type and hypotheses. -/
theorem mem_dependencies (hg : ∀ x, m.Grounded x) {deps : VarSet}
    (h : m.dependencies x = .ok deps) : y ∈ deps ↔ y ≠ x ∧ m.binding? y = none ∧
      ∃ d, m.decl? x = some d ∧ ∃ z, d.Mentions z ∧ m.Reaches z y := by
  unfold dependencies at h
  split at h
  · cases h
  · next d hd =>
    cases h
    rw [VarSet.mem_erase, mem_foldl_collect (P := fun h => y ∈ m.openVars h.type) fun found h => by
      rw [VarSet.mem_union, or_comm], mem_openVars hg]
    simp only [mem_openVars hg, hd, Option.some.injEq, exists_eq_left', VarDecl.Mentions]
    grind

/-- If no chain of references leads back to its start, the instantiation of a term is what following
its variables ends with.  No variable in it holds a value, the delayed variables in it wait for a
value that is not closed, and instantiating again changes nothing.  The open variables below the
term are those that can be reached from it, and there are none exactly if its instantiation is
closed. -/
theorem instantiate_openVars (m : Context) (hm : m.Acyclic) (t : Term) :
    (∃ σ, m.instantiate t = t.subst σ ∧ ∀ x, m.Follows x (σ x)) ∧
      (∀ x u, (m.instantiate t).occurs x = true → m.binding? x ≠ some (.value u)) ∧
      (∀ x p, (m.instantiate t).occurs x = true → m.binding? x = some (.delayed p) →
        (m.instantiate (.var p)).hasVar = true) ∧
      m.instantiate (m.instantiate t) = m.instantiate t ∧
      (∀ y, y ∈ m.openVars t ↔
        m.isAssigned y = false ∧ ∃ x, t.occurs x = true ∧ m.Reaches x y) ∧
      (m.openVars t = ∅ ↔ (m.instantiate t).hasVar = false) := by
  have hg := hm.grounded
  refine ⟨⟨_, instantiate_eq_subst m t, fun x => (hg x).follows⟩, fun x u hx => ?_,
    fun x p hx hp => ?_, instantiate_extends (.refl m) fun x _ => hg x, fun y => ?_,
    openVars_eq_empty_iff hg⟩
  · obtain ⟨z, -, hzx⟩ := occurs_instantiate.1 hx
    exact ((hg z).of_occurs hzx).2 u
  · obtain ⟨z, -, hzx⟩ := occurs_instantiate.1 hx
    exact (hg z).waits_of_occurs hzx hp
  · rw [mem_openVars hg, isAssigned, Option.isSome_eq_false_iff, Option.isNone_iff_eq_none]

/-- Of two delayed variables the first waits for a value with the open variable 6 in it, and the
second for a closed value; a third variable holds a value that mentions both. -/
def Call.waiting : List Call := [
  .declare ⟨1⟩ ⟨.const "T", [], none⟩,
  .declare ⟨2⟩ ⟨.const "T", [], none⟩,
  .declare ⟨3⟩ ⟨.const "T", [], none⟩,
  .declare ⟨4⟩ ⟨.const "T", [], none⟩,
  .declare ⟨5⟩ ⟨.const "T", [], none⟩,
  .declare ⟨6⟩ ⟨.const "T", [], none⟩,
  .assign ⟨1⟩ (.app "f" [.var ⟨2⟩, .var ⟨3⟩]),
  .assignDelayed ⟨2⟩ ⟨4⟩,
  .assignDelayed ⟨3⟩ ⟨5⟩,
  .assign ⟨4⟩ (.app "g" [.var ⟨6⟩, .var ⟨3⟩]),
  .assign ⟨5⟩ (.const "a")]

theorem instantiate_openVars_waiting : (Call.performAll .empty Call.waiting).Acyclic ∧
    (Call.performAll .empty Call.waiting).instantiate (.var ⟨1⟩) =
      .app "f" [.var ⟨2⟩, .const "a"] ∧
    (Call.performAll .empty Call.waiting).binding? ⟨2⟩ = some (.delayed ⟨4⟩) ∧
    ((Call.performAll .empty Call.waiting).instantiate (.var ⟨4⟩)).hasVar = true ∧
    (Call.performAll .empty Call.waiting).Reaches ⟨1⟩ ⟨6⟩ := by
  have hacyclic : (Call.performAll .empty Call.waiting).Acyclic :=
    (Call.acyclic_performAll_iff Call.waiting fun _ => grounded_of_open rfl).1.2
      (by decide +kernel)
  obtain ⟨-, -, hwaits, -, hopen, -⟩ :=
    instantiate_openVars (Call.performAll .empty Call.waiting) hacyclic (.var ⟨1⟩)
  have hbinding : (Call.performAll .empty Call.waiting).binding? ⟨2⟩ = some (.delayed ⟨4⟩) := by
    decide +kernel
  refine ⟨hacyclic, by decide +kernel, hbinding, hwaits ⟨2⟩ ⟨4⟩ (by decide +kernel) hbinding, ?_⟩
  obtain ⟨-, x, hx, hreach⟩ := (hopen ⟨6⟩).1 (by decide +kernel)
  obtain rfl : ⟨1⟩ = x := by simpa [Term.occurs] using hx
  exact hreach

end Context

end ProofSearch
