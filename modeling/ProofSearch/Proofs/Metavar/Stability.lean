import ProofSearch.Proofs.Metavar.Instantiation

/-!
# Instantiated terms in later contexts

The types and hypotheses of goals are stored as they were instantiated when the goals were made, and
are read after more variables have been assigned.  Meanwhile delayed variables that had to stay may
have found their values.

1. `Reaches.cut`: a way to an open variable passes a variable that was open before, and up to there
   it was there before.
2. `mem_openVars_extends`: the open variables below a term are those below its earlier open
   variables.
3. `instantiate_stable`: an earlier instantiation changes neither the instantiation of a term nor
   its open variables, and new open variables come from new assignments only.
-/

namespace ProofSearch

namespace Context

variable {m n : Context} {x y z : Var} {t : Term}

theorem Reaches.extends (h : m.Reaches x y) (hext : m.Extends n) : n.Reaches x y :=
  h.lift id fun _ _ hr => hr.extends hext

/-- What an assigned variable refers to stays as it is. -/
theorem Refers.of_extends (h : n.Refers x y) (hext : m.Extends n) (hx : m.binding? x ≠ none) :
    m.Refers x y := by
  obtain ⟨b, hb⟩ := Option.ne_none_iff_exists'.1 hx
  rw [refers_iff_of_binding (hext x b hb)] at h
  exact (refers_iff_of_binding hb).2 h

/-- On the way to an open variable there is one that was open before, and the way to the first such
variable was there before. -/
theorem Reaches.cut (h : n.Reaches z y) (hext : m.Extends n) (hy : n.binding? y = none) :
    ∃ x, m.Reaches z x ∧ m.binding? x = none ∧ n.Reaches x y := by
  induction h using Relation.ReflTransGen.head_induction_on with
  | refl =>
    refine ⟨y, .refl, ?_, .refl⟩
    by_contra hne
    obtain ⟨b, hb⟩ := Option.ne_none_iff_exists'.1 hne
    exact nomatch hy.symm.trans (hext y b hb)
  | @head z w hzw hwy ih =>
    by_cases hz : m.binding? z = none
    · exact ⟨z, .refl, hz, .head hzw hwy⟩
    · obtain ⟨x, hwx, hx, hxy⟩ := ih
      exact ⟨x, .head (hzw.of_extends hext hz) hwx, hx, hxy⟩

/-- The open variables below a term are those below the variables that were open below it before. -/
theorem mem_openVars_extends (hext : m.Extends n) (hn : n.Acyclic) :
    y ∈ n.openVars t ↔ n.binding? y = none ∧ ∃ x ∈ m.openVars t, n.Reaches x y := by
  simp only [mem_openVars hn.grounded, mem_openVars (hn.of_extends hext).grounded]
  refine and_congr_right fun hy => ⟨?_, ?_⟩
  · rintro ⟨z, hz, hzy⟩
    obtain ⟨x, hzx, hx, hxy⟩ := hzy.cut hext hy
    exact ⟨x, ⟨hx, z, hz, hzx⟩, hxy⟩
  · rintro ⟨x, ⟨-, z, hz, hzx⟩, hxy⟩
    exact ⟨z, hz, (hzx.extends hext).trans hxy⟩

/-- In a context that keeps all assignments of an earlier one and has no cycle, a term that was
instantiated in the earlier context has the same instantiation and the same open variables as the
term itself.  These are the variables still open that were open below the term before, or that can
be reached from one of those through the assignment it was given since. -/
theorem instantiate_stable (m n : Context) (hext : m.Extends n) (hn : n.Acyclic) (t : Term) :
    n.instantiate (m.instantiate t) = n.instantiate t ∧
      n.openVars (m.instantiate t) = n.openVars t ∧
      ∀ y, y ∈ n.openVars t ↔ n.isAssigned y = false ∧ (y ∈ m.openVars t ∨
        ∃ x ∈ m.openVars t, m.isAssigned x = false ∧ n.isAssigned x = true ∧
          Relation.TransGen n.Refers x y) := by
  have hinst : n.instantiate (m.instantiate t) = n.instantiate t :=
    instantiate_extends hext fun x _ => hn.grounded x
  have hopen {k : Context} {x : Var} : k.isAssigned x = false ↔ k.binding? x = none := by
    simp [isAssigned]
  refine ⟨hinst, by rw [openVars, hinst, openVars], fun y => ?_⟩
  rw [mem_openVars_extends hext hn, hopen]
  refine and_congr_right fun hy => ⟨?_, ?_⟩
  · rintro ⟨x, hx, hxy⟩
    rcases Relation.reflTransGen_iff_eq_or_transGen.1 hxy with rfl | hxy
    · exact .inl hx
    · obtain ⟨w, hxw, -⟩ := Relation.TransGen.head'_iff.1 hxy
      have hbefore := ((mem_openVars (hn.of_extends hext).grounded).1 hx).1
      exact .inr ⟨x, hx, hopen.2 hbefore, hxw.isAssigned, hxy⟩
  · rintro (hbefore | ⟨x, hx, -, -, hxy⟩)
    · exact ⟨y, hbefore, .refl⟩
    · exact ⟨x, hx, hxy.to_reflTransGen⟩

/-- Variable 2 waits for a value in which variable 6 is open. -/
def unanswered : Context := Call.performAll .empty Call.waiting

/-- Variable 6 got a value. -/
def answered (value : Term) : Context :=
  Call.performAll unanswered [.declare ⟨7⟩ ⟨.const "T", [], none⟩, .assign ⟨6⟩ value]

theorem acyclic_answered {value : Term} (h : Call.areChecked unanswered
    [.declare ⟨7⟩ ⟨.const "T", [], none⟩, .assign ⟨6⟩ value] = true) : (answered value).Acyclic := by
  have hbefore : unanswered.Acyclic := Call.acyclic_of_checked (by decide +kernel)
  exact (Call.acyclic_performAll_iff _ hbefore.grounded).1.2 h

/-- With a closed value of variable 6 the delayed variable that stayed is replaced, and with a value
that mentions a new variable it stays once more. -/
theorem instantiate_stable_waiting :
    unanswered.instantiate (.var ⟨1⟩) = .app "f" [.var ⟨2⟩, .const "a"] ∧
    (answered (.const "b")).Acyclic ∧
    (answered (.const "b")).instantiate (.app "f" [.var ⟨2⟩, .const "a"]) =
      .app "f" [.app "g" [.const "b", .const "a"], .const "a"] ∧
    (answered (.app "h" [.var ⟨7⟩])).Acyclic ∧
    (answered (.app "h" [.var ⟨7⟩])).openVars (.app "f" [.var ⟨2⟩, .const "a"]) = .ofList [⟨7⟩] ∧
    ∃ x ∈ unanswered.openVars (.var ⟨1⟩), unanswered.isAssigned x = false ∧
      Relation.TransGen (answered (.app "h" [.var ⟨7⟩])).Refers x ⟨7⟩ := by
  have hinst : unanswered.instantiate (.var ⟨1⟩) = .app "f" [.var ⟨2⟩, .const "a"] := by
    decide +kernel
  have hclosed : (answered (.const "b")).Acyclic := acyclic_answered (by decide +kernel)
  have hnested : (answered (.app "h" [.var ⟨7⟩])).Acyclic := acyclic_answered (by decide +kernel)
  obtain ⟨hsame, -, -⟩ := instantiate_stable unanswered (answered (.const "b"))
    (Call.extends_performAll _ _) hclosed (.var ⟨1⟩)
  obtain ⟨-, hvars, hopen⟩ := instantiate_stable unanswered (answered (.app "h" [.var ⟨7⟩]))
    (Call.extends_performAll _ _) hnested (.var ⟨1⟩)
  rw [hinst] at hsame hvars
  refine ⟨hinst, hclosed, hsame.trans (by decide +kernel), hnested,
    hvars.trans (by decide +kernel), ?_⟩
  obtain ⟨-, hbefore | ⟨x, hx, hfree, -, hreach⟩⟩ := (hopen ⟨7⟩).1 (by decide +kernel)
  · exact absurd hbefore (by decide +kernel)
  · exact ⟨x, hx, hfree, hreach⟩

end Context

end ProofSearch
