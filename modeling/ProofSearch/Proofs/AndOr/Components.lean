import ProofSearch.Proofs.AndOr.Adding
import ProofSearch.Proofs.Metavar.Instantiation

/-!
# Clusters are connected components

1. `Context.subgoals_eq_error_iff`: grouping fails at the first goal that is not declared.
2. `Context.clusterGoals_components`: otherwise the clusters are the connected components of the
   goals under shared variables.
-/

namespace ProofSearch

namespace Context

variable {m : Context} {x y : Var}

/-- Subgoals are not found exactly if some goal is not declared, and the first such goal is
named. -/
theorem subgoals_eq_error_iff {goals : List Var} {e : MetavarError} : m.subgoals goals = .error e ↔
    ∃ g, goals.find? (fun g => !m.isDeclared g) = some g ∧ e = .unknown g := by
  unfold subgoals
  induction goals with
  | nil => simp [pure, Except.pure]
  | cons g goals ih =>
    rw [List.mapM_cons, List.find?_cons]
    cases hg : m.isDeclared g with
    | false =>
      rw [dependencies_of_undeclared hg]
      change Except.error (.unknown g) = Except.error e ↔ ∃ x, some g = some x ∧ e = .unknown x
      simp [eq_comm]
    | true =>
      obtain ⟨deps, hdeps⟩ := exists_dependencies hg
      rw [hdeps]
      cases hrest : goals.mapM fun x => (m.dependencies x).map (Subgoal.mk x) with
      | error e' =>
        rw [hrest] at ih
        exact ih
      | ok subgoals =>
        rw [hrest] at ih
        refine ⟨fun h => ?_, fun h => ?_⟩
        · cases h
        · cases ih.2 h

/-- The open variable `y` is the goal `x` or can be reached from its type and hypotheses. -/
def RestsOn (m : Context) (x y : Var) : Prop :=
  m.isAssigned y = false ∧ (y = x ∨ ∃ d, m.decl? x = some d ∧ ∃ z, d.Mentions z ∧ m.Reaches z y)

theorem RestsOn.mem_reach (hg : ∀ x, m.Grounded x) {s : Subgoal}
    (hs : m.dependencies s.var = .ok s.deps) (h : m.RestsOn s.var y) : y ∈ s.reach := by
  obtain ⟨hopen, hy⟩ := h
  rw [isAssigned, Option.isSome_eq_false_iff, Option.isNone_iff_eq_none] at hopen
  rw [Subgoal.reach, VarSet.mem_insert, mem_dependencies hg hs]
  by_cases hys : y = s.var
  · exact .inl hys
  · exact .inr ⟨hys, hopen, hy.resolve_left hys⟩

/-- The groups are the connected components of the goals.  Positions of the list belong together
exactly if a chain of positions leads from one to the other in which neighbours share a variable,
among those they depend on and their own. -/
def Clustered (m : Context) (goals : List Var) (groups : List (List Subgoal)) : Prop :=
  ∃ subgoals : List Subgoal, subgoals.map (·.var) = goals ∧
    (∀ s ∈ subgoals, m.dependencies s.var = .ok s.deps) ∧
    ∃ parts : List (List (Fin subgoals.length)),
      groups = parts.map (fun part => part.map subgoals.get) ∧
      Components (Meets fun i => (subgoals.get i).reach) parts

/-- Grouping goals fails exactly if one of them is not declared, and names the first such goal.
Otherwise the groups are the connected components of the goals, and goals of different groups rest
on no common open variable. -/
theorem clusterGoals_components (m : Context) (hm : m.Acyclic) (goals : List Var) :
    ((∃ e, m.clusterGoals goals = .error e) ↔ ∃ g ∈ goals, m.isDeclared g = false) ∧
      (∀ e, m.clusterGoals goals = .error e →
        ∃ g, goals.find? (fun g => !m.isDeclared g) = some g ∧ e = .unknown g) ∧
      ∀ groups, m.clusterGoals goals = .ok groups → m.Clustered goals groups ∧
        groups.Pairwise fun p q => ∀ s ∈ p, ∀ s' ∈ q, ∀ x,
          m.RestsOn s.var x → ¬ m.RestsOn s'.var x := by
  have herror (e : MetavarError) : m.clusterGoals goals = .error e ↔ m.subgoals goals = .error e := by
    unfold clusterGoals
    cases m.subgoals goals <;> simp [Except.map]
  refine ⟨?_, fun e he => subgoals_eq_error_iff.1 ((herror e).1 he), fun groups hgroups => ?_⟩
  · simp only [herror, subgoals_eq_error_iff]
    constructor
    · rintro ⟨e, g, hg, -⟩
      exact ⟨g, List.mem_of_find?_eq_some hg, by simpa using List.find?_some hg⟩
    · rintro ⟨g, hg, hundeclared⟩
      have hsome : (goals.find? fun g => !m.isDeclared g).isSome = true :=
        List.find?_isSome.2 ⟨g, hg, by simp [hundeclared]⟩
      obtain ⟨first, hfirst⟩ := Option.isSome_iff_exists.1 hsome
      exact ⟨_, first, hfirst, rfl⟩
  · obtain ⟨subgoals, hsub, rfl⟩ := exists_subgoals hgroups
    obtain ⟨hvars, hdeps⟩ := subgoals_eq_ok hsub
    obtain ⟨parts, hparts, hc⟩ := Subgoal.clusters_components subgoals
    refine ⟨⟨subgoals, hvars, hdeps, parts, hparts, hc⟩, ?_⟩
    have hreach (x : Var) (i : Fin subgoals.length) (hi : m.RestsOn (subgoals.get i).var x) :
        x ∈ (subgoals.get i).reach :=
      hi.mem_reach hm.grounded (hdeps _ (List.get_mem subgoals i))
    rw [hparts]
    refine List.pairwise_map.2 (hc.pairwise_not_related.imp fun {p q} hpq s hs s' hs' x hx hx' => ?_)
    obtain ⟨i, hi, rfl⟩ := List.mem_map.1 hs
    obtain ⟨j, hj, rfl⟩ := List.mem_map.1 hs'
    exact hpq i hi j hj ⟨x, hreach x i hx, hreach x j hx'⟩

/-- Goal 3 depends on variable 1 through the value of variable 2, and goal 5 through a
hypothesis. -/
def Call.sharing : List Call := [
  .declare ⟨1⟩ ⟨.const "T", [], none⟩,
  .declare ⟨2⟩ ⟨.const "T", [], none⟩,
  .declare ⟨3⟩ ⟨.app "P" [.var ⟨2⟩], [], none⟩,
  .declare ⟨4⟩ ⟨.const "R", [], none⟩,
  .declare ⟨5⟩ ⟨.const "S", [⟨"h", .app "Q" [.var ⟨1⟩]⟩], none⟩,
  .assign ⟨2⟩ (.app "f" [.var ⟨1⟩])]

/-- The goal 3 is listed twice. -/
theorem clusterGoals_components_sharing : (Call.performAll .empty Call.sharing).Acyclic ∧
    ∃ groups, groups.map (·.map (·.var)) = [[⟨3⟩, ⟨5⟩, ⟨3⟩], [⟨4⟩]] ∧
      (Call.performAll .empty Call.sharing).Clustered [⟨3⟩, ⟨4⟩, ⟨5⟩, ⟨3⟩] groups := by
  have hacyclic : (Call.performAll .empty Call.sharing).Acyclic :=
    (Call.acyclic_performAll_iff Call.sharing fun _ => grounded_of_open rfl).1.2 (by decide +kernel)
  obtain ⟨groups, hgroups, hvars⟩ : ∃ groups,
      (Call.performAll .empty Call.sharing).clusterGoals [⟨3⟩, ⟨4⟩, ⟨5⟩, ⟨3⟩] = .ok groups ∧
        groups.map (·.map (·.var)) = [[⟨3⟩, ⟨5⟩, ⟨3⟩], [⟨4⟩]] := by
    refine ⟨[[⟨⟨3⟩, .ofList [⟨1⟩]⟩, ⟨⟨5⟩, .ofList [⟨1⟩]⟩, ⟨⟨3⟩, .ofList [⟨1⟩]⟩], [⟨⟨4⟩, ∅⟩]], ?_, rfl⟩
    decide +kernel
  obtain ⟨-, -, hall⟩ :=
    clusterGoals_components (Call.performAll .empty Call.sharing) hacyclic [⟨3⟩, ⟨4⟩, ⟨5⟩, ⟨3⟩]
  exact ⟨hacyclic, groups, hvars, (hall groups hgroups).1⟩

end Context

end ProofSearch
