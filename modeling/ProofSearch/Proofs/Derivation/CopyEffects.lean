import ProofSearch.Proofs.Derivation.Copies
import ProofSearch.Proofs.Derivation.VarHistory
import ProofSearch.Proofs.AndOr.Ancestry
import ProofSearch.Proofs.Metavar.Cycles
import ProofSearch.Proofs.Metavar.Freshness
import ProofSearch.Proofs.Search.CoarseSteps

/-!
# The recorded effects of an application with copies

An application records which variables it introduced and which ones it assigned.  The copies of
siblings that it carries along are added to both sets by hand, one by one.

1. `Context.GrowsTo`: nothing is lost from one context to another.  `Context.StandsFor`: a goal that
   has another one as its value, with the same type and hypotheses.
2. `standsFor_copyGoals`: copying goals in any order closes no cycle, and at the end each copy
   stands for its original, although later copies change what earlier types instantiate to.
3. `CopiesMade.declaredSince`, `CopiesMade.assignedSince`: the sets with the copies in them are
   again the differences from the state before.
4. `SiteM.addApplication_effects`: all of this for an application that is added to a tree.
-/

namespace ProofSearch

open Solver

namespace Context

variable {m n k : Context} {x y : Var}

/-- All that is declared or bound in `m` is declared or bound in the same way in `n`. -/
structure GrowsTo (m n : Context) : Prop where
  decl : ∀ y d, m.decl? y = some d → n.decl? y = some d
  extension : m.Extends n

namespace GrowsTo

theorem isDeclared (h : m.GrowsTo n) (hy : m.isDeclared y = true) : n.isDeclared y = true := by
  obtain ⟨d, hd⟩ := exists_decl? hy
  exact isDeclared_of_decl? (h.decl y d hd)

theorem isAssigned (h : m.GrowsTo n) (hy : m.isAssigned y = true) : n.isAssigned y = true := by
  obtain ⟨b, hb⟩ := Option.isSome_iff_exists.1 hy
  exact Option.isSome_iff_exists.2 ⟨b, h.extension y b hb⟩

/-- A variable that is open later was open before. -/
theorem isAssigned_eq_false (h : m.GrowsTo n) (hy : n.isAssigned y = false) :
    m.isAssigned y = false :=
  (Bool.not_eq_true _).mp fun ha => nomatch hy.symm.trans (h.isAssigned ha)

end GrowsTo

/-- The goal `x` has the goal `y` as its value, and both have the same type and hypotheses. -/
structure StandsFor (n : Context) (x y : Var) : Prop where
  value : n.instantiate (.var x) = .var y
  decl : ∃ d e, n.decl? x = some d ∧ n.decl? y = some e ∧
    n.instantiate e.type = n.instantiate d.type ∧
    e.hyps.mapTypes n.instantiate = d.hyps.mapTypes n.instantiate

theorem mapTypes_extends (h : m.Extends n) (hn : n.Acyclic) (hyps : LocalContext) :
    (hyps.mapTypes m.instantiate).mapTypes n.instantiate = hyps.mapTypes n.instantiate := by
  simp only [LocalContext.mapTypes, List.map_map, Function.comp_def,
    instantiate_extends h fun z _ => hn.grounded z]

/-- Assigning a new variable closes no cycle. -/
theorem Acyclic.assign_fresh {d : VarDecl} (hm : m.Acyclic) (hfresh : m.isDeclared y = false)
    (hx : m.isDeclared x = true) (h : (m.declareFresh y d).assign x (.var y) = .ok n) :
    n.Acyclic := by
  have hm' : (m.declareFresh y d).Acyclic := hm.of_extends fun z b hz => by
    rwa [binding?_declareFresh] at hz
  have hopen := (binding?_of_assign h).1
  obtain ⟨e, -, -, rfl⟩ := assign_eq_ok_iff.1 h
  refine (acyclic_bind_iff hm'.grounded hopen).1.2 fun hmem => ?_
  obtain ⟨-, z, hz, hr⟩ := (mem_openVars hm'.grounded).1 hmem
  obtain rfl : y = z := by simpa [Binding.term, Term.occurs] using hz
  have hy : (m.declareFresh y d).binding? y = none := by
    rw [binding?_declareFresh, binding?_of_not_declared hfresh]
  rw [hr.eq_of_open hy] at hx
  cases hfresh.symm.trans hx

end Context

variable {t : Tree} {m n pre : Context} {last : Nat} {gs : List GoalId} {s s' : Solver}
  {copies : List Tree.GoalCopy}

/-! ## Copied goals -/

namespace CopiesMade

theorem growsTo (h : CopiesMade t m last gs copies n) : m.GrowsTo n := ⟨h.decl, h.extension⟩

theorem isAssigned_iff (h : CopiesMade t m last gs copies n) (y : Var) :
    n.isAssigned y = true ↔ m.isAssigned y = true ∨ ∃ c ∈ copies, c.old = y := by
  refine ⟨fun hy => ?_, ?_⟩
  · cases hm : m.isAssigned y with
    | true => exact .inl rfl
    | false => exact .inr (h.assigned y hm hy)
  · rintro (hy | ⟨c, hc, rfl⟩)
    · exact h.growsTo.isAssigned hy
    · rw [Context.isAssigned, (h.old c hc).2.2]
      rfl

theorem isDeclared_iff (h : CopiesMade t m last gs copies n) (y : Var) :
    n.isDeclared y = true ↔ m.isDeclared y = true ∨ ∃ c ∈ copies, c.copy = y := by
  refine ⟨fun hy => ?_, ?_⟩
  · cases hm : m.isDeclared y with
    | true => exact .inl rfl
    | false => exact .inr (h.new y hy hm)
  · rintro (hy | ⟨c, hc, rfl⟩)
    · exact h.growsTo.isDeclared hy
    · exact (h.copy c hc).2.2.1

/-- With the copies, the introduced variables are again those that were declared since `pre`. -/
theorem declaredSince (h : CopiesMade t m last gs copies n) (hpre : pre.GrowsTo m) :
    (m.declaredSince pre).insertMany (copies.map (·.copy)) = n.declaredSince pre := by
  refine VarSet.ext fun y => ?_
  rw [VarSet.mem_insertMany, Context.mem_declaredSince, Context.mem_declaredSince,
    h.isDeclared_iff, List.mem_map]
  constructor
  · rintro (⟨c, hc, rfl⟩ | ⟨hm, hnot⟩)
    · -- a copy is new for `m`, and so for everything before
      refine ⟨.inr ⟨c, hc, rfl⟩, (Bool.not_eq_true _).mp fun hy => ?_⟩
      exact nomatch (h.copy c hc).2.1.symm.trans (hpre.isDeclared hy)
    · exact ⟨.inl hm, hnot⟩
  · rintro ⟨hm | hcopy, hnot⟩
    · exact .inr ⟨hm, hnot⟩
    · exact .inl hcopy

/-- With the originals, the assigned variables are again those that were assigned since `pre`, if
`pre` has the goals that are copied. -/
theorem assignedSince (h : CopiesMade t m last gs copies n) (hpre : pre.GrowsTo m)
    (hgs : ∀ g ∈ gs, pre.isDeclared (t.goal g).var = true) :
    (m.assignedSince pre).insertMany (copies.map (·.old)) = n.assignedSince pre := by
  refine VarSet.ext fun y => ?_
  rw [VarSet.mem_insertMany, Context.mem_assignedSince, Context.mem_assignedSince,
    h.isAssigned_iff, List.mem_map]
  constructor
  · rintro (⟨c, hc, rfl⟩ | ⟨hdecl, hopen, hm⟩)
    · obtain ⟨hold, hopen, -⟩ := h.old c hc
      refine ⟨?_, hpre.isAssigned_eq_false hopen, .inr ⟨c, hc, rfl⟩⟩
      rw [hold]
      exact hgs c.source (h.source_mem hc)
    · exact ⟨hdecl, hopen, .inl hm⟩
  · rintro ⟨hdecl, hopen, hm | hold⟩
    · exact .inr ⟨hdecl, hopen, hm⟩
    · exact .inl hold

end CopiesMade

/-- Copying goals one after the other, in whatever order, closes no cycle, and each copy stands for
its original in the end. -/
theorem standsFor_copyGoals (hn : NumberedTo s.lastId s.context) (hs : s.context.Acyclic)
    (hgs : ∀ g ∈ gs, (t.goal g).var.index ≤ s.lastId) (he : Ends (t.copyGoals gs) s copies s') :
    s'.context.Acyclic ∧ ∀ c ∈ copies, s'.context.StandsFor c.old c.copy := by
  induction gs generalizing s copies with
  | nil =>
    obtain ⟨rfl, rfl⟩ := ends_pure.1 he
    exact ⟨hs, nofun⟩
  | cons g rest ih =>
    have hmade := copiesMade_copyGoals hn hgs he
    simp only [Tree.copyGoals, ends_bind, ends_goalType, ends_goalHyps, ends_mkGoal, ends_assign,
      ends_pure] at he
    obtain ⟨type, _, ⟨d, hd, rfl, rfl⟩, hyps, u, ⟨d', hd', rfl, rfl⟩, x, v, ⟨rfl, rfl⟩, -, w,
      ⟨k, hk, rfl⟩, more, w', hmore, rfl, rfl⟩ := he
    obtain rfl : d = d' := Option.some.inj (hd.symm.trans hd')
    have hfresh : u.context.isDeclared ⟨u.lastId + 1⟩ = false := hn.undeclared
    have hrest (j : GoalId) (hj : j ∈ rest) : (t.goal j).var.index ≤ u.lastId + 1 :=
      (hgs j (List.mem_cons_of_mem g hj)).trans (Nat.le_succ _)
    have hnum : NumberedTo (u.lastId + 1) k :=
      (hn.declareFresh (Nat.le_succ _) le_rfl _).congr fun y =>
        Context.isDeclared_congr (Context.assign_frame hk y).1
    have hgrows := (copiesMade_copyGoals hnum hrest hmore).growsTo
    obtain ⟨hw, hcopies⟩ := ih hnum
      (by exact hs.assign_fresh hfresh (Context.isDeclared_of_decl? hd) hk) hrest hmore
    refine ⟨hw, fun c hc => ?_⟩
    rcases List.mem_cons.1 hc with rfl | hc
    · have hopen := (hmade.copy _ hc).2.2.2
      rw [Context.isAssigned, Option.isSome_eq_false_iff, Option.isNone_iff_eq_none] at hopen
      have hcopy : k.decl? ⟨u.lastId + 1⟩ = some ⟨u.context.instantiate d.type,
          d.hyps.mapTypes u.context.instantiate, none⟩ := by
        rw [(Context.assign_frame hk _).1]
        exact (Context.decl?_declareFresh ..).trans (if_pos rfl)
      refine ⟨?_, d, _, hmade.decl _ d hd, hgrows.decl _ _ hcopy, ?_, ?_⟩
      · rw [Context.instantiate_value (hw.grounded _) (hmade.old _ hc).2.2,
          Context.instantiate_open hopen]
      · exact Context.instantiate_extends hmade.extension fun z _ => hw.grounded z
      · exact Context.mapTypes_extends hmade.extension hw _
    · exact hcopies c hc

/-! ## Added applications -/

namespace Tree

variable {g k : GoalId} {new : NewApplication} {groups : List (List Subgoal)} {t' : Tree}

/-- The walk stays in the clusters along the path. -/
theorem exists_level_of_mem_dependents {post : Context} {path : List Level} {assigned : VarSet}
    (h : g ∈ t.dependents post path assigned) :
    ∃ level ∈ path, g ∈ (t.cluster level.cluster).goals := by
  induction path generalizing assigned with
  | nil => cases h
  | cons level path ih =>
    obtain ⟨k, c, above⟩ := level
    rw [dependents] at h
    split at h
    · cases h
    · cases above with
      | none => exact ⟨_, List.mem_cons_self, (List.mem_filter.1 h).1⟩
      | some r =>
        rcases List.mem_append.1 h with h | h
        · exact ⟨_, List.mem_cons_self, (List.mem_filter.1 h).1⟩
        · obtain ⟨level, hmem, hg⟩ := ih h
          exact ⟨level, List.mem_cons_of_mem _ hmem, hg⟩

/-- A goal that names a source has the variable of the source's copy. -/
theorem Growth.copy_of_origin (h : Growth new copies groups t t') (hg : ¬ t.HasGoal g)
    (hg' : t'.HasGoal g) (ho : (t'.goal g).origin = .copied k) :
    ∃ c ∈ copies, c.source = k ∧ c.copy = (t'.goal g).var := by
  obtain ⟨c, s, -, -, -, -, he⟩ := h.goal_new g hg hg'
  rw [he, makeGoal] at ho ⊢
  dsimp only at ho
  split at ho
  · next copy hfind =>
    cases ho
    have hcopy : copy.copy = s.var := by simpa using List.find?_some hfind
    exact ⟨copy, List.mem_of_find?_eq_some hfind, rfl, hcopy⟩
  · cases ho

/-- A copy becomes a goal that names its source. -/
theorem Growth.exists_copied (h : Growth new copies groups t t')
    (hn : (copies.map (·.copy)).Nodup)
    (hgroups : new.post.context.clusterGoals new.goals = .ok groups) {c : GoalCopy}
    (hc : c ∈ copies) (hgoal : c.copy ∈ new.goals) :
    ∃ g, ¬ t.HasGoal g ∧ t'.HasGoal g ∧ (t'.goal g).origin = .copied c.source := by
  obtain ⟨s, hs, hvar⟩ := List.mem_map.1 ((Context.clusterGoals_perm hgroups).1.mem_iff.2 hgoal)
  obtain ⟨i, hi⟩ := List.mem_iff_getElem?.1 hs
  obtain ⟨cl, hg⟩ := h.goal_at i s hi
  have hlt : i < groups.flatten.length := (List.getElem?_eq_some_iff.1 hi).1
  refine ⟨⟨t.goals.size + i⟩, by simp [HasGoal], ?_, ?_⟩
  · simp only [HasGoal, h.goals_size]
    omega
  · rw [hg, makeGoal, hvar, find?_copy hn hc]

end Tree

namespace SiteM

/-- Let an application extend the state `pre`, let it record exactly what it introduced and assigned
since, and let `pre` have the goals in the clusters from its goal to the root.  Once it is added,
what is recorded is again exactly what was introduced and assigned since `pre`.  The goals that the
walk finds are copied, and each copy stands for its original. -/
theorem addApplication_effects {t : Tree} {s : Solver} {new : NewApplication}
    {added : AddedApplication} {site : Site} (pre : Snapshot)
    (hrun : (addApplication new).run.run ⟨s, t⟩ = (.ok added, site))
    (hparent : t.HasGoal new.parent) (hpost : new.post.context.Acyclic)
    (hpre : pre.context.GrowsTo new.post.context)
    (hintroduced : new.introduced = new.post.context.declaredSince pre.context)
    (hassigned : new.assigned = new.post.context.assignedSince pre.context)
    (hgoals : ∀ level ∈ t.path new.parent, ∀ g ∈ (t.cluster level.cluster).goals,
      pre.context.isDeclared (t.goal g).var = true)
    (hlast : NumberedTo s.lastId new.post.context) :
    (site.tree.application added.application).introduced =
      (site.tree.application added.application).post.context.declaredSince pre.context ∧
    (site.tree.application added.application).assigned =
      (site.tree.application added.application).post.context.assignedSince pre.context ∧
    (∀ k ∈ t.dependents new.post.context (t.path new.parent) new.assigned,
      ∃ g ∈ added.goals, (site.tree.goal g).origin = .copied k) ∧
    ∀ g ∈ added.goals, ∀ k, (site.tree.goal g).origin = .copied k →
      (site.tree.application added.application).post.context.StandsFor (site.tree.goal k).var
        (site.tree.goal g).var := by
  obtain ⟨added', t', s', hends, hrun'⟩ | ⟨e, s', hrun'⟩ := Tree.addApplication_cases t s new
  · cases hrun'.symm.trans hrun
    obtain ⟨new', copies, groups, u, hcarry, hgroups, -, hgrow, happ, hadded, ht⟩ :=
      Tree.addApplication_growth hends hparent
    have hnoted := Tree.noted_of_added ht
    obtain ⟨v, hcopy, rfl⟩ := Tree.carrySiblings_cases hcarry
    have hdecl (g : GoalId) (hg : g ∈ t.dependents new.post.context (t.path new.parent)
        new.assigned) : pre.context.isDeclared (t.goal g).var = true := by
      obtain ⟨level, hlevel, hmem⟩ := Tree.exists_level_of_mem_dependents hg
      exact hgoals level hlevel g hmem
    have hindex (g : GoalId) (hg : g ∈ t.dependents new.post.context (t.path new.parent)
        new.assigned) : (t.goal g).var.index ≤ s.lastId :=
      hlast _ (hpre.isDeclared (hdecl g hg))
    have hmade : CopiesMade t new.post.context s.lastId _ copies v.context :=
      copiesMade_copyGoals (s := { s with state := new.post }) hlast hindex hcopy
    have hstands := (standsFor_copyGoals (s := { s with state := new.post }) hlast hpost hindex
      hcopy).2
    rw [happ, hnoted.introduced, hnoted.assigned, hnoted.post, hgrow.application_new]
    refine ⟨?_, ?_, fun k hk => ?_, fun g hg k ho => ?_⟩
    · rw [Tree.newNode, hintroduced]
      exact hmade.declaredSince hpre
    · rw [Tree.newNode, hassigned]
      exact hmade.assignedSince hpre hdecl
    · rw [← hmade.sources] at hk
      obtain ⟨c, hc, rfl⟩ := List.mem_map.1 hk
      obtain ⟨g, hg, hg', ho⟩ := hgrow.exists_copied hmade.nodup hgroups hc
        (List.mem_append_right _ (List.mem_map_of_mem hc))
      exact ⟨g, (hadded g).2 ⟨hg, hg'⟩, by rw [hnoted.origin, ho]⟩
    · rw [hnoted.origin] at ho
      obtain ⟨hg, hg'⟩ := (hadded g).1 hg
      obtain ⟨c, hc, rfl, hvar⟩ := hgrow.copy_of_origin hg hg' ho
      have hsource := hasGoal_of_mem_dependents (hmade.source_mem hc)
      rw [hnoted.var, hnoted.var, ← hvar, (hgrow.recorded hsource).1, ← (hmade.old c hc).1]
      exact hstands c hc
  · cases hrun'.symm.trans hrun

/-- Goals `?2 : P(?4)`, `?3 : Q(?2, ?4)` with a hypothesis of type `R(?2)`, and `?4 : X`. -/
def crossedCalls : List Context.Call := [
  .declare ⟨1⟩ ⟨.const "Root", [], none⟩,
  .declare ⟨2⟩ ⟨.app "P" [.var ⟨4⟩], [], none⟩,
  .declare ⟨3⟩ ⟨.app "Q" [.var ⟨2⟩, .var ⟨4⟩], [⟨"h", .app "R" [.var ⟨2⟩]⟩], none⟩,
  .declare ⟨4⟩ ⟨.const "X", [], none⟩]

def crossedContext : Context := Context.Call.performAll .empty crossedCalls

def crossedSplit : NewApplication where
  parent := Tree.root
  rule := ⟨"split", .tentative⟩
  post := ⟨crossedContext, .empty⟩
  goals := [⟨2⟩, ⟨3⟩, ⟨4⟩]
  introduced := .ofList [⟨2⟩, ⟨3⟩, ⟨4⟩]
  assigned := ∅
  probability := .hundred
  branch := .empty
  iteration := 1

/-- The third subgoal is solved by a constant. -/
def crossedChoice : NewApplication where
  parent := ⟨3⟩
  rule := ⟨"choose", .tentative⟩
  post := ⟨crossedContext.bind ⟨4⟩ ⟨.const "X", [], none⟩ (.value (.const "a")), .empty⟩
  goals := []
  introduced := ∅
  assigned := .ofList [⟨4⟩]
  probability := .hundred
  branch := .empty
  iteration := 2

def crossedTree : Tree :=
  ((addApplication crossedSplit).run.run ⟨⟨.empty, 4⟩, .ofGoal ⟨1⟩ ∅ .empty⟩).2.tree

/-- Both siblings depend on the variable that is assigned, and the second one depends on the first
as well: its copy is made when the first one has been replaced. -/
theorem addApplication_effects_crossed : ∃ added site,
    (addApplication crossedChoice).run.run ⟨⟨.empty, 4⟩, crossedTree⟩ = (.ok added, site) ∧
    (site.tree.application added.application).assigned = .ofList [⟨2⟩, ⟨3⟩, ⟨4⟩] ∧
    (site.tree.application added.application).assigned =
      (site.tree.application added.application).post.context.assignedSince crossedContext ∧
    ∃ g ∈ added.goals, (site.tree.goal g).origin = .copied ⟨2⟩ ∧
      (site.tree.application added.application).post.context.StandsFor (site.tree.goal ⟨2⟩).var
        (site.tree.goal g).var := by
  have hpost : crossedChoice.post.context =
      Context.Call.performAll .empty (crossedCalls ++ [.assign ⟨4⟩ (.const "a")]) := by
    decide +kernel
  have hgrows : crossedContext.GrowsTo crossedChoice.post.context :=
    ⟨fun y d hd => (Context.decl?_bind_of_decl? rfl _ y).trans hd, Context.extends_bind rfl _ _⟩
  have hlast : NumberedTo 4 crossedChoice.post.context :=
    numberedTo_of_vars (by decide +kernel)
  obtain ⟨added, site, hrun, hassigned⟩ := exists_ends (x := addApplication crossedChoice)
    (s := ⟨⟨.empty, 4⟩, crossedTree⟩) (fun added site => decide
      ((site.tree.application added.application).assigned = .ofList [⟨2⟩, ⟨3⟩, ⟨4⟩]))
    (by decide +kernel)
  obtain ⟨-, heffects, hcopied, hstands⟩ := addApplication_effects
    ⟨crossedContext, .empty⟩ hrun (by decide +kernel)
    (hpost ▸ Context.Call.acyclic_of_checked (by decide +kernel)) hgrows
    (by decide +kernel) (by decide +kernel) (by decide +kernel) hlast
  obtain ⟨g, hg, horigin⟩ := hcopied ⟨2⟩ (by decide +kernel)
  exact ⟨added, site, hrun, of_decide_eq_true hassigned, heffects, g, hg, horigin,
    hstands g hg _ horigin⟩

end SiteM

end ProofSearch
