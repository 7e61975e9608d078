import ProofSearch.Proofs.Derivation.Additions
import ProofSearch.Proofs.Derivation.Recorded

/-!
# Copies of siblings

When an application is added, siblings that depend on what it assigned are copied into its state.

1. `CopiesMade`: a state in which goals have been copied: each old variable has the value of a new
   one, and nothing else is new.
2. `copiesMade_copyGoals`: copying goals one after the other leads to such a state.
3. `Tree.carrySiblings_cases`: siblings are copied in the state of the application.
   `Tree.carrySiblings_copiesMade`: what is recorded of an application with its copies.
-/

namespace ProofSearch

open Solver

/-- The goals `gs` of the tree have been copied since `m`, in which `last` was the latest number. -/
structure CopiesMade (t : Tree) (m : Context) (last : Nat) (gs : List GoalId)
    (copies : List Tree.GoalCopy) (n : Context) : Prop where
  decl : ∀ y d, m.decl? y = some d → n.decl? y = some d
  extension : m.Extends n
  sources : copies.map (·.source) = gs
  old : ∀ c ∈ copies, c.old = (t.goal c.source).var ∧ m.isAssigned c.old = false ∧
    n.binding? c.old = some (.value (.var c.copy))
  copy : ∀ c ∈ copies, last < c.copy.index ∧ m.isDeclared c.copy = false ∧
    n.isDeclared c.copy = true ∧ n.isAssigned c.copy = false
  nodup : (copies.map (·.copy)).Nodup
  new : ∀ y, n.isDeclared y = true → m.isDeclared y = false → ∃ c ∈ copies, c.copy = y
  assigned : ∀ y, m.isAssigned y = false → n.isAssigned y = true → ∃ c ∈ copies, c.old = y

variable {t : Tree} {m n k : Context} {last : Nat} {g : GoalId} {gs : List GoalId}
  {s s' : Solver} {copies : List Tree.GoalCopy} {y : Var}

namespace CopiesMade

theorem nil (t : Tree) (m : Context) (last : Nat) : CopiesMade t m last [] [] m where
  decl _ _ := id
  extension := .refl m
  sources := rfl
  old := nofun
  copy := nofun
  nodup := .nil
  new _ h h' := nomatch h.symm.trans h'
  assigned _ h h' := nomatch h.symm.trans h'

theorem declared (h : CopiesMade t m last gs copies n) (hy : m.isDeclared y = true) :
    n.isDeclared y = true := by
  obtain ⟨d, hd⟩ := Context.exists_decl? hy
  exact Context.isDeclared_of_decl? (h.decl y d hd)

theorem isAssigned (h : CopiesMade t m last gs copies n) (hy : m.isAssigned y = true) :
    n.isAssigned y = true := by
  obtain ⟨b, hb⟩ := Option.isSome_iff_exists.1 hy
  exact Option.isSome_iff_exists.2 ⟨b, h.extension y b hb⟩

theorem source_mem (h : CopiesMade t m last gs copies n) {c : Tree.GoalCopy} (hc : c ∈ copies) :
    c.source ∈ gs := h.sources ▸ List.mem_map_of_mem hc

/-- One goal is copied before the others. -/
theorem cons {d : VarDecl} (hn : NumberedTo last m)
    (hg : m.isDeclared (t.goal g).var = true) (hgs : ∀ j ∈ gs, (t.goal j).var.index ≤ last)
    (hk : (m.declareFresh ⟨last + 1⟩ d).assign (t.goal g).var (.var ⟨last + 1⟩) = .ok k)
    (h : CopiesMade t k (last + 1) gs copies n) :
    CopiesMade t m last (g :: gs) (⟨g, (t.goal g).var, ⟨last + 1⟩⟩ :: copies) n := by
  have hfresh : m.isDeclared ⟨last + 1⟩ = false :=
    (Bool.not_eq_true _).mp fun hd => absurd (hn _ hd) (Nat.not_succ_le_self last)
  have hne : (t.goal g).var ≠ ⟨last + 1⟩ := by
    intro he
    rw [he] at hg
    cases hfresh.symm.trans hg
  have hget {y : Var} (hy : y ≠ ⟨last + 1⟩) :
      (m.declareFresh ⟨last + 1⟩ d).get? y = m.get? y := by
    rw [Context.get?_declareFresh, if_neg hy]
  have hdecl {y : Var} (hy : y ≠ ⟨last + 1⟩) : k.decl? y = m.decl? y := by
    rw [(Context.assign_frame hk y).1, Context.decl?, hget hy]
    rfl
  have hcopy : k.isDeclared ⟨last + 1⟩ = true := by
    rw [Context.isDeclared_congr (Context.assign_frame hk _).1, Context.isDeclared,
      Context.get?_declareFresh, if_pos rfl]
    rfl
  have hbinding {y : Var} (hy : y ≠ (t.goal g).var) : k.binding? y = m.binding? y := by
    rw [(Context.assign_frame hk y).2 hy, Context.binding?_declareFresh]
  have hold : m.binding? (t.goal g).var = none := by
    rw [← Context.binding?_declareFresh, (Context.binding?_of_assign hk).1]
  have hext : m.Extends k := by
    intro y b hb
    rw [hbinding fun he => by cases (he ▸ hold).symm.trans hb]
    exact hb
  have hlater {c : Tree.GoalCopy} (hc : c ∈ copies) : c.old ≠ ⟨last + 1⟩ := by
    intro he
    have := hgs c.source (h.source_mem hc)
    rw [← (h.old c hc).1, he] at this
    exact absurd this (Nat.not_succ_le_self last)
  refine ⟨fun y e he => h.decl y e ?_, hext.trans h.extension, by simp [h.sources],
    fun c hc => ?_, fun c hc => ?_, ?_, fun y hy hm => ?_, fun y hm hy => ?_⟩
  · rw [hdecl, he]
    rintro rfl
    cases hfresh.symm.trans (Context.isDeclared_of_decl? he)
  · rcases List.mem_cons.1 hc with rfl | hc
    · exact ⟨rfl, by rw [Context.isAssigned, hold]; rfl,
        h.extension _ _ (Context.binding?_of_assign hk).2⟩
    · obtain ⟨hvar, hopen, hb⟩ := h.old c hc
      refine ⟨hvar, (Bool.not_eq_true _).mp fun hm => ?_, hb⟩
      obtain ⟨b, hb⟩ := Option.isSome_iff_exists.1 hm
      rw [Context.isAssigned, hext _ b hb] at hopen
      cases hopen
  · rcases List.mem_cons.1 hc with rfl | hc
    · refine ⟨Nat.lt_succ_self last, hfresh, h.declared hcopy, (Bool.not_eq_true _).mp fun ha => ?_⟩
      have hopen : k.isAssigned ⟨last + 1⟩ = false := by
        rw [Context.isAssigned, hbinding hne.symm, Context.binding?_of_not_declared hfresh]
        rfl
      obtain ⟨c, hc, he⟩ := h.assigned _ hopen ha
      exact hlater hc he
    · obtain ⟨hlt, hnot, hend⟩ := h.copy c hc
      refine ⟨by omega, (Bool.not_eq_true _).mp fun hm => ?_, hend⟩
      have hne : c.copy ≠ ⟨last + 1⟩ := fun he => absurd hlt (by rw [he]; exact lt_irrefl _)
      rw [Context.isDeclared_congr (hdecl hne)] at hnot
      cases hnot.symm.trans hm
  · refine List.nodup_cons.2 ⟨fun hmem => ?_, h.nodup⟩
    obtain ⟨c, hc, he⟩ := List.mem_map.1 hmem
    cases (he ▸ (h.copy c hc).2.1).symm.trans hcopy
  · cases hky : k.isDeclared y with
    | true =>
      by_cases he : y = ⟨last + 1⟩
      · exact ⟨_, List.mem_cons_self, he.symm⟩
      · rw [Context.isDeclared_congr (hdecl he)] at hky
        cases hky.symm.trans hm
    | false =>
      obtain ⟨c, hc, he⟩ := h.new y hy hky
      exact ⟨c, List.mem_cons_of_mem _ hc, he⟩
  · cases hky : k.isAssigned y with
    | true =>
      by_cases he : y = (t.goal g).var
      · exact ⟨_, List.mem_cons_self, he.symm⟩
      · rw [Context.isAssigned, hbinding he] at hky
        cases hky.symm.trans hm
    | false =>
      obtain ⟨c, hc, he⟩ := h.assigned y hky hy
      exact ⟨c, List.mem_cons_of_mem _ hc, he⟩

end CopiesMade

/-- Goals are copied one after the other. -/
theorem copiesMade_copyGoals (hn : NumberedTo s.lastId s.context)
    (hgs : ∀ g ∈ gs, (t.goal g).var.index ≤ s.lastId) (he : Ends (t.copyGoals gs) s copies s') :
    CopiesMade t s.context s.lastId gs copies s'.context := by
  induction gs generalizing s copies with
  | nil =>
    obtain ⟨rfl, rfl⟩ := ends_pure.1 he
    exact .nil t _ _
  | cons g rest ih =>
    simp only [Tree.copyGoals, ends_bind, ends_goalType, ends_goalHyps, ends_mkGoal, ends_assign,
      ends_pure] at he
    obtain ⟨type, _, ⟨d, hd, rfl, rfl⟩, hyps, u, ⟨d', hd', rfl, rfl⟩, x, v, ⟨rfl, rfl⟩, -, w,
      ⟨k, hk, rfl⟩, more, w', hmore, rfl, rfl⟩ := he
    have hrest (j : GoalId) (hj : j ∈ rest) : (t.goal j).var.index ≤ u.lastId :=
      hgs j (List.mem_cons_of_mem g hj)
    have hnum : NumberedTo (u.lastId + 1) k :=
      (hn.declareFresh (Nat.le_succ _) le_rfl _).congr fun y =>
        Context.isDeclared_congr (Context.assign_frame hk y).1
    refine .cons hn (Context.isDeclared_of_decl? hd) hrest hk (ih hnum (fun j hj => ?_) hmore)
    exact (hrest j hj).trans (Nat.le_succ _)

/-- Siblings are copied in the state of the application, which then records what was done. -/
theorem Tree.carrySiblings_cases {new new' : NewApplication}
    (he : Ends (t.carrySiblings new) s (new', copies) s') :
    ∃ u, Ends (t.copyGoals (t.dependents new.post.context (t.path new.parent) new.assigned))
        { s with state := new.post } copies u ∧
      new' = { new with
        post := u.state
        goals := new.goals ++ copies.map (·.copy)
        introduced := new.introduced.insertMany (copies.map (·.copy))
        assigned := new.assigned.insertMany (copies.map (·.old)) } := by
  unfold Tree.carrySiblings at he
  simp only [ends_ite, ends_pure, ends_bind, ends_restore, ends_adapt, ends_get] at he
  rcases he with ⟨hempty, he, rfl⟩ | ⟨-, -, u, rfl, found, v, hcopy, w, _, ⟨rfl, rfl⟩, he, rfl⟩
  · cases he
    rw [List.isEmpty_iff.1 hempty]
    exact ⟨_, ends_pure.2 ⟨rfl, rfl⟩, by rw [List.map_nil, List.append_nil]; rfl⟩
  · cases he
    exact ⟨_, hcopy, rfl⟩

/-- What is recorded of an application with its copies. -/
theorem Tree.carrySiblings_copiesMade {new new' : NewApplication}
    (hn : NumberedTo s.lastId new.post.context)
    (hgs : ∀ g, t.HasGoal g → (t.goal g).var.index ≤ s.lastId)
    (he : Ends (t.carrySiblings new) s (new', copies) s') :
    CopiesMade t new.post.context s.lastId
        (t.dependents new.post.context (t.path new.parent) new.assigned) copies
        new'.post.context ∧
      new' = { new with
        post := new'.post
        goals := new.goals ++ copies.map (·.copy)
        introduced := new.introduced.insertMany (copies.map (·.copy))
        assigned := new.assigned.insertMany (copies.map (·.old)) } := by
  obtain ⟨u, hcopy, rfl⟩ := Tree.carrySiblings_cases he
  exact ⟨copiesMade_copyGoals (s := { s with state := new.post }) hn
    (fun g hg => hgs g (hasGoal_of_mem_dependents hg)) hcopy, rfl⟩

end ProofSearch
