import ProofSearch.Proofs.AndOr.Relevance
import ProofSearch.Proofs.AndOr.Retaining
import ProofSearch.Proofs.Derivation.Rules

/-!
# Recorded states conform

A tree records a state for every normalized goal and every rule application.  One ledger fits all of
them.

1. `Recorded`: the ledger fits all states recorded in a tree.
2. `advance_copyGoals`: a copied sibling has the role of its original.
3. `Recorded.addApplication`: after an application is added a longer ledger fits.
-/

namespace ProofSearch

open Solver

variable {P : Problem} {L L' : Ledger} {t t' : Tree}

/-! ## Trees -/

/-- The state recorded in a goal is in order.  Normalization assigns the goal's variable unless it
leaves the goal in place. -/
structure GoalKept (P : Problem) (L : Ledger) (a : Goal) : Prop where
  post : ∀ post, a.normPost? = some post → Conforms P L post.context
  var : ∀ x, a.normVar? = some x → P.Own x
  closed : ∀ post, a.norm = .proven post → post.context.isAssigned a.var = true
  normal : ∀ x post, a.norm = .normal x post → post.context.isDeclared a.var = true ∧
    (a.var = x ∨ post.context.isAssigned a.var = true)

/-- The ledger fits all states recorded in the tree.  A goal is declared in the state in which it
was made and has applications only once it is normalized; in the state of an application its goal
and what it lists as assigned are assigned. -/
structure Recorded (P : Problem) (L : Ledger) (t : Tree) : Prop where
  root : Conforms P L t.rootState.context
  hasRoot : t.HasGoal Tree.root
  rootVar : (t.goal Tree.root).var = P.root
  goal : ∀ g, GoalKept P L (t.goal g)
  own : ∀ g, t.HasGoal g → P.Own (t.goal g).var
  declared : ∀ g, t.HasGoal g → (t.preState g).context.isDeclared (t.goal g).var = true
  fresh : ∀ g, (t.goal g).norm = .notNormal → (t.goal g).applications = []
  post : ∀ r, Conforms P L (t.application r).post.context
  applied : ∀ g x, (t.goal g).normVar? = some x → ∀ r ∈ (t.goal g).applications,
    (t.application r).post.context.isAssigned x = true
  assigned : ∀ r, ∀ x ∈ (t.application r).assigned,
    P.Own x ∧ (t.application r).post.context.isAssigned x = true

theorem Conforms.grow {m : Context} (h : Conforms P L m) (hL : L.Grows L') : Conforms P L' m :=
  (Advance.grow h hL).conforms

/-- A context without variables conforms. -/
theorem conforms_empty (h : P.base ≤ L.last) : Conforms P L .empty :=
  ⟨h, fun _ _ hx => (nomatch hx), fun _ _ _ hx => (nomatch hx), fun _ _ _ hx => (nomatch hx),
    fun _ _ => .unbound rfl⟩

/-- A goal that is not normalized is in order. -/
theorem goalKept_fresh {a : Goal} (hn : a.norm = .notNormal) : GoalKept P L a := by
  refine ⟨fun post hp => ?_, fun x hx => ?_, fun post hp => ?_, fun x post hp => ?_⟩
  · rw [Goal.normPost?, hn] at hp
    cases hp
  · rw [Goal.normVar?, hn] at hx
    cases hx
  · rw [hn] at hp
    cases hp
  · rw [hn] at hp
    cases hp

theorem GoalKept.grow {a : Goal} (h : GoalKept P L a) (hL : L.Grows L') : GoalKept P L' a :=
  { h with post := fun post hp => (h.post post hp).grow hL }

/-- Only the variable and the normalization of a goal matter. -/
theorem GoalKept.congr {a b : Goal} (h : GoalKept P L a) (hv : b.var = a.var)
    (hn : b.norm = a.norm) : GoalKept P L b := by
  refine ⟨fun post hp => h.post post ?_, fun x hx => h.var x ?_, fun post hp => ?_,
    fun x post hp => ?_⟩
  · rwa [Goal.normPost?, hn] at hp
  · rwa [Goal.normVar?, hn] at hx
  · rw [hv]
    exact h.closed post (hn.symm.trans hp)
  · rw [hv]
    exact h.normal x post (hn.symm.trans hp)

namespace Recorded

theorem grow (h : Recorded P L t) (hL : L.Grows L') : Recorded P L' t :=
  { h with
    root := h.root.grow hL
    goal := fun g => (h.goal g).grow hL
    post := fun r => (h.post r).grow hL }

/-- Marks, counters and queues do not matter. -/
theorem noted (h : Recorded P L t) (hn : t.Noted t') : Recorded P L t' where
  root := hn.rootState ▸ h.root
  hasRoot := hn.hasGoal.2 h.hasRoot
  rootVar := (hn.var _).trans h.rootVar
  goal g := (h.goal g).congr (hn.var g) (hn.norm g)
  own g hg := by
    rw [hn.var]
    exact h.own g (hn.hasGoal.1 hg)
  declared g hg := by
    rw [hn.preState, hn.var]
    exact h.declared g (hn.hasGoal.1 hg)
  fresh g hg := by
    rw [hn.norm] at hg
    rw [hn.applications]
    exact h.fresh g hg
  post r := by
    rw [hn.post]
    exact h.post r
  applied g x hx r hr := by
    rw [hn.normVar?] at hx
    rw [hn.applications] at hr
    rw [hn.post]
    exact h.applied g x hx r hr
  assigned r := by
    rw [hn.assigned, hn.post]
    exact h.assigned r

theorem preState (h : Recorded P L t) (g : GoalId) : Conforms P L (t.preState g).context := by
  unfold Tree.preState
  split
  · exact h.post _
  · exact h.root

end Recorded

/-! ## Copied siblings -/

/-- A copy has the role of its original. -/
theorem advance_copyGoals {s s' : Solver} {gs : List GoalId} {copies : List Tree.GoalCopy}
    (h : Tracks P L s) (hown : ∀ g ∈ gs, P.Own (t.goal g).var)
    (he : Ends (t.copyGoals gs) s copies s') : ∃ L', Advance P L s.context L' s'.context ∧
      L'.last = s'.lastId ∧ ∀ c ∈ copies, P.Own c.old ∧ P.Own c.copy ∧
        s'.context.isAssigned c.old = true := by
  induction gs generalizing L s copies with
  | nil =>
    obtain ⟨rfl, rfl⟩ := ends_pure.1 he
    exact ⟨L, .refl h.conforms, h.last, nofun⟩
  | cons g rest ih =>
    simp only [Tree.copyGoals, ends_bind, ends_goalType, ends_goalHyps, ends_mkGoal, ends_assign,
      ends_pure] at he
    obtain ⟨type, _, ⟨d, hd, rfl, rfl⟩, hyps, u, ⟨d', hd', rfl, rfl⟩, x, v, ⟨rfl, rfl⟩, -, w,
      ⟨k, hk, rfl⟩, more, w', hmore, rfl, rfl⟩ := he
    rw [hd] at hd'
    cases hd'
    have ho := hown g List.mem_cons_self
    have hdecl := h.conforms.decl _ d ho hd
    rw [hdecl.hyps, mapTypes_hyps] at hk hmore
    have hover := h.conforms.overTypes_instantiate hdecl.type
    obtain ⟨hadv, htr⟩ := h.declareNext (L.claim? (t.goal g).var) hover fun A hA =>
      ⟨(hdecl.claim A hA).1, (h.conforms.instantiate_instantiate hdecl.type).trans
        (hdecl.claim A hA).2⟩
    obtain ⟨hx, hentry, hdeclared⟩ := h.next (L.claim? (t.goal g).var)
      { type := u.context.instantiate d.type, hyps := P.hyps }
    have hclaim := hadv.claim? h.conforms ho (Context.isDeclared_of_decl? hd)
    have hadv' := Advance.assign htr.conforms ho ⟨fun hn y hy => by
        obtain rfl : ⟨u.lastId + 1⟩ = y := by simpa [Term.occurs] using hy
        exact ⟨hx, hentry.trans (hclaim.symm.trans hn), hdeclared⟩,
      fun A hA => .copy ⟨hx, hentry.trans (hclaim.symm.trans hA), hdeclared⟩⟩ hk
    have htr' : Tracks P (L.add (L.claim? (t.goal g).var)) (Solver.withContext
        (u.declareNext { type := u.context.instantiate d.type, hyps := P.hyps }) k) :=
      ⟨htr.last, hadv'.conforms⟩
    obtain ⟨L', hadv'', hlast, hall⟩ :=
      ih htr' (fun g' hg' => hown g' (List.mem_cons_of_mem g hg')) hmore
    refine ⟨L', (hadv.trans hadv').trans hadv'', hlast, fun c hc => ?_⟩
    rcases List.mem_cons.1 hc with rfl | hc
    · exact ⟨ho, hx, hadv''.isAssigned (isAssigned_of_assign hk)⟩
    · exact hall c hc

theorem hasGoal_of_needsCopy {post : Context} {assigned : VarSet} {g : GoalId}
    (h : Tree.needsCopy post assigned (t.goal g) = true) : t.HasGoal g := by
  by_contra hg
  rw [Tree.goal_of_not_has hg] at h
  simp only [Tree.needsCopy, Bool.and_eq_true, Bool.not_eq_true'] at h
  have hd : (default : Goal).vars.disjoint assigned = true :=
    VarSet.disjoint_iff.2 fun x hx => (VarSet.not_mem_empty x hx).elim
  rw [hd] at h
  exact nomatch h.2

theorem hasGoal_of_mem_dependents {post : Context} {path : List Tree.Level} {assigned : VarSet}
    {g : GoalId} (h : g ∈ t.dependents post path assigned) : t.HasGoal g := by
  induction path generalizing assigned with
  | nil => cases h
  | cons level path ih =>
    obtain ⟨k, c, above⟩ := level
    have hhere {g : GoalId} {gs : List GoalId} (hg : g ∈ gs.filter fun s =>
        decide (s ≠ k) && Tree.needsCopy post assigned (t.goal s)) : t.HasGoal g := by
      have hcopy := (List.mem_filter.1 hg).2
      rw [Bool.and_eq_true] at hcopy
      exact hasGoal_of_needsCopy hcopy.2
    rw [Tree.dependents] at h
    split at h
    · cases h
    · cases above with
      | none => exact hhere h
      | some r => exact (List.mem_append.1 h).elim hhere ih

/-! ## New applications -/

theorem Context.isDeclared_of_dependencies {m : Context} {x : Var} {vars : VarSet}
    (h : m.dependencies x = .ok vars) : m.isDeclared x = true := by
  unfold Context.dependencies at h
  split at h
  · cases h
  · next hd => exact Context.isDeclared_of_decl? hd

/-- The application to the goal `x` that is to be added is in order. -/
structure NewKept (P : Problem) (L : Ledger) (x : Var) (new : NewApplication) : Prop where
  post : Conforms P L new.post.context
  goal : new.post.context.isAssigned x = true
  goals : ∀ y ∈ new.goals, P.Own y
  assigned : ∀ y ∈ new.assigned, P.Own y ∧ new.post.context.isAssigned y = true

theorem NewKept.carrySiblings {s s' : Solver} {x : Var} {new new' : NewApplication}
    {copies : List Tree.GoalCopy} (hn : NewKept P L x new) (h : Recorded P L t)
    (hlast : L.last = s.lastId) (he : Ends (t.carrySiblings new) s (new', copies) s') :
    ∃ L', L.Grows L' ∧ L'.last = s'.lastId ∧ NewKept P L' x new' := by
  unfold Tree.carrySiblings at he
  simp only [ends_ite, ends_pure, ends_bind, ends_restore, ends_adapt, ends_get] at he
  rcases he with ⟨-, he, rfl⟩ | ⟨-, -, u, rfl, found, v, hcopy, w, _, ⟨rfl, rfl⟩, he, rfl⟩
  · cases he
    exact ⟨L, .refl L, hlast, hn⟩
  · cases he
    have htr : Tracks P L { s with state := new.post } := ⟨hlast, hn.post⟩
    obtain ⟨L', hadv, hlast', hall⟩ := advance_copyGoals htr
      (fun g hg => h.own g (hasGoal_of_mem_dependents hg)) hcopy
    refine ⟨L', hadv.grows, hlast', hadv.conforms, hadv.isAssigned hn.goal, fun y hy => ?_,
      fun y hy => ?_⟩
    · rcases List.mem_append.1 hy with hy | hy
      · exact hn.goals y hy
      · obtain ⟨c, hc, rfl⟩ := List.mem_map.1 hy
        exact (hall c hc).2.1
    · rcases VarSet.mem_insertMany.1 hy with hy | hy
      · obtain ⟨c, hc, rfl⟩ := List.mem_map.1 hy
        exact ⟨(hall c hc).1, (hall c hc).2.2⟩
      · exact ⟨(hn.assigned y hy).1, hadv.isAssigned (hn.assigned y hy).2⟩

theorem Recorded.growth {new : NewApplication} {copies : List Tree.GoalCopy} {x : Var}
    {groups : List (List Subgoal)} (h : Recorded P L t) (hl : t.Linked) (hn : NewKept P L x new)
    (hx : (t.goal new.parent).normVar? = some x)
    (hgrow : Tree.Growth new copies groups t t')
    (hgroups : new.post.context.clusterGoals new.goals = .ok groups) : Recorded P L t' where
  root := hgrow.rootState ▸ h.root
  hasRoot := hgrow.hasGoal h.hasRoot
  rootVar := (hgrow.recorded h.hasRoot).1.trans h.rootVar
  goal g := by
    rcases hgrow.goal_cases g with ⟨-, he⟩ | he | ⟨-, c, s, -, he⟩ <;> rw [he]
    · exact (h.goal g).congr rfl rfl
    · exact h.goal g
    · exact goalKept_fresh rfl
  own g hg' := by
    by_cases hg : t.HasGoal g
    · rw [(hgrow.recorded hg).1]
      exact h.own g hg
    · obtain ⟨c, s, -, -, -, hs, he⟩ := hgrow.goal_new g hg hg'
      rw [he]
      exact hn.goals _ ((Context.clusterGoals_perm hgroups).1.mem_iff.1 (List.mem_map_of_mem hs))
  declared g hg' := by
    by_cases hg : t.HasGoal g
    · rw [hgrow.retains.preState_eq hl hg, (hgrow.recorded hg).1]
      exact h.declared g hg
    · obtain ⟨c, s, hs, he, -⟩ := hgrow.goal_fresh hg hg'
      rw [hgrow.preState_fresh hg hg', he]
      exact Context.isDeclared_of_dependencies ((Context.clusterGoals_perm hgroups).2 s hs)
  fresh g hg := by
    rcases hgrow.goal_cases g with ⟨rfl, he⟩ | he | ⟨-, c, s, -, he⟩
    · rw [he] at hg
      rw [Goal.normVar?, show (t.goal new.parent).norm = .notNormal from hg] at hx
      cases hx
    · rw [he] at hg ⊢
      exact h.fresh g hg
    · rw [he]
      rfl
  post r := by
    by_cases hr : t'.HasApplication r
    · rcases hgrow.hasApplication.1 hr with hr | rfl
      · rw [hgrow.application_old r hr]
        exact h.post r
      · rw [hgrow.application_new]
        exact hn.post
    · rw [Tree.application_of_not_has hr]
      exact conforms_empty h.root.base_le
  applied g y hy r hr := by
    have hold {k : GoalId} (hk : (t.goal k).normVar? = some y) (hr : r ∈ (t.goal k).applications) :
        (t'.application r).post.context.isAssigned y = true := by
      have ha := h.applied k y hk r hr
      by_cases hhas : t.HasApplication r
      · rwa [hgrow.application_old r hhas]
      · rw [Tree.application_of_not_has hhas] at ha
        cases ha
    rcases hgrow.goal_cases g with ⟨rfl, he⟩ | he | ⟨-, c, s, -, he⟩ <;> rw [he] at hy hr
    · rcases List.mem_append.1 hr with hr | hr
      · exact hold hy hr
      · obtain rfl := List.mem_singleton.1 hr
        rw [hgrow.application_new]
        obtain rfl : x = y := Option.some.inj (hx.symm.trans hy)
        exact hn.goal
    · exact hold hy hr
    · cases hy
  assigned r := by
    by_cases hr : t'.HasApplication r
    · rcases hgrow.hasApplication.1 hr with hr | rfl
      · rw [hgrow.application_old r hr]
        exact h.assigned r
      · rw [hgrow.application_new]
        exact hn.assigned
    · rw [Tree.application_of_not_has hr]
      exact fun x hx => (VarSet.not_mem_empty x hx).elim

theorem Tree.Growth.norm_same {new : NewApplication} {copies : List Tree.GoalCopy}
    {groups : List (List Subgoal)} (h : Tree.Growth new copies groups t t') (g : GoalId) :
    (t'.goal g).norm = (t.goal g).norm := by
  rcases h.goal_cases g with ⟨-, he⟩ | he | ⟨hg, c, s, -, he⟩ <;> rw [he]
  rw [goal_of_not_has hg]
  rfl

theorem Recorded.addApplication {s s' : Solver} {x : Var} {new : NewApplication}
    {added : AddedApplication} (h : Recorded P L t) (hl : t.Linked) (hn : NewKept P L x new)
    (hx : (t.goal new.parent).normVar? = some x) (hlast : L.last = s.lastId)
    (hg : t.HasGoal new.parent) (he : Ends (t.addApplication new) s (added, t') s') :
    ∃ L', L.Grows L' ∧ L'.last = s'.lastId ∧ Recorded P L' t' := by
  obtain ⟨new', copies, groups, u, hcarry, hgroups, hparent, hgrow, -, -, ht⟩ :=
    Tree.addApplication_growth he hg
  obtain ⟨L', hL, hlast', hn'⟩ := hn.carrySiblings h hlast hcarry
  have hu := (h.grow hL).growth hl hn' (hparent ▸ hx) hgrow hgroups
  exact ⟨L', hL, hlast', hu.noted (Tree.noted_of_added ht)⟩

end ProofSearch
