import ProofSearch.Proofs.AndOr.Independent
import ProofSearch.Proofs.AndOr.Relevance
import ProofSearch.Proofs.AndOr.Retaining
import ProofSearch.Proofs.Derivation.Reductions

/-!
# Explored trees

In a search with determined rules the tree records for every goal which ways of proving its type
were found, and which rules are still to be tried.

1. `Way`: an application reduces the type of its goal to the types of its subgoals, in a way that
   some rule offers.
2. `Explored`: all applications are ways, and every way that a rule offers is an application or the
   rule is still queued.
3. `Explored.settle`, `Explored.modifyGoal`, `Explored.addNodes`: changes that keep a tree explored.
-/

namespace ProofSearch

namespace Tree

variable {t t' : Tree}

/-! ## Types -/

/-- The type of a goal in the state in which the goal was made. -/
def HasType (t : Tree) (g : GoalId) (A : Term) : Prop :=
  (t.preState g).context.goalType (t.goal g).var = .ok A

/-- The clusters of an application have one goal each, and these are related to the members of a
list. -/
def Children {β : Type} (t : Tree) (r : ApplicationId) (R : GoalId → β → Prop) (bs : List β) :
    Prop :=
  List.Forall₂ (fun c b => ∃ k, (t.cluster c).goals = [k] ∧ R k b) (t.application r).clusters bs

/-- Some application reduces the goal to goals of the given types. -/
def Realizes (t : Tree) (g : GoalId) (premises : List Term) : Prop :=
  ∃ r ∈ (t.goal g).applications, t.Children r t.HasType premises

/-- Goals are made in the state that their application leaves. -/
theorem Linked.preState_eq (hl : t.Linked) {r : ApplicationId} (hr : t.HasApplication r)
    {c : ClusterId} (hc : c ∈ (t.application r).clusters) {k : GoalId}
    (hk : k ∈ (t.cluster c).goals) : t.preState k = (t.application r).post := by
  obtain ⟨hhas, hparent⟩ := hl.clusterChild r hr c hc
  rw [preState, parentApplication?, (hl.member c hhas k hk).2, hparent]

theorem Linked.preState_root (hl : t.Linked) : t.preState Tree.root = t.rootState := by
  obtain ⟨hc, hparent, hgoals⟩ := hl.rootCluster
  have hroot := (hl.member _ hc Tree.root (by rw [hgoals]; exact List.mem_singleton_self _)).2
  rw [preState, parentApplication?, hroot, hparent]

namespace Retains

theorem hasType_iff (h : t.Retains t') (hl : t.Linked) {g : GoalId} (hg : t.HasGoal g) {A : Term} :
    t'.HasType g A ↔ t.HasType g A := by
  rw [HasType, h.preState_eq hl hg, h.var g hg, HasType]

theorem children {β : Type} {R R' : GoalId → β → Prop} (h : t.Retains t') (hl : t.Linked)
    {r : ApplicationId} (hr : t.HasApplication r) (hR : ∀ k b, t.HasGoal k → R k b → R' k b)
    {bs : List β} (hs : t.Children r R bs) : t'.Children r R' bs := by
  unfold Children
  rw [h.clusters r hr]
  refine ((List.forall₂_and_left _ _).2 ⟨fun c hc => hc, hs⟩).imp fun c b ⟨hc, k, hk, hb⟩ => ?_
  obtain ⟨hhas, -⟩ := hl.clusterChild r hr c hc
  have hkg := (hl.member c hhas k (by rw [hk]; exact List.mem_singleton_self k)).1
  exact ⟨k, (h.members c hhas).trans hk, hR k b hkg hb⟩

theorem realizes (h : t.Retains t') (hl : t.Linked) {g : GoalId} (hg : t.HasGoal g)
    {premises : List Term} (hr : t.Realizes g premises) : t'.Realizes g premises := by
  obtain ⟨r, hr, hc⟩ := hr
  exact ⟨r, h.applications g hg r hr, h.children hl (hl.applicationChild g hg r hr).1
    (fun k B hk => (h.hasType_iff hl hk).2) hc⟩

end Retains

end Tree

/-! ## Explored trees -/

section

variable (P : Problem) (σ : Valuation) (rules : List RuleSpec)

/-- A proof variable of the search that has no value yet. -/
structure OpenGoal (m : Context) (x : Var) : Prop where
  own : P.Own x
  proof : σ.value? x = none
  declared : m.isDeclared x = true
  unbound : m.binding? x = none

/-- The application reduces its goal in a way that some rule offers. -/
structure Way (t : Tree) (r : ApplicationId) : Prop where
  kind : (t.application r).rule.kind = .tentative
  step : ∃ spec ∈ rules, ∃ A premises vars, t.HasType (t.application r).parent A ∧
    spec.body.Offers P.hyps A premises ∧
    Reduces P σ (t.preState (t.application r).parent).context
      (t.goal (t.application r).parent).var premises (t.application r).post.context vars ∧
    t.Children r (fun k y => (t.goal k).var = y) vars

/-- All ways that the rule offers are applications of the goal, unless the rule is queued. -/
def Tried (t : Tree) (g : GoalId) (queue : List QueuedRule) (q : Rule) : Prop :=
  (∃ e ∈ queue, e.rule = q) ∨ ∀ A premises, t.HasType g A →
    RuleSpec.Offers rules P.hyps A q premises → t.Realizes g premises

/-- A goal made in the state `pre` that has not been given up, shares no variables, and is left in
place by normalization. -/
structure Undisturbed (pre : Snapshot) (a : Goal) : Prop where
  vars : a.vars = ∅
  forced : a.forced = false
  norm : a.norm = .notNormal ∨ a.norm = .normal a.var pre
  queue : ∀ e ∈ a.queue, e.kind = .tentative ∧ ∃ r ∈ rules, r.rule = e.rule

/-- No rule is exempt. -/
def nothing : GoalId → Rule → Prop := fun _ _ => False

/-- One rule is exempt for one goal. -/
def only (g : GoalId) (q : Rule) : GoalId → Rule → Prop := fun k p => k = g ∧ p = q

/-- All applications are ways, and the rules are queued or tried on every goal they were selected
for, with the given exceptions. -/
structure Explored (exempt : GoalId → Rule → Prop) (t : Tree) : Prop where
  linked : t.Linked
  start : Tidy P σ t.rootState.context
  clear : ∀ x, P.Own x → t.rootState.context.binding? x = none
  root : OpenGoal P σ t.rootState.context (t.goal Tree.root).var
  type : t.HasType Tree.root P.type
  way : ∀ r, t.HasApplication r → Way P σ rules t r
  goal : ∀ g, t.HasGoal g → Undisturbed rules (t.preState g) (t.goal g)
  tried : ∀ g, t.HasGoal g → (t.goal g).selected = true → ∀ q, (∃ r ∈ rules, r.rule = q) →
    exempt g q ∨ Tried P rules t g (t.goal g).queue q

end

variable {P : Problem} {σ σ' : Valuation} {rules : List RuleSpec} {t t' : Tree}

theorem Context.exists_decl?_of_goalType {m : Context} {x : Var} {A : Term}
    (h : m.goalType x = .ok A) : ∃ d, m.decl? x = some d ∧ A = m.instantiate d.type := by
  unfold goalType at h
  split at h
  · cases h
  · next d hd =>
    cases h
    exact ⟨d, hd, rfl⟩

theorem Reduces.grow {m n : Context} {x : Var} {premises : List Term} {goals : List Var}
    (h : Reduces P σ m x premises n goals) (hσ : σ.Grows σ') :
    Reduces P σ' m x premises n goals := by
  obtain ⟨v, hv, hin⟩ := h.value
  refine ⟨h.tidy.grow hσ, h.extension, fun y ho hy hyx => ?_, ⟨v, hv, fun y hy => ?_⟩, h.nodup,
    h.goals.imp fun y B ⟨ho, hy, hopen, htype⟩ => ?_⟩
  · by_cases hle : y.index ≤ σ.last
    · exact h.others y ho ((hσ.value y hle).symm.trans hy) hyx
    · have hn : n.binding? y = none := h.tidy.binding?_of_lt (by omega)
      rw [hn]
      cases hm : m.binding? y with
      | none => rfl
      | some b => exact hn.symm.trans (h.extension y b hm)
  · refine (hin y hy).imp_left fun hsome => ?_
    obtain ⟨u, hu⟩ := Option.isSome_iff_exists.1 hsome
    rwa [hσ.value y (σ.le_last y u hu)]
  · obtain ⟨d, hd, -⟩ := Context.exists_decl?_of_goalType htype
    have hle := h.tidy.le_last ho (Context.isDeclared_of_decl? hd)
    exact ⟨ho, (hσ.value y hle).trans hy, hopen, htype⟩

theorem OpenGoal.grow {m : Context} {x : Var} (h : OpenGoal P σ m x) (hm : Tidy P σ m)
    (hσ : σ.Grows σ') : OpenGoal P σ' m x :=
  { h with proof := (hσ.value x (hm.le_last h.own h.declared)).trans h.proof }

namespace Way

variable {r : ApplicationId}

theorem grow (h : Way P σ rules t r) (hσ : σ.Grows σ') : Way P σ' rules t r := by
  obtain ⟨spec, hspec, A, premises, vars, hA, ho, hreduces, hchildren⟩ := h.step
  exact ⟨h.kind, spec, hspec, A, premises, vars, hA, ho, hreduces.grow hσ, hchildren⟩

theorem keep (h : Way P σ rules t r) (hk : t.Retains t') (hl : t.Linked)
    (hr : t.HasApplication r) : Way P σ rules t' r := by
  obtain ⟨spec, hspec, A, premises, vars, hA, ho, hreduces, hchildren⟩ := h.step
  have hp := (hl.applicationParent r hr).1
  refine ⟨by rw [hk.rule r hr, h.kind], spec, hspec, A, premises, vars, ?_, ho, ?_,
    hk.children hl hr (fun k y hkg hy => (hk.var k hkg).trans hy) hchildren⟩
  · rwa [hk.parent r hr, hk.hasType_iff hl hp]
  · rwa [hk.parent r hr, hk.preState_eq hl hp, hk.var _ hp, hk.post r hr]

/-- The subgoals of an application are open and have the types of the premises. -/
theorem subgoal {k : GoalId} (h : Way P σ rules t r) (hl : t.Linked)
    (hk : t.parentApplication? k = some r) (hg : t.HasGoal k) :
    OpenGoal P σ (t.application r).post.context (t.goal k).var := by
  obtain ⟨_, -, _, _, vars, -, -, hreduces, hchildren⟩ := h.step
  obtain ⟨hc, hmem⟩ := hl.home k hg
  obtain ⟨y, hy, j, hj, rfl⟩ := exists_right_of_mem hchildren (hl.clusterParent _ r hc hk).2
  obtain rfl : k = j := by
    rw [hj] at hmem
    exact List.mem_singleton.1 hmem
  obtain ⟨B, -, hown, hproof, hopen, htype⟩ := exists_right_of_mem hreduces.goals hy
  obtain ⟨d, hd, -⟩ := Context.exists_decl?_of_goalType htype
  exact ⟨hown, hproof, Context.isDeclared_of_decl? hd, by simpa [Context.isAssigned] using hopen⟩

end Way

/-- An application that reduces its goal to premises has subgoals of these types. -/
theorem Reduces.children {m : Context} {x : Var} {premises : List Term} {vars : List Var}
    {r : ApplicationId} (h : Reduces P σ m x premises (t.application r).post.context vars)
    (hl : t.Linked) (hr : t.HasApplication r)
    (hc : t.Children r (fun k y => (t.goal k).var = y) vars) : t.Children r t.HasType premises := by
  refine forall₂_comp ((List.forall₂_and_left _ _).2 ⟨fun c hc => hc, hc⟩) h.goals ?_
  rintro c y B ⟨hc, k, hk, rfl⟩ ⟨-, -, -, htype⟩
  refine ⟨k, hk, ?_⟩
  rwa [Tree.HasType, hl.preState_eq hr hc (by rw [hk]; exact List.mem_singleton_self k)]

theorem Tried.keep {g : GoalId} {queue : List QueuedRule} {q : Rule}
    (h : Tried P rules t g queue q) (hk : t.Retains t') (hl : t.Linked) (hg : t.HasGoal g) :
    Tried P rules t' g queue q := by
  exact h.imp_right fun h A premises hA ho =>
    hk.realizes hl hg (h A premises ((hk.hasType_iff hl hg).1 hA) ho)

/-! ## Single subgoals -/

theorem ne_nil_of_mem_free (goals : List Var) :
    ∀ members ∈ goals.map fun x => [Subgoal.free x], members ≠ [] := by
  intro members hm
  obtain ⟨x, -, rfl⟩ := List.mem_map.1 hm
  exact List.cons_ne_nil _ _

theorem exists_free_of_mem {goals : List Var} {s : Subgoal}
    (hs : s ∈ (goals.map fun x => [Subgoal.free x]).flatten) : ∃ x, s = .free x := by
  obtain ⟨members, hm, hs⟩ := List.mem_flatten.1 hs
  obtain ⟨x, -, rfl⟩ := List.mem_map.1 hm
  exact ⟨x, List.mem_singleton.1 hs⟩

/-- Each subgoal is alone in its cluster. -/
theorem Tree.children_addNodes (t : Tree) (new : NewApplication) (hg : t.HasGoal new.parent) :
    (t.addNodes new [] (new.goals.map fun x => [Subgoal.free x])).Children ⟨t.applications.size⟩
      (fun k y => ((t.addNodes new [] (new.goals.map fun x => [Subgoal.free x])).goal k).var = y)
      new.goals := by
  have hne := ne_nil_of_mem_free new.goals
  unfold Tree.Children
  rw [(growth_addNodes t hg [] hne).application_new]
  refine List.forall₂_map_left_iff.2 (List.forall₂_iff_get.2 ⟨by simp, fun i hi hi' => ?_⟩)
  have hmember : (new.goals.map fun x => [Subgoal.free x])[i]? =
      some [Subgoal.free (new.goals.get ⟨i, hi'⟩)] := by
    simp only [List.length_map, List.length_range] at hi
    simp [hi]
  have hgoals := members_addNodes t hg [] hne hmember
  obtain ⟨k, rest, hk, hrest, hcluster⟩ := List.forall₂_cons_right_iff.1 hgoals
  obtain rfl := List.forall₂_nil_right_iff.1 hrest
  exact ⟨k, by simpa using hcluster, congrArg Goal.var hk⟩

/-! ## Changes of explored trees -/

namespace Explored

variable {exempt exempt' : GoalId → Rule → Prop}

theorem grow (h : Explored P σ rules exempt t) (hσ : σ.Grows σ') :
    Explored P σ' rules exempt t :=
  { h with
    start := h.start.grow hσ
    root := h.root.grow h.start hσ
    way := fun r hr => (h.way r hr).grow hσ }

/-- Goals are made in tidy states, in which they are open. -/
theorem state (h : Explored P σ rules exempt t) {g : GoalId} (hg : t.HasGoal g) :
    Tidy P σ (t.preState g).context ∧ OpenGoal P σ (t.preState g).context (t.goal g).var := by
  obtain ⟨hc, hmem⟩ := h.linked.home g hg
  cases hp : t.parentApplication? g with
  | none =>
    obtain rfl : g = Tree.root := by
      rw [h.linked.parentless _ hc hp, h.linked.rootCluster.2.2] at hmem
      exact List.mem_singleton.1 hmem
    rw [Tree.preState, hp]
    exact ⟨h.start, h.root⟩
  | some r =>
    have hway := h.way r (h.linked.clusterParent _ r hc hp).1
    obtain ⟨_, -, _, _, _, -, -, hreduces, -⟩ := hway.step
    rw [Tree.preState, hp]
    exact ⟨hreduces.tidy, hway.subgoal h.linked hp hg⟩

theorem vars (h : Explored P σ rules exempt t) (g : GoalId) : (t.goal g).vars = ∅ := by
  by_cases hg : t.HasGoal g
  · exact (h.goal g hg).vars
  · rw [Tree.goal_of_not_has hg]
    rfl

/-- A rule that was tried is no exception. -/
theorem discharge (h : Explored P σ rules exempt t)
    (hx : ∀ k q, t.HasGoal k → exempt k q → Tried P rules t k (t.goal k).queue q) :
    Explored P σ rules nothing t :=
  { h with
    tried := fun g hg hsel q hq => .inr ((h.tried g hg hsel q hq).elim (hx g q hg) id) }

/-- A tree that retains all nodes is explored if the new applications are ways and the rules of all
goals are accounted for. -/
theorem retain (h : Explored P σ rules exempt t) (hk : t.Retains t') (hl : t'.Linked)
    (hway : ∀ r, t'.HasApplication r → t.HasApplication r ∨ Way P σ rules t' r)
    (hgoal : ∀ g, t'.HasGoal g → Undisturbed rules (t'.preState g) (t'.goal g))
    (htried : ∀ g, t'.HasGoal g → (t'.goal g).selected = true → ∀ q, (∃ r ∈ rules, r.rule = q) →
      exempt' g q ∨ Tried P rules t' g (t'.goal g).queue q) :
    Explored P σ rules exempt' t' where
  linked := hl
  start := hk.rootState ▸ h.start
  clear := hk.rootState ▸ h.clear
  root := by
    rw [hk.rootState, hk.var _ h.linked.root]
    exact h.root
  type := (hk.hasType_iff h.linked h.linked.root).2 h.type
  way r hr := (hway r hr).elim (fun hr => (h.way r hr).keep hk h.linked hr) id
  goal := hgoal
  tried := htried

theorem settle (h : Explored P σ rules exempt t) (hs : t.Settling t') :
    Explored P σ rules exempt t' := by
  have hk := hs.retains
  refine h.retain hk (hs.linked h.linked) (fun r hr => .inl (hs.hasApplication.1 hr))
    (fun g hg => ?_) fun g hg hsel q hq => ?_
  · have hg := hs.hasGoal.1 hg
    obtain ⟨hvars, hforced, hnorm, hqueue⟩ := h.goal g hg
    rw [hk.preState_eq h.linked hg, (hs.goal g).eq]
    exact ⟨hvars, hforced, hnorm, hqueue⟩
  · have hg := hs.hasGoal.1 hg
    rw [(hs.goal g).eq] at hsel ⊢
    exact (h.tried g hg hsel q hq).imp_right fun ht => ht.keep hk h.linked hg

/-- The data of a goal may change as long as its rules are accounted for. -/
theorem modifyGoal (h : Explored P σ rules exempt t) {g : GoalId} {f : Goal → Goal}
    (hf : ∀ a, (f a).var = a.var ∧ (f a).cluster = a.cluster ∧ (f a).applications = a.applications)
    (hgoal : Undisturbed rules (t.preState g) (f (t.goal g)))
    (htried : (f (t.goal g)).selected = true → ∀ q, (∃ r ∈ rules, r.rule = q) →
      exempt' g q ∨ Tried P rules t g (f (t.goal g)).queue q)
    (hother : ∀ k q, k ≠ g → exempt k q → exempt' k q) :
    Explored P σ rules exempt' (t.modifyGoal g f) := by
  have hlinks := Tree.sameLinks_modifyGoal t g (fun a => (hf a).2.1) fun a => (hf a).2.2
  have hk := Tree.retains_modifyGoal t g (hf _).1 (hf _).2.1 (hf _).2.2
  refine h.retain hk (hlinks.linked h.linked) (fun _ => .inl) (fun k hkg => ?_)
    fun k hkg hsel q hq => ?_
  · have hkg := hlinks.hasGoal.1 hkg
    rw [hk.preState_eq h.linked hkg, Tree.goal_modifyGoal]
    split
    · next he => exact he.1 ▸ hgoal
    · exact h.goal k hkg
  · have hold := hlinks.hasGoal.1 hkg
    by_cases he : k = g
    · subst he
      rw [Tree.goal_modifyGoal, if_pos ⟨rfl, hold⟩] at hsel ⊢
      exact (htried hsel q hq).imp_right fun ht => ht.keep hk h.linked hold
    · rw [Tree.goal_modifyGoal, if_neg fun hc => he hc.1] at hsel ⊢
      exact (h.tried k hold hsel q hq).imp (hother k q he) fun ht => ht.keep hk h.linked hold

/-- A reduction of a goal is added as an application with the subgoals that it leaves. -/
theorem addNodes (h : Explored P σ rules exempt t) (new : NewApplication)
    (hg : t.HasGoal new.parent) (hkind : new.rule.kind = .tentative) {spec : RuleSpec}
    (hspec : spec ∈ rules) {A : Term} {premises : List Term} (hA : t.HasType new.parent A)
    (ho : spec.body.Offers P.hyps A premises)
    (hreduces : Reduces P σ (t.preState new.parent).context (t.goal new.parent).var premises
      new.post.context new.goals) {u : Tree}
    (hu : t.addNodes new [] (new.goals.map fun x => [Subgoal.free x]) = u) :
    Explored P σ rules exempt u ∧ t.Retains u ∧ u.Realizes new.parent premises := by
  have hgrow := hu ▸ Tree.growth_addNodes t hg [] (ne_nil_of_mem_free new.goals)
  have hk := hgrow.retains
  have hl := hgrow.linked h.linked hg
  have hnode := hgrow.application_new
  have hhas : u.HasApplication ⟨t.applications.size⟩ := hgrow.hasApplication.2 (.inr rfl)
  have hchildren := hu ▸ Tree.children_addNodes t new hg
  have hpost : (u.application ⟨t.applications.size⟩).post = new.post := by rw [hnode]; rfl
  have hparent : (u.application ⟨t.applications.size⟩).parent = new.parent := by rw [hnode]; rfl
  refine ⟨h.retain hk hl (fun r hr => (hgrow.hasApplication.1 hr).imp_right ?_) (fun g hg' => ?_)
    fun g hg' hsel q hq => ?_, hk, ⟨t.applications.size⟩,
    (hgrow.mem_applications hg).2 (.inr ⟨rfl, rfl⟩), ?_⟩
  · rintro rfl
    refine ⟨by rw [hnode]; exact hkind, spec, hspec, A, premises, new.goals, ?_, ho, ?_, hchildren⟩
    · rwa [hparent, hk.hasType_iff h.linked hg]
    · rwa [hparent, hpost, hk.preState_eq h.linked hg, hk.var _ hg]
  · by_cases hold : t.HasGoal g
    · obtain ⟨hvars, hforced, hnorm, hqueue⟩ := h.goal g hold
      obtain ⟨rs, he⟩ := hgrow.exists_goal_eq hold
      rw [hk.preState_eq h.linked hold, he]
      exact ⟨hvars, hforced, hnorm, hqueue⟩
    · obtain ⟨c, s, -, -, -, hs, he⟩ := hgrow.goal_new g hold hg'
      obtain ⟨x, rfl⟩ := exists_free_of_mem hs
      rw [he]
      exact ⟨rfl, rfl, .inl rfl, nofun⟩
  · by_cases hold : t.HasGoal g
    · obtain ⟨rs, he⟩ := hgrow.exists_goal_eq hold
      rw [he] at hsel ⊢
      exact (h.tried g hold hsel q hq).imp_right fun ht => ht.keep hk h.linked hold
    · obtain ⟨c, s, -, -, -, hs, he⟩ := hgrow.goal_new g hold hg'
      rw [he] at hsel
      cases hsel
  · exact Reduces.children (hpost.symm ▸ hreduces) hl hhas hchildren

end Explored

end ProofSearch
