import ProofSearch.Proofs.AndOr.Independent
import ProofSearch.Proofs.Derivation.Charts
import ProofSearch.Proofs.Derivation.Recorded
import ProofSearch.Proofs.Search.CoarseSteps

/-!
# What a tree records of its variables

Every variable of a search is made once, as the root, by a rule, or as the copy of a sibling.  It is
assigned when it is made, or it becomes the variable of a goal, which is then normalized or gets
applications.

1. `Spans`: from one context to a later one, new variables are assigned or left as goals, and only
   certain old ones are assigned.
2. `Rewritten`: the state after the normalization of a goal.
3. `Applied`: the state after an application.
4. `VarHistory`: all states recorded in a tree are of this kind, and every variable is made once.
5. `varHistory_ofGoal`, `VarHistory.noted`, `VarHistory.recordNorm`, `VarHistory.growth`: how the
   steps of a search keep this.
-/

namespace ProofSearch

variable {P : Problem} {L : Ledger} {m n k : Context} {x y v : Var}

/-! ## Dependencies -/

theorem Context.openVars_unbound {t : Term} (h : m.PlainTerm t) :
    y ∈ m.openVars t ↔ (m.instantiate t).occurs y = true := by
  have hfold (xs : List Var) (f : VarSet → Var → VarSet)
      (hf : ∀ x ∈ xs, ∀ found, f found x = found.insert x) (found : VarSet) :
      y ∈ xs.foldl f found ↔ y ∈ xs ∨ y ∈ found := by
    induction xs generalizing found with
    | nil => simp
    | cons x xs ih =>
      rw [List.foldl_cons, ih fun z hz => hf z (List.mem_cons_of_mem x hz),
        hf x List.mem_cons_self, VarSet.mem_insert, List.mem_cons]
      tauto
  rw [← Term.mem_vars, Context.openVars]
  cases m.size with
  | zero => rfl
  | succ n =>
    rw [Context.openBelow, hfold, VarSet.mem_toList]
    · simp
    · intro x hx found
      rw [h.binding_of_occurs (Term.mem_vars.1 hx)]

/-- A goal depends on the variables that its type mentions. -/
theorem Conforms.mem_dependencies (hm : Conforms P L m) (ho : P.Own x) {d : VarDecl}
    (hd : m.decl? x = some d) {vars : VarSet} (h : m.dependencies x = .ok vars) :
    y ∈ vars ↔ (m.instantiate d.type).occurs y = true ∧ y ≠ x := by
  have hdecl := hm.decl x d ho hd
  have hfold (hyps : LocalContext) (hh : ∀ h ∈ hyps, h.type.hasVar = false) (found : VarSet) :
      hyps.foldl (fun (found : VarSet) h => found.union (m.openVars h.type)) found = found := by
    induction hyps generalizing found with
    | nil => rfl
    | cons h hyps ih =>
      have hopen : m.openVars h.type = ∅ := Context.openVars_closed (by
        rw [Context.instantiate_closed (hh h List.mem_cons_self)]
        exact hh h List.mem_cons_self)
      rw [List.foldl_cons, hopen]
      exact ih (fun k hk => hh k (List.mem_cons_of_mem h hk)) found
  simp only [Context.dependencies, hd, Except.ok.injEq] at h
  rw [← h, hfold d.hyps (hdecl.hyps ▸ P.hyps_closed), VarSet.mem_erase,
    Context.openVars_unbound (hm.plainTerm hdecl.type)]

/-! ## From context to context -/

/-- From `m` to `n` declarations and bindings are kept.  New variables belong to the search and are
assigned or in `leaves`; of the old variables of the search only those in `closes` are assigned. -/
structure Spans (P : Problem) (m n : Context) (leaves closes : Var → Prop) : Prop where
  decl : ∀ y d, m.decl? y = some d → n.decl? y = some d
  extension : m.Extends n
  new : ∀ y, n.isDeclared y = true → m.isDeclared y = false →
    P.Own y ∧ (n.isAssigned y = true ∨ leaves y)
  old : ∀ y, P.Own y → m.isDeclared y = true → m.isAssigned y = false → n.isAssigned y = true →
    closes y

namespace Spans

variable {leaves leaves' closes closes' : Var → Prop}

theorem refl (m : Context) (leaves closes : Var → Prop) : Spans P m m leaves closes where
  decl _ _ := id
  extension := .refl m
  new _ h h' := nomatch h.symm.trans h'
  old _ _ _ h h' := nomatch h.symm.trans h'

theorem mono (h : Spans P m n leaves closes) (hl : ∀ y, leaves y → leaves' y)
    (hc : ∀ y, closes y → closes' y) : Spans P m n leaves' closes' :=
  { h with
    new := fun y hn hm => (h.new y hn hm).imp_right fun h => h.imp_right (hl y)
    old := fun y ho hm hopen ha => hc y (h.old y ho hm hopen ha) }

theorem declared (h : Spans P m n leaves closes) (hy : m.isDeclared y = true) :
    n.isDeclared y = true := by
  obtain ⟨d, hd⟩ := Context.exists_decl? hy
  exact Context.isDeclared_of_decl? (h.decl y d hd)

theorem isAssigned (h : Spans P m n leaves closes) (hy : m.isAssigned y = true) :
    n.isAssigned y = true := by
  obtain ⟨b, hb⟩ := Option.isSome_iff_exists.1 hy
  exact Option.isSome_iff_exists.2 ⟨b, h.extension y b hb⟩

end Spans

/-- In `n` the value of `a`, which was open in `m`, mentions `b`. -/
def Hop (m n : Context) (a b : Var) : Prop := m.isAssigned a = false ∧
  ∃ u, n.binding? a = some (.value u) ∧ u.occurs b = true

/-- In `n` the variable `b` is reached from `a` through values of variables that were open in
`m`. -/
abbrev Trail (m n : Context) : Var → Var → Prop := Relation.ReflTransGen (Hop m n)

theorem Trail.extend {a b : Var} (h : Trail m n a b) (he : n.Extends k) : Trail m k a b :=
  Relation.ReflTransGen.mono (fun _ _ ⟨hm, u, hu, hb⟩ => ⟨hm, u, he _ _ hu, hb⟩) _ _ h

/-- The goal `v`, which depends on `vars` in the state `m`, is reduced in `n` to the goal that is
left. -/
structure Rewritten (P : Problem) (m n : Context) (v : Var) (vars : VarSet) (rest : Option Var) :
    Prop where
  spans : Spans P m n (rest = some ·) (· = v)
  goal : ∀ x, rest = some x → n.isDeclared x = true ∧ n.isAssigned x = false ∧
    (x = v ∨ m.isDeclared x = false)
  trail : ∀ x, rest = some x → Trail m n v x
  fence : ∀ x d, rest = some x → n.decl? x = some d → ∀ z, m.isDeclared z = true →
    (n.instantiate d.type).occurs z = true → z ∈ vars ∨ z = v

namespace Tree

/-! ## Stages of a tree -/

/-- The stage at which a goal was made. -/
def home (t : Tree) (g : GoalId) : Stage :=
  match t.parentApplication? g with
  | some r => .applied r
  | none => .start

/-- The recorded states of a tree. -/
def chart (t : Tree) : Chart where
  at?
    | .start => some t.rootState.context
    | .normal g => (t.goal g).normPost?.map (·.context)
    | .applied r =>
      if r.index < t.applications.size then some (t.application r).post.context else none
  before?
    | .start => none
    | .normal g => some (t.home g)
    | .applied r => some (.normal (t.application r).parent)

variable {t t' : Tree}

theorem chart_normal {g : GoalId} {post : Snapshot} (h : (t.goal g).normPost? = some post) :
    t.chart.at? (.normal g) = some post.context := by
  show (t.goal g).normPost?.map (·.context) = _
  rw [h]
  rfl

theorem chart_applied {r : ApplicationId} (h : t.HasApplication r) :
    t.chart.at? (.applied r) = some (t.application r).post.context := if_pos h

theorem Linked.chart_home (hl : t.Linked) {g : GoalId} (hg : t.HasGoal g) :
    t.chart.at? (t.home g) = some (t.preState g).context := by
  unfold Tree.home preState
  cases hr : t.parentApplication? g with
  | none => rfl
  | some r => exact chart_applied (hl.clusterParent _ r (hl.home g hg).1 hr).1

theorem Noted.chart (h : t.Noted t') : t'.chart = t.chart := by
  have hat : t'.chart.at? = t.chart.at? := by
    funext τ
    cases τ with
    | start => exact congrArg (fun s : Snapshot => some s.context) h.rootState
    | normal g => exact congrArg (Option.map (·.context)) (h.normPost? g)
    | applied r =>
      show (if r.index < t'.applications.size then some (t'.application r).post.context
        else none) = _
      rw [h.applications_size, h.post]
      rfl
  have hbefore : t'.chart.before? = t.chart.before? := by
    funext τ
    cases τ with
    | start => rfl
    | normal g =>
      show some (t'.home g) = some (t.home g)
      rw [Tree.home, h.parentApplication?_eq g, Tree.home]
    | applied r => exact congrArg (fun g => some (Stage.normal g)) (h.parent r)
  exact congrArg₂ Chart.mk hat hbefore

/-- The goals that an application made. -/
def MadeBy (t : Tree) (r : ApplicationId) (k : GoalId) : Prop :=
  t.HasGoal k ∧ t.parentApplication? k = some r

/-- The application may assign the variable of a goal that it copied, and any variable if it is not
a safe one. -/
def Carries (t : Tree) (r : ApplicationId) (y : Var) : Prop :=
  (t.application r).rule.kind.isSafe = false ∨
    ∃ k j, t.MadeBy r k ∧ (t.goal k).origin = .copied j ∧ t.HasGoal j ∧ (t.goal j).var = y

end Tree

/-- The application `r` was made for the goal `x` in the context `m`.  Its goals are new and open.
A copy becomes the value of its original, and the value of `x` mentions the other goals. -/
structure Applied (P : Problem) (t : Tree) (r : ApplicationId) (x : Var) (m : Context) : Prop where
  spans : Spans P m (t.application r).post.context
    (fun y => ∃ k, t.MadeBy r k ∧ (t.goal k).var = y) fun y => y = x ∨ t.Carries r y
  goal : ∀ k, t.MadeBy r k → (t.application r).post.context.isDeclared (t.goal k).var = true ∧
    (t.application r).post.context.isAssigned (t.goal k).var = false ∧
    m.isDeclared (t.goal k).var = false
  copied : ∀ k j, t.MadeBy r k → (t.goal k).origin = .copied j → t.HasGoal j ∧
    (t.goal j).var ∈ (t.application r).assigned ∧
    (t.application r).post.context.binding? (t.goal j).var = some (.value (.var (t.goal k).var))
  link : ∀ k, t.MadeBy r k → (∀ j, (t.goal k).origin ≠ .copied j) →
    ∃ u, (t.application r).post.context.binding? x = some (.value u) ∧
      u.occurs (t.goal k).var = true
  introduced : ∀ y ∈ (t.application r).introduced, m.isDeclared y = false

/-- An old application is as it was, if its goals and those they were copied from are. -/
theorem Applied.congr {t t' : Tree} {r : ApplicationId} (h : Applied P t r x m)
    (hr : (t'.application r).rule = (t.application r).rule ∧
      (t'.application r).post = (t.application r).post ∧
      (t'.application r).introduced = (t.application r).introduced ∧
      (t'.application r).assigned = (t.application r).assigned)
    (hmade : ∀ k, t'.MadeBy r k ↔ t.MadeBy r k)
    (hgoal : ∀ k, t.HasGoal k → t'.HasGoal k ∧ (t'.goal k).var = (t.goal k).var ∧
      (t'.goal k).origin = (t.goal k).origin) : Applied P t' r x m := by
  obtain ⟨hrule, hpost, hintroduced, hassigned⟩ := hr
  refine ⟨?_, fun k hk => ?_, fun k j hk horigin => ?_, fun k hk hnot => ?_,
    hintroduced ▸ h.introduced⟩
  · rw [hpost]
    refine h.spans.mono (fun y ⟨k, hk, hy⟩ => ⟨k, (hmade k).2 hk, (hgoal k hk.1).2.1.trans hy⟩)
      fun y hy => hy.imp_right fun hc => ?_
    rw [Tree.Carries, hrule]
    refine hc.imp_right fun ⟨k, j, hk, horigin, hj, hy⟩ => ?_
    exact ⟨k, j, (hmade k).2 hk, (hgoal k hk.1).2.2.trans horigin, (hgoal j hj).1,
      (hgoal j hj).2.1.trans hy⟩
  · have hk := (hmade k).1 hk
    rw [hpost, (hgoal k hk.1).2.1]
    exact h.goal k hk
  · have hk := (hmade k).1 hk
    obtain ⟨hj, hy⟩ := h.copied k j hk ((hgoal k hk.1).2.2.symm.trans horigin)
    rw [hassigned, hpost, (hgoal j hj).2.1, (hgoal k hk.1).2.1]
    exact ⟨(hgoal j hj).1, hy⟩
  · have hk := (hmade k).1 hk
    rw [hpost, (hgoal k hk.1).2.1]
    exact h.link k hk fun j horigin => hnot j ((hgoal k hk.1).2.2.trans horigin)

/-- The states recorded in a tree follow on each other, and every variable is made once. -/
structure VarHistory (P : Problem) (t : Tree) : Prop where
  chart : t.chart.Sound P
  root : ∀ y, P.Own y → t.rootState.context.isDeclared y = true →
    y = P.root ∧ t.rootState.context.isAssigned y = false
  origin : (t.goal Tree.root).origin = .root
  injective : ∀ g k, t.HasGoal g → t.HasGoal k → (t.goal g).var = (t.goal k).var → g = k
  deps : ∀ g, t.HasGoal g →
    (t.preState g).context.dependencies (t.goal g).var = .ok (t.goal g).vars
  normal : ∀ g post, (t.goal g).normPost? = some post → Rewritten P (t.preState g).context
    post.context (t.goal g).var (t.goal g).vars (t.goal g).normVar?
  applied : ∀ r, t.HasApplication r → ∃ x state,
    (t.goal (t.application r).parent).norm = .normal x state ∧ Applied P t r x state.context

namespace VarHistory

variable {t t' : Tree}

/-! ## Steps that record nothing -/

theorem noted (h : VarHistory P t) (hn : t.Noted t') : VarHistory P t' := by
  have hmade {r : ApplicationId} {k : GoalId} : t'.MadeBy r k ↔ t.MadeBy r k := by
    rw [Tree.MadeBy, hn.hasGoal, hn.parentApplication?_eq k, Tree.MadeBy]
  refine ⟨hn.chart ▸ h.chart, hn.rootState ▸ h.root, (hn.origin _).trans h.origin,
    fun g k hg hk hv => ?_, fun g hg => ?_, fun g post hp => ?_, fun r hr => ?_⟩
  · rw [hn.var, hn.var] at hv
    exact h.injective g k (hn.hasGoal.1 hg) (hn.hasGoal.1 hk) hv
  · rw [hn.preState, hn.var, hn.vars]
    exact h.deps g (hn.hasGoal.1 hg)
  · rw [hn.preState, hn.var, hn.vars, hn.normVar?]
    exact h.normal g post (hn.normPost? g ▸ hp)
  · obtain ⟨x, state, hx, ha⟩ := h.applied r (hn.hasApplication.1 hr)
    exact ⟨x, state, by rw [hn.parent, hn.norm, hx], ha.congr
      ⟨hn.rule r, hn.post r, hn.introduced r, hn.assigned r⟩ (fun _ => hmade)
      fun k hk => ⟨hn.hasGoal.2 hk, hn.var k, hn.origin k⟩⟩

/-! ## A normalized goal -/

/-- The chart gains the state after the normalization. -/
theorem chart_adds_recordNorm {g : GoalId} (hg : t.HasGoal g)
    (hnot : (t.goal g).norm = .notNormal) (branch : BranchState) (state : Snapshot)
    (rest : Option Var) : Chart.Adds t.chart (t.home g) (.normal g) state.context
      (t.recordNorm g branch (.ofRest state rest)).chart := by
  have habove := (Tree.sameLinks_recordNorm t g branch (.ofRest state rest)).parentApplication?_eq
  have hhome (k : GoalId) : (t.recordNorm g branch (.ofRest state rest)).home k = t.home k := by
    rw [Tree.home, habove, Tree.home]
  refine ⟨?_, Tree.chart_normal ?_, fun ρ hρ => ?_, congrArg some (hhome g), fun ρ k _ => ?_⟩
  · show (t.goal g).normPost?.map (·.context) = none
    rw [Goal.normPost?, hnot]
    rfl
  · rw [Goal.normPost?, Tree.goal_recordNorm_self hg]
    cases rest <;> rfl
  · cases ρ with
    | start | applied => rfl
    | normal k =>
      have hk : k ≠ g := fun he => hρ (he ▸ rfl)
      show ((t.recordNorm g branch (.ofRest state rest)).goal k).normPost?.map (·.context) = _
      rw [Tree.goal_recordNorm_of_ne hk]
      rfl
  · cases ρ with
    | start | applied => rfl
    | normal k => exact congrArg some (hhome k)

/-- The result of a normalization is recorded whose new variables occur nowhere else. -/
theorem recordNorm (h : VarHistory P t) (hl : t.Linked) {g : GoalId} (hg : t.HasGoal g)
    (hnot : (t.goal g).norm = .notNormal) {state : Snapshot} {rest : Option Var}
    (hrw : Rewritten P (t.preState g).context state.context (t.goal g).var (t.goal g).vars rest)
    (hfresh : ∀ y, state.context.isDeclared y = true →
      (t.preState g).context.isDeclared y = false →
      ∀ ρ k, t.chart.at? ρ = some k → k.isDeclared y = false) (branch : BranchState) :
    VarHistory P (t.recordNorm g branch (.ofRest state rest)) := by
  have hadds := chart_adds_recordNorm hg hnot branch state rest
  obtain ⟨t', ht'⟩ : ∃ t', t' = t.recordNorm g branch (.ofRest state rest) := ⟨_, rfl⟩
  rw [← ht'] at hadds ⊢
  have hlinks : t.SameLinks t' := ht' ▸ Tree.sameLinks_recordNorm ..
  have hpre (k : GoalId) : t'.preState k = t.preState k := ht' ▸ Tree.preState_recordNorm ..
  have happ (r : ApplicationId) : t'.application r = t.application r := ht' ▸ rfl
  have hself : t'.goal g = { t.goal g with branch, norm := .ofRest state rest } :=
    ht' ▸ Tree.goal_recordNorm_self hg ..
  have hothers {k : GoalId} (hk : k ≠ g) : t'.goal k = t.goal k :=
    ht' ▸ Tree.goal_recordNorm_of_ne hk ..
  have hsame (k : GoalId) : (t'.goal k).var = (t.goal k).var ∧ (t'.goal k).vars = (t.goal k).vars ∧
      (t'.goal k).origin = (t.goal k).origin := by
    obtain ⟨_, _, hk⟩ := t.exists_goal_recordNorm g k branch (.ofRest state rest)
    rw [ht', hk]
    exact ⟨rfl, rfl, rfl⟩
  have hmade {r : ApplicationId} {k : GoalId} : t'.MadeBy r k ↔ t.MadeBy r k := by
    rw [Tree.MadeBy, hlinks.hasGoal, hlinks.parentApplication?_eq, Tree.MadeBy]
  refine ⟨h.chart.add hadds (hl.chart_home hg) hrw.spans.decl hrw.spans.extension
    fun y _ => hfresh y, ht' ▸ h.root, (hsame _).2.2.trans h.origin, fun k j hk hj hv => ?_,
    fun k hk => ?_, fun k post hp => ?_, fun r hr => ?_⟩
  · rw [(hsame k).1, (hsame j).1] at hv
    exact h.injective k j (hlinks.hasGoal.1 hk) (hlinks.hasGoal.1 hj) hv
  · rw [hpre, (hsame k).1, (hsame k).2.1]
    exact h.deps k (hlinks.hasGoal.1 hk)
  · rw [hpre]
    by_cases hkg : k = g
    · subst hkg
      rw [hself] at hp ⊢
      cases rest <;> obtain rfl : state = post := Option.some.inj hp <;> exact hrw
    · rw [hothers hkg] at hp ⊢
      exact h.normal k post hp
  · obtain ⟨x, pre, hx, ha⟩ := h.applied r (hlinks.hasApplication.1 hr)
    have hne : (t.application r).parent ≠ g := by
      rintro rfl
      cases hnot.symm.trans hx
    exact ⟨x, pre, by rw [happ, hothers hne, hx],
      ha.congr (by rw [happ]; exact ⟨rfl, rfl, rfl, rfl⟩) (fun _ => hmade) fun k hk =>
        ⟨hlinks.hasGoal.2 hk, (hsame k).1, (hsame k).2.2⟩⟩

end VarHistory

/-! ## A new application -/

namespace Tree

variable {t t' : Tree}

/-- Each subgoal becomes a goal. -/
theorem Growth.exists_goal {new : NewApplication} {copies : List GoalCopy}
    {groups : List (List Subgoal)} (h : Growth new copies groups t t') {s : Subgoal}
    (hs : s ∈ groups.flatten) :
    ∃ g c, ¬ t.HasGoal g ∧ t'.HasGoal g ∧ t'.goal g = t.makeGoal new copies c s := by
  obtain ⟨i, hi⟩ := List.mem_iff_getElem?.1 hs
  obtain ⟨c, hc⟩ := h.goal_at i s hi
  refine ⟨⟨t.goals.size + i⟩, c, by simp [HasGoal], ?_, hc⟩
  have hlt := (List.getElem?_eq_some_iff.1 hi).1
  simp only [HasGoal, h.goals_size]
  omega

/-- Each goal of the application becomes a goal of the tree. -/
theorem Growth.exists_madeBy {new : NewApplication} {copies : List GoalCopy}
    {groups : List (List Subgoal)} (h : Growth new copies groups t t')
    (hgroups : new.post.context.clusterGoals new.goals = .ok groups) (hy : y ∈ new.goals) :
    ∃ k c s, t'.MadeBy ⟨t.applications.size⟩ k ∧ s.var = y ∧
      t'.goal k = t.makeGoal new copies c s := by
  obtain ⟨s, hs, rfl⟩ := List.mem_map.1 ((Context.clusterGoals_perm hgroups).1.mem_iff.2 hy)
  obtain ⟨k, c, hk, hk', he⟩ := h.exists_goal hs
  obtain ⟨-, -, -, -, habove⟩ := h.goal_fresh hk hk'
  exact ⟨k, c, s, ⟨hk', habove⟩, rfl, he⟩

/-- The chart gains the state of the new application. -/
theorem Growth.chart_adds {new : NewApplication} {copies : List GoalCopy}
    {groups : List (List Subgoal)} (h : Growth new copies groups t t') (hl : t.Linked) :
    Chart.Adds t.chart (.normal new.parent) (.applied ⟨t.applications.size⟩) new.post.context
      t'.chart := by
  obtain ⟨r, hr⟩ : ∃ r, r = (⟨t.applications.size⟩ : ApplicationId) := ⟨_, rfl⟩
  have hnode : t'.application r = _ := hr ▸ h.application_new
  rw [← hr]
  refine ⟨if_neg (by simp [hr]), ?_, fun ρ hρ => ?_, ?_, fun ρ k hk => ?_⟩
  · rw [chart_applied (h.hasApplication.2 (.inr hr)), hnode]
    rfl
  · cases ρ with
    | start => exact congrArg (fun s : Snapshot => some s.context) h.rootState
    | normal k =>
      show (t'.goal k).normPost?.map (·.context) = _
      rw [Goal.normPost?, h.norm_same]
      rfl
    | applied q =>
      have hne : q ≠ r := fun he => hρ (he ▸ rfl)
      by_cases hq : t.HasApplication q
      · rw [chart_applied hq, chart_applied (h.hasApplication.2 (.inl hq)),
          h.application_old q hq]
      · have hq' : ¬ t'.HasApplication q := fun hq' =>
          (h.hasApplication.1 hq').elim hq fun he => hne (he.trans hr.symm)
        exact (if_neg hq').trans (if_neg hq).symm
  · show some (Stage.normal (t'.application r).parent) = _
    rw [hnode]
    rfl
  · cases ρ with
    | start => rfl
    | normal k =>
      have hg : t.HasGoal k := by
        by_contra hg
        rw [show t.chart.at? (.normal k) = (t.goal k).normPost?.map (·.context) from rfl,
          goal_of_not_has hg] at hk
        cases hk
      show some (t'.home k) = some (t.home k)
      rw [home, h.parentApplication?_old hl hg, home]
    | applied q =>
      have hq : t.HasApplication q := by
        by_contra hq
        cases (if_neg hq).symm.trans hk
      exact congrArg (fun a : Application => some (Stage.normal a.parent)) (h.application_old q hq)

/-- New goals have different variables if the subgoals have. -/
theorem Growth.injective {new : NewApplication} {copies : List GoalCopy}
    {groups : List (List Subgoal)} (h : Growth new copies groups t t')
    (hn : (groups.flatten.map (·.var)).Nodup) {g k : GoalId} (hg : ¬ t.HasGoal g)
    (hg' : t'.HasGoal g) (hk : ¬ t.HasGoal k) (hk' : t'.HasGoal k)
    (hv : (t'.goal g).var = (t'.goal k).var) : g = k := by
  have hat {g : GoalId} (hg : ¬ t.HasGoal g) (hg' : t'.HasGoal g) :
      ∃ i, g = ⟨t.goals.size + i⟩ ∧ (groups.flatten.map (·.var))[i]? = some (t'.goal g).var := by
    simp only [HasGoal, h.goals_size] at hg hg'
    obtain ⟨i, hi⟩ : ∃ i, g.index = t.goals.size + i := ⟨g.index - t.goals.size, by omega⟩
    have hlt : i < groups.flatten.length := by omega
    obtain ⟨c, hc⟩ := h.goal_at i _ (List.getElem?_eq_getElem hlt)
    have hid : g = ⟨t.goals.size + i⟩ := by rw [← hi]
    refine ⟨i, hid, ?_⟩
    rw [hid, hc, List.getElem?_map, List.getElem?_eq_getElem hlt]
    rfl
  obtain ⟨i, hi, hvi⟩ := hat hg hg'
  obtain ⟨j, hj, hvj⟩ := hat hk hk'
  rw [hv, ← hvj] at hvi
  have hlt : j < (groups.flatten.map (·.var)).length := (List.getElem?_eq_some_iff.1 hvj).1
  rw [hi, hj, (List.getElem?_inj hlt hn).1 hvi.symm]

end Tree

/-- An application that is to be added for the goal `x` in the context `m`, with the copies among
its goals. -/
structure Carried (P : Problem) (t : Tree) (m : Context) (x : Var) (new : NewApplication)
    (copies : List Tree.GoalCopy) : Prop where
  spans : Spans P m new.post.context (· ∈ new.goals) fun y => y = x ∨
    new.rule.kind.isSafe = false ∨ ∃ c ∈ copies, c.old = y
  goals : ∀ y ∈ new.goals, new.post.context.isDeclared y = true ∧
    new.post.context.isAssigned y = false ∧ m.isDeclared y = false
  nodup : new.goals.Nodup
  link : ∀ y ∈ new.goals, (∃ c ∈ copies, c.copy = y) ∨
    ∃ u, new.post.context.binding? x = some (.value u) ∧ u.occurs y = true
  apart : (copies.map (·.copy)).Nodup
  source : ∀ c ∈ copies, t.HasGoal c.source ∧ (t.goal c.source).var = c.old ∧
    c.copy ∈ new.goals ∧ c.old ∈ new.assigned ∧
    new.post.context.binding? c.old = some (.value (.var c.copy))
  introduced : ∀ y ∈ new.introduced, m.isDeclared y = false
  fresh : ∀ y, new.post.context.isDeclared y = true → m.isDeclared y = false →
    ∀ ρ k, t.chart.at? ρ = some k → k.isDeclared y = false

/-- The copy that a variable stands for is the only one with that variable. -/
theorem Tree.find?_copy {copies : List Tree.GoalCopy} (h : (copies.map (·.copy)).Nodup)
    {c : Tree.GoalCopy} (hcopy : c ∈ copies) : copies.find? (·.copy = c.copy) = some c := by
  cases hf : copies.find? (·.copy = c.copy) with
  | none => exact absurd (List.find?_eq_none.1 hf c hcopy) (by simp)
  | some c' =>
    have hsame := List.find?_some hf
    rw [List.inj_on_of_nodup_map h (List.mem_of_find?_eq_some hf) hcopy (by simpa using hsame)]

/-- A copy becomes a goal that names its source. -/
theorem Carried.exists_copy {t t' : Tree} {new : NewApplication} {copies : List Tree.GoalCopy}
    {groups : List (List Subgoal)} (hc : Carried P t m x new copies)
    (hgrow : Tree.Growth new copies groups t t')
    (hgroups : new.post.context.clusterGoals new.goals = .ok groups) {c : Tree.GoalCopy}
    (hcopy : c ∈ copies) : ∃ k, t'.MadeBy ⟨t.applications.size⟩ k ∧
      (t'.goal k).origin = .copied c.source := by
  obtain ⟨-, -, hgoal, -⟩ := hc.source c hcopy
  obtain ⟨k, cl, s, hk, hs, he⟩ := hgrow.exists_madeBy hgroups hgoal
  refine ⟨k, hk, ?_⟩
  rw [he, Tree.makeGoal, hs, Tree.find?_copy hc.apart hcopy]

/-- What becomes of an application that is added. -/
theorem Carried.applied {t t' : Tree} {new : NewApplication} {copies : List Tree.GoalCopy}
    {groups : List (List Subgoal)} (hc : Carried P t m x new copies) (hl : t.Linked)
    (hgrow : Tree.Growth new copies groups t t')
    (hgroups : new.post.context.clusterGoals new.goals = .ok groups) :
    Applied P t' ⟨t.applications.size⟩ x m := by
  have hmem {s : Subgoal} (hs : s ∈ groups.flatten) : s.var ∈ new.goals :=
    (Context.clusterGoals_perm hgroups).1.mem_iff.1 (List.mem_map_of_mem hs)
  have hmade {k : GoalId} (hk : t'.MadeBy ⟨t.applications.size⟩ k) :
      ∃ c s, s ∈ groups.flatten ∧ t'.goal k = t.makeGoal new copies c s := by
    by_cases hold : t.HasGoal k
    · have hr := (hgrow.parentApplication?_old hl hold).symm.trans hk.2
      exact absurd (hl.clusterParent _ _ (hl.home k hold).1 hr).1 (by simp [Tree.HasApplication])
    · obtain ⟨c, s, hs, he, -⟩ := hgrow.goal_fresh hold hk.1
      exact ⟨c, s, hs, he⟩
  refine ⟨?_, fun k hk => ?_, fun k j hk horigin => ?_, fun k hk hnot => ?_, ?_⟩
  · rw [hgrow.application_new]
    refine hc.spans.mono (fun y hy => ?_) fun y hy => hy.imp_right fun hy => ?_
    · obtain ⟨k, c, s, hk, rfl, he⟩ := hgrow.exists_madeBy hgroups hy
      exact ⟨k, hk, by rw [he]; rfl⟩
    · rw [Tree.Carries, hgrow.application_new]
      refine hy.imp_right ?_
      rintro ⟨c, hcopy, hold⟩
      obtain ⟨hhas, hvar, -, -⟩ := hc.source c hcopy
      obtain ⟨k, hk, horigin⟩ := hc.exists_copy hgrow hgroups hcopy
      exact ⟨k, c.source, hk, horigin, hgrow.hasGoal hhas, by
        rw [(hgrow.recorded hhas).1, hvar, hold]⟩
  · obtain ⟨c, s, hs, he⟩ := hmade hk
    rw [hgrow.application_new, he]
    exact hc.goals s.var (hmem hs)
  · obtain ⟨c, s, hs, he⟩ := hmade hk
    rw [he, Tree.makeGoal] at horigin
    dsimp only at horigin
    split at horigin
    · next copy hfind =>
      obtain ⟨hhas, hvar, -, hassigned, hb⟩ := hc.source copy (List.mem_of_find?_eq_some hfind)
      have hcopy : copy.copy = s.var := by simpa using List.find?_some hfind
      rw [hcopy] at hb
      cases horigin
      rw [hgrow.application_new, (hgrow.recorded hhas).1, hvar, he]
      exact ⟨hgrow.hasGoal hhas, hassigned, hb⟩
    · cases horigin
  · obtain ⟨c, s, hs, he⟩ := hmade hk
    rw [hgrow.application_new, he]
    rcases hc.link s.var (hmem hs) with ⟨copy, hcopy, hy⟩ | hu
    · refine (hnot copy.source ?_).elim
      rw [he, Tree.makeGoal, ← hy, Tree.find?_copy hc.apart hcopy]
    · exact hu
  · rw [hgrow.application_new]
    exact hc.introduced

/-- An application is added whose new variables occur nowhere else. -/
theorem VarHistory.growth {t t' : Tree} {new : NewApplication} {copies : List Tree.GoalCopy}
    {groups : List (List Subgoal)} {state : Snapshot} (h : VarHistory P t) (hl : t.Linked)
    (hx : (t.goal new.parent).norm = .normal x state)
    (hc : Carried P t state.context x new copies) (hgrow : Tree.Growth new copies groups t t')
    (hgroups : new.post.context.clusterGoals new.goals = .ok groups) : VarHistory P t' := by
  have hpost : (t.goal new.parent).normPost? = some state := by rw [Goal.normPost?, hx]
  have hnew : ¬ t.HasApplication ⟨t.applications.size⟩ := by simp [Tree.HasApplication]
  have happ {q : ApplicationId} (hq : t.HasApplication q) := hgrow.application_old q hq
  have hpre {k : GoalId} (hk : t.HasGoal k) : t'.preState k = t.preState k :=
    hgrow.retains.preState_eq hl hk
  have hnorm := hgrow.norm_same
  -- The variable of an old goal is declared where the goal was made, so no new goal has it.
  have hapart {g k : GoalId} (hg : t.HasGoal g) (hk : ¬ t.HasGoal k) (hk' : t'.HasGoal k)
      (hv : (t'.goal g).var = (t'.goal k).var) : False := by
    obtain ⟨c, s, hs, he, -⟩ := hgrow.goal_fresh hk hk'
    obtain ⟨hdecl, -, hm⟩ := hc.goals s.var
      ((Context.clusterGoals_perm hgroups).1.mem_iff.1 (List.mem_map_of_mem hs))
    have hfresh := hc.fresh s.var hdecl hm _ _ (hl.chart_home hg)
    rw [he, (hgrow.recorded hg).1] at hv
    have := Context.isDeclared_of_dependencies (h.deps g hg)
    rw [hv] at this
    cases this.symm.trans hfresh
  refine ⟨h.chart.add (hgrow.chart_adds hl) (Tree.chart_normal hpost) hc.spans.decl
    hc.spans.extension fun y _ => hc.fresh y, hgrow.rootState ▸ h.root,
    (hgrow.recorded hl.root).2.2.2.trans h.origin, fun g k hg hk hv => ?_, fun g hg => ?_,
    fun g post hp => ?_, fun q hq => ?_⟩
  · by_cases hg' : t.HasGoal g <;> by_cases hk' : t.HasGoal k
    · rw [(hgrow.recorded hg').1, (hgrow.recorded hk').1] at hv
      exact h.injective g k hg' hk' hv
    · exact (hapart hg' hk' hk hv).elim
    · exact (hapart hk' hg' hg hv.symm).elim
    · exact hgrow.injective ((Context.clusterGoals_perm hgroups).1.nodup_iff.2 hc.nodup) hg' hg
        hk' hk hv
  · by_cases hg' : t.HasGoal g
    · rw [hpre hg', (hgrow.recorded hg').1, (hgrow.recorded hg').2.2.1]
      exact h.deps g hg'
    · obtain ⟨c, s, hs, he, -⟩ := hgrow.goal_fresh hg' hg
      rw [hgrow.preState_fresh hg' hg, he]
      exact (Context.clusterGoals_perm hgroups).2 s hs
  · have hg : t.HasGoal g := by
      by_contra hg
      rw [Goal.normPost?, hnorm, Tree.goal_of_not_has hg] at hp
      cases hp
    rw [Goal.normPost?, hnorm] at hp
    rw [hpre hg, (hgrow.recorded hg).1, (hgrow.recorded hg).2.2.1, Goal.normVar?, hnorm]
    exact h.normal g post hp
  · rcases hgrow.hasApplication.1 hq with hq | hq
    · obtain ⟨z, pre, hz, ha⟩ := h.applied q hq
      have hmade (k : GoalId) : t'.MadeBy q k ↔ t.MadeBy q k := by
        by_cases hk : t.HasGoal k
        · rw [Tree.MadeBy, hgrow.parentApplication?_old hl hk, Tree.MadeBy]
          exact and_congr_left fun _ => ⟨fun _ => hk, fun _ => hgrow.hasGoal hk⟩
        · refine ⟨fun hk' => ?_, fun hk' => absurd hk'.1 hk⟩
          obtain ⟨-, -, -, -, habove⟩ := hgrow.goal_fresh hk hk'.1
          have := Option.some.inj (hk'.2.symm.trans habove)
          exact absurd (this ▸ hq) hnew
      exact ⟨z, pre, by rw [happ hq, hnorm, hz], ha.congr
        (by rw [happ hq]; exact ⟨rfl, rfl, rfl, rfl⟩) hmade fun k hk =>
          ⟨hgrow.hasGoal hk, (hgrow.recorded hk).1, (hgrow.recorded hk).2.2.2⟩⟩
    · subst hq
      refine ⟨x, state, ?_, hc.applied hl hgrow hgroups⟩
      rw [hgrow.application_new, hnorm]
      exact hx

/-! ## The beginning -/

/-- A search begins with a goal that is the only variable of the search so far. -/
theorem varHistory_ofGoal {state : Snapshot} {vars : VarSet}
    (hroot : ∀ y, P.Own y → state.context.isDeclared y = true →
      y = P.root ∧ state.context.isAssigned y = false)
    (hvars : state.context.dependencies P.root = .ok vars) :
    VarHistory P (.ofGoal P.root vars state) := by
  obtain ⟨t, ht⟩ : ∃ t, t = Tree.ofGoal P.root vars state := ⟨_, rfl⟩
  have hid {g : GoalId} (hg : t.HasGoal g) : g = Tree.root := by
    rw [ht] at hg
    exact Tree.hasGoal_ofGoal.1 hg
  have hnorm (g : GoalId) : (t.goal g).norm = .notNormal := by
    by_cases hg : t.HasGoal g
    · rw [hid hg, ht]
      rfl
    · rw [Tree.goal_of_not_has hg]
      rfl
  have hstart {τ : Stage} {n : Context} (hn : t.chart.at? τ = some n) : τ = .start := by
    cases τ with
    | start => rfl
    | normal g =>
      rw [show t.chart.at? (.normal g) = (t.goal g).normPost?.map (·.context) from rfl,
        Goal.normPost?, hnorm] at hn
      cases hn
    | applied r => cases (if_neg (ht ▸ Tree.not_hasApplication_ofGoal)).symm.trans hn
  rw [← ht]
  refine ⟨⟨fun τ n hn => ?_, fun σ τ m n hb _ hn => ?_, fun σ τ m n hb _ hn => ?_,
    fun y β γ _ hβ hγ => ?_⟩, ht ▸ hroot, ht ▸ rfl, fun g k hg hk _ => ?_, fun g hg => ?_,
    fun g post hp => ?_, fun r hr => ?_⟩
  · obtain rfl := hstart hn
    exact .start hn rfl
  · obtain rfl := hstart hn
    cases hb
  · obtain rfl := hstart hn
    cases hb
  · obtain ⟨_, hβ, -⟩ := hβ
    obtain ⟨_, hγ, -⟩ := hγ
    exact (hstart hβ).trans (hstart hγ).symm
  · rw [hid hg, hid hk]
  · rw [hid hg, ht]
    exact hvars
  · rw [Goal.normPost?, hnorm] at hp
    cases hp
  · exact absurd (ht ▸ hr) Tree.not_hasApplication_ofGoal

end ProofSearch
