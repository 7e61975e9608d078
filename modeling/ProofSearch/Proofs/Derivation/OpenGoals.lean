import ProofSearch.Proofs.Derivation.Prefix
import ProofSearch.Proofs.Metavar.Cycles

/-!
# Goals that a safe prefix lists

A goal is listed when the traversal stops at it.  An application that is passed afterwards may have
carried a copy of the goal along, and then the goal has the copy as its value.

1. `Chart.Sound.exists_binder`: where a binding comes from.
2. `Tree.Binds`: the stages of a safe prefix at which the variable of a goal can get its value.
   `VarHistory.binds_of_first` says that there are no others.
3. `Tree.Replaced`, `Tree.Shown`: goals with a copy in the prefix, and goals that the term leads to
   whatever the order of the traversal.
4. `listed_goals`: a listed goal is closed exactly if it is replaced by a copy, and if no goal on
   the way to it is closed in more than one way then it occurs in the term.
5. `listed_goal_closed`: a goal is listed and replaced.
-/

namespace ProofSearch

open Solver

variable {P : Problem} {L : Ledger} {t : Tree}

/-! ## Where a binding comes from -/

namespace Chart.Sound

variable {C : Chart} {σ τ β γ : Stage} {m n : Context} {y : Var}

/-- What a context binds was bound at some stage on the way to it. -/
theorem exists_binder (h : C.Sound P) (hm : C.at? τ = some m) {b : Binding}
    (hb : m.binding? y = some b) : ∃ β n, C.Leads β τ ∧ C.First (·.isAssigned y = true) β ∧
      C.at? β = some n ∧ n.binding? y = some b := by
  obtain ⟨β, hlead, n, hn, ha, hbefore⟩ := (h.path τ m hm).exists_first
    (φ := fun k => k.isAssigned y = true) (Option.isSome_iff_exists.2 ⟨b, hb⟩)
  obtain ⟨c, hc⟩ := Option.isSome_iff_exists.1 ha
  obtain rfl := Option.some.inj (((h.leads hlead hn hm).2 y c hc).symm.trans hb)
  exact ⟨β, n, hlead, ⟨n, hn, ha, hbefore⟩, hn, hc⟩

/-- A variable that was made open is open up to the stage at which it is bound. -/
theorem open_before (h : C.Sound P) (ho : P.Own y) (hβ : C.First (·.isDeclared y = true) β)
    (hn : C.at? β = some n) (hopen : n.isAssigned y = false)
    (hγ : C.First (·.isAssigned y = true) γ) (hb : C.before? γ = some σ) (hm : C.at? σ = some m) :
    m.isDeclared y = true ∧ m.isAssigned y = false := by
  obtain ⟨k, hk, ha, hbefore⟩ := hγ
  refine ⟨?_, (Bool.not_eq_true _).mp (hbefore σ m hb hm)⟩
  by_contra hnot
  have hborn : C.First (·.isDeclared y = true) γ := by
    refine ⟨k, hk, Context.isDeclared_of_isAssigned ha, fun σ' m' hb' hm' => ?_⟩
    obtain rfl := Option.some.inj (hb.symm.trans hb')
    obtain rfl := Option.some.inj (hm.symm.trans hm')
    exact hnot
  obtain rfl := h.birth y β γ ho hβ hborn
  obtain rfl := Option.some.inj (hn.symm.trans hk)
  exact nomatch hopen.symm.trans ha

/-- A variable that was bound when it was made is bound nowhere else. -/
theorem first_eq_of_born (h : C.Sound P) (ho : P.Own y) (hβ : C.First (·.isDeclared y = true) β)
    (hn : C.at? β = some n) (ha : n.isAssigned y = true)
    (hγ : C.First (·.isAssigned y = true) γ) : γ = β := by
  obtain ⟨k, hk, hay, hbefore⟩ := hγ
  have hlead := h.leads_of_declared ho hβ hk (Context.isDeclared_of_isAssigned hay)
  rcases Relation.ReflTransGen.cases_tail hlead with he | ⟨σ, hβσ, hb⟩
  · exact he
  · obtain ⟨m, hm⟩ := (h.path γ k hk).before hb
    obtain ⟨c, hc⟩ := Option.isSome_iff_exists.1 ha
    have hm' : m.isAssigned y = true :=
      Option.isSome_iff_exists.2 ⟨c, (h.leads hβσ hn hm.at_eq).2 y c hc⟩
    exact (hbefore σ m hb hm.at_eq hm').elim

end Chart.Sound

/-! ## Where the variables of goals are made -/

variable {g k : GoalId} {x y : Var}

theorem Tree.home_ne_normal : t.home g ≠ .normal k := by
  unfold Tree.home
  split <;> nofun

theorem Tree.LeftOpen.belongs (h : t.LeftOpen k y) : t.Belongs k y := by
  rcases h with ⟨-, hy⟩ | ⟨post, hx, -⟩
  · exact .inl hy
  · exact .inr (by rw [Goal.normVar?, hx])

theorem Recorded.own_of_belongs (h : Recorded P L t) (hk : t.HasGoal k) (hy : t.Belongs k y) :
    P.Own y := by
  rcases hy with rfl | hx
  · exact h.own k hk
  · exact (h.goal k).var y hx

namespace VarHistory

variable (hw : VarHistory P t) (hr : Recorded P L t) (hl : t.Linked)

include hw hl

/-- The variable of a goal is made together with the goal. -/
theorem born (hk : t.HasGoal k) :
    t.chart.First (·.isDeclared (t.goal k).var = true) (t.home k) := by
  refine ⟨_, hl.chart_home hk, Context.isDeclared_of_dependencies (hw.deps k hk),
    fun σ m hb hm => ?_⟩
  unfold Tree.home at hb
  cases hq : t.parentApplication? k with
  | none =>
    rw [hq] at hb
    cases hb
  | some r =>
    rw [hq] at hb
    obtain ⟨z, state, hz, ha⟩ := hw.applied r (hl.clusterParent _ r (hl.home k hk).1 hq).1
    obtain rfl := Option.some.inj hb
    obtain rfl := Option.some.inj
      ((Tree.chart_normal (by rw [Goal.normPost?, hz])).symm.trans hm)
    exact fun hd => by cases (ha.goal k ⟨hk, hq⟩).2.2.symm.trans hd

include hr

/-- The variables of a goal are open when they are made. -/
theorem exists_birth (hk : t.HasGoal k) (hy : t.Belongs k y) : ∃ β n,
    t.chart.First (·.isDeclared y = true) β ∧ t.chart.at? β = some n ∧ n.isAssigned y = false ∧
      (β = t.home k ∧ y = (t.goal k).var ∨ β = .normal k) := by
  by_cases he : y = (t.goal k).var
  · subst he
    exact ⟨_, _, hw.born hl hk, hl.chart_home hk, hw.goal_open hl hr hk, .inl ⟨rfl, rfl⟩⟩
  · have hx := hy.resolve_left he
    obtain ⟨post, hnorm⟩ := Goal.norm_of_normVar? hx
    have hpost : (t.goal k).normPost? = some post := by rw [Goal.normPost?, hnorm]
    obtain ⟨hdecl, hopen, hnew⟩ := (hw.normal k post hpost).goal y hx
    refine ⟨.normal k, _, ⟨_, Tree.chart_normal hpost, hdecl, fun σ m hb hm => ?_⟩,
      Tree.chart_normal hpost, hopen, .inr rfl⟩
    obtain rfl := Option.some.inj hb
    obtain rfl := Option.some.inj ((hl.chart_home hk).symm.trans hm)
    exact fun hd => by cases (hnew.resolve_left he).symm.trans hd

/-- No variable belongs to two goals. -/
theorem belongs_unique (hg : t.HasGoal g) (hk : t.HasGoal k) (hyg : t.Belongs g y)
    (hyk : t.Belongs k y) : g = k := by
  obtain ⟨β, -, hβ, -, -, hcase⟩ := hw.exists_birth hr hl hg hyg
  obtain ⟨γ, -, hγ, -, -, hcase'⟩ := hw.exists_birth hr hl hk hyk
  have he := hw.chart.birth y β γ (hr.own_of_belongs hg hyg) hβ hγ
  rcases hcase with ⟨rfl, hvar⟩ | rfl <;> rcases hcase' with ⟨rfl, hvar'⟩ | rfl
  · exact hw.injective g k hg hk (hvar.symm.trans hvar')
  · exact (Tree.home_ne_normal he).elim
  · exact (Tree.home_ne_normal he.symm).elim
  · exact Stage.normal.inj he

end VarHistory

/-! ## Where they get their values -/

namespace Tree

/-- A goal of the prefix is a copy of `k`. -/
def Replaced (t : Tree) (k : GoalId) : Prop := ∃ i, t.InPrefix i ∧ (t.goal i).origin = .copied k

/-- The stages of the prefix at which the variable `y` of the goal `k` can get its value. -/
inductive Binds (t : Tree) (k : GoalId) (y : Var) : Stage → Prop
  | normal : y = (t.goal k).var → (t.goal k).normVar? ≠ some y → t.Binds k y (.normal k)
  | applied {r : ApplicationId} : (t.goal k).normVar? = some y → t.safeApplication? k = some r →
      t.Binds k y (.applied r)
  | copied {i : GoalId} {r : ApplicationId} : y = (t.goal k).var → t.InPrefix i → t.MadeBy r i →
      (t.goal i).origin = .copied k → t.Binds k y (.applied r)

end Tree

namespace VarHistory

variable (hw : VarHistory P t) (hr : Recorded P L t) (hl : t.Linked)

include hw hr hl

/-- A variable of a goal gets its value when the goal is normalized, by the application of the goal,
or from a copy. -/
theorem binds_of_first {β : Stage} (hβ : t.Passed β)
    (hfirst : t.chart.First (·.isAssigned y = true) β) (hk : t.InPrefix k) (hy : t.Belongs k y) :
    t.Binds k y β := by
  have hhas := Tree.InPrefix.hasGoal hk hl
  have ho := hr.own_of_belongs hhas hy
  obtain ⟨γ, n, hborn, hn, hopen, -⟩ := hw.exists_birth hr hl hhas hy
  -- The variable is not new at the stage, so it is among the old ones that the stage may close.
  have hbefore {σ : Stage} {m : Context} (hb : t.chart.before? β = some σ)
      (hm : t.chart.at? σ = some m) : m.isDeclared y = true ∧ m.isAssigned y = false :=
    hw.chart.open_before ho hborn hn hopen hfirst hb hm
  obtain ⟨n', hn', ha, -⟩ := hfirst
  cases hβ with
  | start =>
    obtain rfl := Option.some.inj hn'
    have hroot := (hw.root y ho (Context.isDeclared_of_isAssigned ha)).2
    cases hroot.symm.trans ha
  | @normal g post hg hpost =>
    have hhas' := Tree.InPrefix.hasGoal hg hl
    obtain rfl := Option.some.inj ((Tree.chart_normal hpost).symm.trans hn')
    obtain ⟨hd, hd'⟩ := hbefore rfl (hl.chart_home hhas')
    have hrw := hw.normal g post hpost
    have hvar := hrw.spans.old y ho hd hd' ha
    obtain rfl := hw.belongs_unique hr hl hhas' hhas (.inl hvar) hy
    exact .normal hvar fun hx => by cases (hrw.goal y hx).2.1.symm.trans ha
  | @applied g x post r hg hnorm hsafe =>
    have hhas' := Tree.InPrefix.hasGoal hg hl
    obtain ⟨-, happ, hparent, hkind⟩ := hl.safeApplication hhas' hsafe
    obtain rfl := Option.some.inj ((Tree.chart_applied happ).symm.trans hn')
    obtain ⟨z, state, hz, hzr⟩ := hw.applied r happ
    obtain ⟨hd, hd'⟩ := hbefore rfl (Tree.chart_normal (by rw [Goal.normPost?, hz]))
    have hvar : (t.goal g).normVar? = some z := by rw [Goal.normVar?, ← hparent, hz]
    rcases hzr.spans.old y ho hd hd' ha with rfl | hunsafe | ⟨i, j, hi, horigin, hj, hij⟩
    · obtain rfl := hw.belongs_unique hr hl hhas' hhas (.inr hvar) hy
      exact .applied hvar hsafe
    · cases hkind.symm.trans hunsafe
    · obtain rfl := hw.belongs_unique hr hl hj hhas (.inl hij.symm) hy
      exact .copied hij.symm
        (hg.tail ⟨x, post, r, hnorm, hsafe, (hl.mem_subgoalIds happ).2 hi⟩) hi horigin

/-- What a context put together from the prefix binds was bound at one of these stages. -/
theorem exists_binds {f : Context} (hf : Assembled P t.PrefixSource f) (hk : t.InPrefix k)
    (hy : t.Belongs k y) {b : Binding} (hb : f.binding? y = some b) :
    ∃ β n, t.Binds k y β ∧ t.chart.at? β = some n ∧ n.binding? y = some b := by
  have ho := hr.own_of_belongs (Tree.InPrefix.hasGoal hk hl) hy
  obtain ⟨m, ⟨τ, hτ, hat⟩, hm⟩ := hf.binding y b ho hb
  obtain ⟨β, n, hlead, hfirst, hn, hnb⟩ := hw.chart.exists_binder hat hm
  exact ⟨β, n, hw.binds_of_first hr hl (hτ.leads hl hlead) hfirst hk hy, hn, hnb⟩

/-- The value of a goal that is left open is one of its copies. -/
theorem value_of_leftOpen {f : Context} (hf : Assembled P t.PrefixSource f) (hk : t.InPrefix k)
    (hy : t.LeftOpen k y) {b : Binding} (hb : f.binding? y = some b) : y = (t.goal k).var ∧
      ∃ i, t.InPrefix i ∧ (t.goal i).origin = .copied k ∧ b = .value (.var (t.goal i).var) := by
  obtain ⟨β, n, hbinds, hn, hnb⟩ := hw.exists_binds hr hl hf hk hy.belongs hb
  cases hbinds with
  | normal hvar hne =>
    rcases hy with ⟨hnorm, -⟩ | ⟨post, hnorm, -⟩
    · rw [show t.chart.at? (.normal k) = (t.goal k).normPost?.map (·.context) from rfl,
        Goal.normPost?, hnorm] at hn
      cases hn
    · exact (hne (by rw [Goal.normVar?, hnorm])).elim
  | applied hx hsafe =>
    rcases hy with ⟨hnorm, -⟩ | ⟨post, hnorm, hnone⟩
    · rw [Goal.normVar?, hnorm] at hx
      cases hx
    · cases hnone.symm.trans hsafe
  | @copied i r hvar hi hmade horigin =>
    have happ := (hl.clusterParent _ r (hl.home i hmade.1).1 hmade.2).1
    obtain rfl := Option.some.inj ((Tree.chart_applied happ).symm.trans hn)
    obtain ⟨z, state, -, ha⟩ := hw.applied r happ
    obtain ⟨-, -, hvalue⟩ := ha.copied i k hmade horigin
    rw [← hvar, hnb] at hvalue
    exact ⟨hvar, i, hi, horigin, Option.some.inj hvalue⟩

end VarHistory

/-! ## Goals that the term leads to -/

namespace Tree

/-- The goals that the term leads to whatever the order of the traversal: no goal on the way to them
gets its value in more than one way. -/
inductive Shown (t : Tree) : GoalId → Prop
  | root : t.Shown Tree.root
  | child {g k : GoalId} : t.Shown g → ¬ t.Replaced g → t.PrefixChild g k →
      (∀ j, (t.goal k).origin ≠ .copied j) → t.Shown k
  | copy {j k : GoalId} : t.Shown j → t.LeftOpen j (t.goal j).var → t.InPrefix k →
      (t.goal k).origin = .copied j →
      (∀ i, t.InPrefix i → (t.goal i).origin = .copied j → i = k) → t.Shown k

theorem Shown.inPrefix (h : t.Shown k) : t.InPrefix k := by
  induction h with
  | root => exact .refl
  | child _ _ hk _ ih => exact ih.tail hk
  | copy _ _ hk _ _ _ => exact hk

/-- Without copies all goals of the prefix are shown. -/
theorem InPrefix.shown (h : t.InPrefix k) (hnone : ∀ j, ¬ t.Replaced j) : t.Shown k := by
  induction h with
  | refl => exact .root
  | tail hg hk ih => exact .child ih (hnone _) hk fun j hj => hnone j ⟨_, hg.tail hk, hj⟩

end Tree

/-- An open variable that is reached from a variable occurs in its value. -/
theorem Context.Plain.occurs_of_reaches {m : Context} (h : m.Plain x) (hr : m.Reaches x y)
    (hy : m.binding? y = none) : (m.instantiate (.var x)).occurs y = true := by
  obtain ⟨z, hz, hzy⟩ := h.grounded.exists_occurs hr hy
  rwa [hzy.eq_of_open (h.binding_of_occurs hz)]

namespace VarHistory

variable {f : Context} (hw : VarHistory P t) (hr : Recorded P L t) (hl : t.Linked)
  (hf : Assembled P t.PrefixSource f)
  (hcloses : ∀ y, (∃ k, t.InPrefix k ∧ t.Closes k y) → f.isAssigned y = true)

include hw hr hl

/-- What is bound by the normalization of a goal without copies is bound nowhere else. -/
theorem leads_of_assigned {post m : Snapshot} {τ : Stage} (hg : t.InPrefix g)
    (hnone : ¬ t.Replaced g) (hpost : (t.goal g).normPost? = some post) (ho : P.Own y)
    (hopen : (t.preState g).context.isAssigned y = false) (ha : post.context.isAssigned y = true)
    (hτ : t.Passed τ) (hat : t.chart.at? τ = some m.context)
    (hm : m.context.isAssigned y = true) : t.chart.Leads (.normal g) τ := by
  have hhas := Tree.InPrefix.hasGoal hg hl
  have hrw := hw.normal g post hpost
  obtain ⟨b, hb⟩ := Option.isSome_iff_exists.1 hm
  obtain ⟨β, n, hlead, hfirst, hn, hnb⟩ := hw.chart.exists_binder hat hb
  suffices he : β = .normal g by rwa [he] at hlead
  -- Of the old variables normalization closes the goal only; a new one was bound when it was made.
  cases hd : (t.preState g).context.isDeclared y with
  | true =>
    obtain rfl := hrw.spans.old y ho hd hopen ha
    cases hw.binds_of_first hr hl (hτ.leads hl hlead) hfirst hg (.inl rfl) with
    | normal => rfl
    | applied hx => exact nomatch ((hrw.goal _ hx).2.1).symm.trans ha
    | copied _ hi _ horigin => exact (hnone ⟨_, hi, horigin⟩).elim
  | false =>
    refine hw.chart.first_eq_of_born ho ⟨_, Tree.chart_normal hpost,
      Context.isDeclared_of_isAssigned ha, fun σ k hb hk => ?_⟩ (Tree.chart_normal hpost) ha hfirst
    obtain rfl := Option.some.inj hb
    obtain rfl := Option.some.inj ((hl.chart_home hhas).symm.trans hk)
    exact fun hd' => nomatch hd.symm.trans hd'

omit hr in
include hcloses in
/-- A goal with a copy is closed. -/
theorem isAssigned_of_replaced (hk : t.Replaced k) : f.isAssigned (t.goal k).var = true := by
  obtain ⟨i, hi, horigin⟩ := hk
  rcases Relation.ReflTransGen.cases_tail hi with rfl | ⟨g, hg, x, post, r, hnorm, hsafe, hmem⟩
  · exact nomatch hw.origin.symm.trans horigin
  · obtain ⟨-, happ, -, -⟩ := hl.safeApplication (Tree.InPrefix.hasGoal hg hl) hsafe
    obtain ⟨z, state, -, ha⟩ := hw.applied r happ
    obtain ⟨-, hassigned, -⟩ := ha.copied i k ((hl.mem_subgoalIds happ).1 hmem) horigin
    exact hcloses _ ⟨g, hg, .inr ⟨x, post, r, hnorm, hsafe, .inr hassigned⟩⟩

include hf hcloses

/-- The variable of a goal without copies leads to what normalization has left of the goal. -/
theorem reaches_rest (hg : t.InPrefix g) (hnone : ¬ t.Replaced g)
    (hx : (t.goal g).normVar? = some x) : f.Reaches (t.goal g).var x := by
  obtain ⟨post, hnorm⟩ := Goal.norm_of_normVar? hx
  have hpost : (t.goal g).normPost? = some post := by rw [Goal.normPost?, hnorm]
  have hconf := hr.conforms_at (Tree.chart_normal hpost)
  -- Along the trail the context has the values that normalization has given.
  have hall (a : Var) (htrail : Trail (t.preState g).context post.context a x) (ho : P.Own a)
      (ha : post.context.isAssigned a = true → f.isAssigned a = true) : f.Reaches a x := by
    induction htrail using Relation.ReflTransGen.head_induction_on with
    | refl => exact .refl
    | @head a c hop _ ih =>
      obtain ⟨hopen, u, hu, hc⟩ := hop
      have hau : post.context.isAssigned a = true := Option.isSome_iff_exists.2 ⟨_, hu⟩
      obtain ⟨b, hb⟩ := Option.isSome_iff_exists.1 (ha hau)
      obtain ⟨m, v, ⟨τ, hτ, hat⟩, rfl, hmv, hmore⟩ := hf.value a b ho hb
      have hlead := hw.leads_of_assigned hr hl hg hnone hpost ho hopen hau hτ hat
        (Option.isSome_iff_exists.2 ⟨_, hmv⟩)
      have hext := (hw.chart.leads hlead (Tree.chart_normal hpost) hat).2
      obtain ⟨rfl⟩ : u = v := by simpa using (hext a _ hu).symm.trans hmv
      obtain ⟨u, hu', hfit⟩ := hconf.value a _ ho hu
      cases hu'
      refine .head (.inl ⟨u, hb, hc⟩) (ih (hfit.own hc) fun hca => hmore c hc ?_)
      obtain ⟨e, he⟩ := Option.isSome_iff_exists.1 hca
      exact Option.isSome_iff_exists.2 ⟨e, hext c e he⟩
  refine hall _ ((hw.normal g post hpost).trail x hx) (hr.own g (Tree.InPrefix.hasGoal hg hl))
    fun ha => hcloses _ ⟨g, hg, .inl ⟨post, hpost, rfl, ha⟩⟩

/-- A safe application gives its goal a value that mentions its own goals. -/
theorem refers_child (hg : t.InPrefix g) (hnone : ¬ t.Replaced g)
    (hx : (t.goal g).normVar? = some x) {r : ApplicationId} (hsafe : t.safeApplication? g = some r)
    (hk : t.MadeBy r k) (hown : ∀ j, (t.goal k).origin ≠ .copied j) :
    f.Refers x (t.goal k).var := by
  obtain ⟨post, hnorm⟩ := Goal.norm_of_normVar? hx
  obtain ⟨-, happ, hparent, -⟩ := hl.safeApplication (Tree.InPrefix.hasGoal hg hl) hsafe
  obtain ⟨z, state, hz, ha⟩ := hw.applied r happ
  rw [hparent, hnorm] at hz
  cases hz
  obtain ⟨u, hu, hocc⟩ := ha.link k hk hown
  obtain ⟨b, hb⟩ := Option.isSome_iff_exists.1
    (hcloses x ⟨g, hg, .inr ⟨x, post, r, hnorm, hsafe, .inl rfl⟩⟩)
  obtain ⟨β, n, hbinds, hn, hnb⟩ := hw.exists_binds hr hl hf hg (.inr hx) hb
  -- Without copies the application is the only stage that binds what is left of the goal.
  cases hbinds with
  | normal _ hne => exact (hne hx).elim
  | @applied q _ hq =>
    obtain rfl := Option.some.inj (hsafe.symm.trans hq)
    obtain rfl := Option.some.inj ((Tree.chart_applied happ).symm.trans hn)
    exact .inl ⟨u, hb.trans (hnb.symm.trans hu), hocc⟩
  | copied _ hi _ horigin => exact (hnone ⟨_, hi, horigin⟩).elim

/-- The root leads to every goal that is shown. -/
theorem reaches_of_shown (hk : t.Shown k) : f.Reaches P.root (t.goal k).var := by
  induction hk with
  | root => rw [hr.rootVar]
  | @child g k hg hnone hk hown ih =>
    obtain ⟨x, post, r, hnorm, hsafe, hmem⟩ := hk
    have hx : (t.goal g).normVar? = some x := by rw [Goal.normVar?, hnorm]
    obtain ⟨-, happ, -, -⟩ := hl.safeApplication (Tree.InPrefix.hasGoal hg.inPrefix hl) hsafe
    exact (ih.trans (hw.reaches_rest hr hl hf hcloses hg.inPrefix hnone hx)).tail
      (hw.refers_child hr hl hf hcloses hg.inPrefix hnone hx hsafe
        ((hl.mem_subgoalIds happ).1 hmem) hown)
  | @copy j k hj hleft hk horigin honly ih =>
    obtain ⟨b, hb⟩ := Option.isSome_iff_exists.1
      (hw.isAssigned_of_replaced hl hcloses ⟨k, hk, horigin⟩)
    obtain ⟨-, i, hi, horigin', rfl⟩ := hw.value_of_leftOpen hr hl hf hj.inPrefix hleft hb
    obtain rfl := honly i hi horigin'
    exact ih.tail (.inl ⟨_, hb, by simp [Term.occurs]⟩)

end VarHistory

/-! ## What is listed -/

section

variable {limit : Nat} {u v : Solver} {found : SafePrefix} (hr : Recorded P L t) (hl : t.Linked)
  (hw : VarHistory P t) (he : Ends (t.extractSafePrefix limit) u found v)

include hr hl hw he

/-- A goal that is left open is closed exactly if it has a copy. -/
theorem extractSafePrefix_closed (hk : t.InPrefix k) (hy : t.LeftOpen k y) :
    found.state.context.isAssigned y = true ↔ y = (t.goal k).var ∧ t.Replaced k := by
  obtain ⟨-, hlisting⟩ := extractSafePrefix_listing hr hl hw he
  constructor
  · intro ha
    obtain ⟨b, hb⟩ := Option.isSome_iff_exists.1 ha
    obtain ⟨hvar, i, hi, horigin, -⟩ := hw.value_of_leftOpen hr hl hlisting.assembled hk hy hb
    exact ⟨hvar, i, hi, horigin⟩
  · rintro ⟨rfl, hreplaced⟩
    exact hw.isAssigned_of_replaced hl hlisting.assigned hreplaced

/-- A goal that is left open occurs in the term if it is shown and has no copy. -/
theorem extractSafePrefix_shown (hy : t.LeftOpen k y) (hk : t.Shown k) (hnone : ¬ t.Replaced k) :
    found.term.occurs y = true := by
  obtain ⟨hterm, hlisting⟩ := extractSafePrefix_listing hr hl hw he
  have hf := hlisting.assembled
  have hreach : found.state.context.Reaches P.root y := by
    refine (hw.reaches_of_shown hr hl hf hlisting.assigned hk).trans ?_
    rcases hy.belongs with rfl | hx
    · exact .refl
    · exact hw.reaches_rest hr hl hf hlisting.assigned hk.inPrefix hnone hx
  have hopen : found.state.context.binding? y = none := by
    refine Option.not_isSome_iff_eq_none.1 fun ha => hnone ?_
    exact ((extractSafePrefix_closed hr hl hw he hk.inPrefix hy).1 ha).2
  rw [hterm]
  exact (hf.plain _ (.inl rfl)).occurs_of_reaches hreach hopen

end

namespace Search

/-- A safe prefix lists goals at which its traversal stops, each of them once.  A listed goal is
closed exactly if a copy of it belongs to the prefix, and then a copy is its value.  It occurs in
the term if it has no copy and the term leads to its goal.  Without copies all listed goals are open
and occur. -/
theorem listed_goals (rules : List RuleSpec) (options : Options) (fuel : Nat) (s : Solver)
    (saved : List Snapshot) (root : Var) (d : VarDecl) (safePrefix : SafePrefix)
    (reason : FailureReason) (message : String) (stats : Stats) (t : Tree)
    (hclauses : ∀ c ∈ RuleSpec.clauses rules, c.isClosed = true) (hs : Built s saved)
    (hd : s.context.decl? root = some d) (hopen : s.context.isAssigned root = false)
    (htype : d.type.hasVar = false) (hhyps : ∀ h ∈ d.hyps, h.type.hasVar = false)
    (hfailed : ((ofRules rules options fuel).run s root).result =
      .ok (.failed safePrefix reason message stats))
    (ht : t = ((ofRules rules options fuel).finalRun s root).tree) :
    safePrefix.goals.Nodup ∧
    (∀ y ∈ safePrefix.goals, safePrefix.state.context.isDeclared y = true ∧
      ∃ k, t.InPrefix k ∧ t.LeftOpen k y ∧
        (safePrefix.state.context.isAssigned y = true ↔ y = (t.goal k).var ∧ t.Replaced k) ∧
        (∀ b, safePrefix.state.context.binding? y = some b → ∃ i, t.InPrefix i ∧
          (t.goal i).origin = .copied k ∧ b = .value (.var (t.goal i).var)) ∧
        (t.Shown k → ¬ t.Replaced k → safePrefix.term.occurs y = true)) ∧
    ((∀ k, ¬ t.Replaced k) → ∀ y ∈ safePrefix.goals,
      safePrefix.state.context.isAssigned y = false ∧ safePrefix.term.occurs y = true) := by
  obtain ⟨P, L, t', u, v, ht', hr, hl, hw, hends⟩ :=
    failed_extracted hclauses hs hd hopen htype hhyps hfailed
  obtain rfl : t' = t := ht'.trans ht.symm
  obtain ⟨-, hlisting⟩ := extractSafePrefix_listing hr hl hw hends
  refine ⟨hlisting.nodup .nil, fun y hy => ?_, fun hnone y hy => ?_⟩
  · obtain ⟨⟨k, hk, hleft⟩, hdecl⟩ := (hlisting.adds y hy).resolve_left nofun
    exact ⟨hdecl, k, hk, hleft, extractSafePrefix_closed hr hl hw hends hk hleft,
      fun b hb => (hw.value_of_leftOpen hr hl hlisting.assembled hk hleft hb).2,
      extractSafePrefix_shown hr hl hw hends hleft⟩
  · obtain ⟨⟨k, hk, hleft⟩, -⟩ := (hlisting.adds y hy).resolve_left nofun
    have hclosed := extractSafePrefix_closed hr hl hw hends hk hleft
    exact ⟨(Bool.not_eq_true _).mp fun ha => hnone k (hclosed.1 ha).2,
      extractSafePrefix_shown hr hl hw hends hleft (Tree.InPrefix.shown hk hnone) (hnone k)⟩

theorem listed_goals_sharedHole : ∃ safePrefix reason message stats t,
    ((ofRules sharedHoleRules {} 100).run rootSolver ⟨1⟩).result =
      .ok (.failed safePrefix reason message stats) ∧
    t = ((ofRules sharedHoleRules {} 100).finalRun rootSolver ⟨1⟩).tree ∧
    safePrefix.goals = [⟨3⟩, ⟨4⟩] ∧
    ∀ y ∈ safePrefix.goals, ∃ k, t.InPrefix k ∧ t.LeftOpen k y ∧
      (safePrefix.state.context.isAssigned y = true ↔ y = (t.goal k).var ∧ t.Replaced k) := by
  obtain ⟨safePrefix, reason, message, stats, hfailed, hgoals⟩ := exists_failed
    (ofRules sharedHoleRules {} 100) rootSolver ⟨1⟩ ∅
    (fun safePrefix _ => decide (safePrefix.goals = [⟨3⟩, ⟨4⟩])) rfl (by decide +kernel)
  refine ⟨safePrefix, reason, message, stats, _, hfailed, rfl, of_decide_eq_true hgoals,
    fun y hy => ?_⟩
  obtain ⟨-, hlisted, -⟩ := listed_goals sharedHoleRules {} 100 rootSolver [] ⟨1⟩
    ⟨.const "Root", [], none⟩ safePrefix reason message stats _ (by decide) (.perform _ .empty)
    (by decide) (by decide) (by decide) (by decide) hfailed rfl
  obtain ⟨-, k, hk, hleft, hassigned, -⟩ := hlisted y hy
  exact ⟨k, hk, hleft, hassigned⟩

/-- The goal `P(x)` is listed before the traversal comes to its copy. -/
theorem listed_goal_closed : ∃ safePrefix reason message stats,
    ((ofRules sharedHoleRules {} 100).run rootSolver ⟨1⟩).result =
      .ok (.failed safePrefix reason message stats) ∧
    ⟨3⟩ ∈ safePrefix.goals ∧ safePrefix.state.context.isAssigned ⟨3⟩ = true ∧
    safePrefix.term.occurs ⟨3⟩ = false := by
  obtain ⟨safePrefix, reason, message, stats, hfailed, htest⟩ := exists_failed
    (ofRules sharedHoleRules {} 100) rootSolver ⟨1⟩ ∅
    (fun safePrefix _ => decide (⟨3⟩ ∈ safePrefix.goals) &&
      safePrefix.state.context.isAssigned ⟨3⟩ && !safePrefix.term.occurs ⟨3⟩) rfl
    (by decide +kernel)
  simp only [Bool.and_eq_true, decide_eq_true_eq, Bool.not_eq_true'] at htest
  exact ⟨safePrefix, reason, message, stats, hfailed, htest.1.1, htest.1.2, htest.2⟩

end Search

end ProofSearch
