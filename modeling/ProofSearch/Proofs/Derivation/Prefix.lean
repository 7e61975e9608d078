import ProofSearch.Answer.SafePrefix
import ProofSearch.Proofs.Derivation.Assembly
import ProofSearch.Proofs.Derivation.VarHistorySteps

/-!
# Safe prefixes

A search that fails returns what normalization and safe rules have built, with the goals that are
left open.

1. `Tree.InPrefix`, `Tree.Passed`: the goals of the safe prefix, and the stages that it is copied
   from.
2. `Listing`: what a part of the traversal copies and lists.
3. `yields_prefixGoal`, `extractSafePrefix_listing`: what the traversal leaves is listed or
   assigned.
4. `VarHistory.exists_belongs`: what a passed stage leaves open is the variable of a goal of the
   prefix.
5. `holes_listed`: no variable of the term is missing from the list.
-/

namespace ProofSearch

open Solver

variable {P : Problem} {L : Ledger} {t : Tree}

/-! ## Goals and stages of the prefix -/

namespace Tree

/-- The goal `k` is below the first safe application of `g`. -/
def PrefixChild (t : Tree) (g k : GoalId) : Prop := ∃ x post r, (t.goal g).norm = .normal x post ∧
  t.safeApplication? g = some r ∧ k ∈ t.subgoalIds r

/-- The goal `k` is passed below `g`. -/
abbrev PrefixBelow (t : Tree) : GoalId → GoalId → Prop := Relation.ReflTransGen t.PrefixChild

/-- The goal belongs to the safe prefix. -/
abbrev InPrefix (t : Tree) (k : GoalId) : Prop := t.PrefixBelow Tree.root k

/-- The stages that the safe prefix is copied from. -/
inductive Passed (t : Tree) : Stage → Prop
  | start : t.Passed .start
  | normal {g : GoalId} {post : Snapshot} : t.InPrefix g → (t.goal g).normPost? = some post →
      t.Passed (.normal g)
  | applied {g : GoalId} {x : Var} {post : Snapshot} {r : ApplicationId} : t.InPrefix g →
      (t.goal g).norm = .normal x post → t.safeApplication? g = some r → t.Passed (.applied r)

/-- The states recorded at these stages. -/
def PrefixSource (t : Tree) (m : Snapshot) : Prop :=
  ∃ τ, t.Passed τ ∧ t.chart.at? τ = some m.context

/-- The variable is that of the goal, before or after its normalization. -/
def Belongs (t : Tree) (k : GoalId) (y : Var) : Prop :=
  y = (t.goal k).var ∨ (t.goal k).normVar? = some y

/-- The traversal stops at the goal `k` with the variable `y`. -/
def LeftOpen (t : Tree) (k : GoalId) (y : Var) : Prop :=
  (t.goal k).norm = .notNormal ∧ y = (t.goal k).var ∨
    ∃ post, (t.goal k).norm = .normal y post ∧ t.safeApplication? k = none

/-- What is copied for the goal `k` assigns `y`. -/
def Closes (t : Tree) (k : GoalId) (y : Var) : Prop :=
  (∃ post, (t.goal k).normPost? = some post ∧ y = (t.goal k).var ∧
    post.context.isAssigned (t.goal k).var = true) ∨
  ∃ x post r, (t.goal k).norm = .normal x post ∧ t.safeApplication? k = some r ∧
    (y = x ∨ y ∈ (t.application r).assigned)

variable {g k : GoalId} {σ τ : Stage}

theorem Linked.safeApplication (hl : t.Linked) (hg : t.HasGoal g) {r : ApplicationId}
    (h : t.safeApplication? g = some r) : r ∈ (t.goal g).applications ∧ t.HasApplication r ∧
      (t.application r).parent = g ∧ (t.application r).rule.kind.isSafe = true := by
  have hmem := List.mem_of_find?_eq_some h
  have hsafe := List.find?_some h
  exact ⟨hmem, (hl.applicationChild g hg r hmem).1, (hl.applicationChild g hg r hmem).2, hsafe⟩

theorem Linked.parentApplication?_root (hl : t.Linked) :
    t.parentApplication? Tree.root = none := by
  obtain ⟨hhas, hparent, hgoals⟩ := hl.rootCluster
  obtain ⟨-, hcluster⟩ := hl.member _ hhas Tree.root (hgoals ▸ List.mem_singleton_self _)
  rw [Tree.parentApplication?, hcluster, hparent]

theorem InPrefix.hasGoal (h : t.InPrefix k) (hl : t.Linked) : t.HasGoal k := by
  induction h with
  | refl => exact hl.root
  | tail _ hk ih =>
    obtain ⟨x, post, r, -, hr, hk⟩ := hk
    exact ((hl.mem_subgoalIds (hl.safeApplication ih hr).2.1).1 hk).1

section

variable {x y : Var} {post : Snapshot} {r : ApplicationId} {φ : GoalId → Prop}

/-- Nothing is passed below a goal without a safe application. -/
theorem exists_below_leaf
    (hleaf : ∀ x post r, (t.goal g).norm = .normal x post → t.safeApplication? g ≠ some r) :
    (∃ k, t.PrefixBelow g k ∧ φ k) ↔ φ g := by
  refine ⟨fun ⟨k, hk, h⟩ => ?_, fun h => ⟨g, .refl, h⟩⟩
  rcases Relation.ReflTransGen.cases_head hk with rfl | ⟨j, ⟨x, post, r, hx, hr, -⟩, -⟩
  · exact h
  · exact (hleaf x post r hx hr).elim

/-- Below a goal with a safe application the goals of the application are passed. -/
theorem exists_below_safe (hnorm : (t.goal g).norm = .normal x post)
    (hr : t.safeApplication? g = some r) :
    (∃ k, t.PrefixBelow g k ∧ φ k) ↔ φ g ∨ ∃ j ∈ t.subgoalIds r, ∃ k, t.PrefixBelow j k ∧ φ k := by
  refine ⟨fun ⟨k, hk, h⟩ => ?_, ?_⟩
  · rcases Relation.ReflTransGen.cases_head hk with rfl | ⟨j, ⟨_, _, q, -, hq, hj⟩, hjk⟩
    · exact .inl h
    · obtain rfl := Option.some.inj (hr.symm.trans hq)
      exact .inr ⟨j, hj, k, hjk, h⟩
  · rintro (h | ⟨j, hj, k, hk, h⟩)
    · exact ⟨g, .refl, h⟩
    · exact ⟨k, .head ⟨x, post, r, hnorm, hr, hj⟩ hk, h⟩

theorem leftOpen_notNormal (h : (t.goal k).norm = .notNormal) :
    t.LeftOpen k y ↔ y = (t.goal k).var := by
  simp [LeftOpen, h]

theorem leftOpen_proven (h : (t.goal k).norm = .proven post) : t.LeftOpen k y ↔ False := by
  simp [LeftOpen, h]

theorem leftOpen_normal (h : (t.goal k).norm = .normal x post) :
    t.LeftOpen k y ↔ y = x ∧ t.safeApplication? k = none := by
  simp [LeftOpen, h, eq_comm]

theorem closes_notNormal (h : (t.goal k).norm = .notNormal) : t.Closes k y ↔ False := by
  simp [Closes, Goal.normPost?, h]

theorem closes_proven (h : (t.goal k).norm = .proven post) : t.Closes k y ↔
    y = (t.goal k).var ∧ post.context.isAssigned (t.goal k).var = true := by
  simp [Closes, Goal.normPost?, h]

theorem closes_normal (h : (t.goal k).norm = .normal x post) : t.Closes k y ↔
    (y = (t.goal k).var ∧ post.context.isAssigned (t.goal k).var = true) ∨
      ∃ r, t.safeApplication? k = some r ∧ (y = x ∨ y ∈ (t.application r).assigned) := by
  simp [Closes, Goal.normPost?, h]

end

/-- A goal of the prefix was made at a stage that is passed. -/
theorem InPrefix.passed_home (h : t.InPrefix k) (hl : t.Linked) : t.Passed (t.home k) := by
  rcases Relation.ReflTransGen.cases_tail h with rfl | ⟨g, hg, x, post, r, hnorm, hr, hk⟩
  · rw [home, hl.parentApplication?_root]
    exact .start
  · have hhas := (hl.safeApplication (InPrefix.hasGoal hg hl) hr).2.1
    rw [home, ((hl.mem_subgoalIds hhas).1 hk).2]
    exact .applied hg hnorm hr

theorem Passed.before (h : t.Passed τ) (hl : t.Linked) (hb : t.chart.before? τ = some σ) :
    t.Passed σ := by
  cases h with
  | start => cases hb
  | normal hg => exact Option.some.inj hb ▸ InPrefix.passed_home hg hl
  | @applied g x post r hg hnorm hr =>
    obtain ⟨-, -, hparent, -⟩ := hl.safeApplication (InPrefix.hasGoal hg hl) hr
    obtain rfl : Stage.normal (t.application r).parent = σ := Option.some.inj hb
    rw [hparent]
    exact .normal hg (by rw [Goal.normPost?, hnorm])

/-- All stages on the way to a passed stage are passed. -/
theorem Passed.leads (h : t.Passed τ) (hl : t.Linked) (hlead : t.chart.Leads σ τ) : t.Passed σ := by
  induction hlead using Relation.ReflTransGen.head_induction_on with
  | refl => exact h
  | head hb _ ih => exact ih.before hl hb

end Tree

theorem Recorded.prefixSource (h : Recorded P L t) {m : Snapshot} (hm : t.PrefixSource m) :
    Conforms P L m.context := by
  obtain ⟨τ, -, hat⟩ := hm
  exact h.conforms_at hat

/-- The variables of a goal are assigned by what is copied for it, or one of them is left open. -/
theorem Recorded.closes_or_leftOpen (h : Recorded P L t) {k : GoalId} {y : Var}
    (hy : t.Belongs k y) : t.Closes k y ∨ t.LeftOpen k y := by
  have hkept := h.goal k
  cases hnorm : (t.goal k).norm with
  | notNormal =>
    refine .inr ((Tree.leftOpen_notNormal hnorm).2 (hy.resolve_right fun hx => ?_))
    rw [Goal.normVar?, hnorm] at hx
    cases hx
  | proven post =>
    rcases hy with rfl | hx
    · exact .inl ((Tree.closes_proven hnorm).2 ⟨rfl, hkept.closed post hnorm⟩)
    · rw [Goal.normVar?, hnorm] at hx
      cases hx
  | normal x post =>
    rw [Tree.closes_normal hnorm, Tree.leftOpen_normal hnorm]
    have hrest (he : y = x) : (∃ r, t.safeApplication? k = some r ∧
        (y = x ∨ y ∈ (t.application r).assigned)) ∨ y = x ∧ t.safeApplication? k = none := by
      cases hsafe : t.safeApplication? k with
      | none => exact .inr ⟨he, rfl⟩
      | some r => exact .inl ⟨r, rfl, .inl he⟩
    rcases hy with rfl | hx
    · rcases (hkept.normal x post hnorm).2 with he | ha
      · exact (hrest he).imp_left .inr
      · exact .inl (.inl ⟨rfl, ha⟩)
    · rw [Goal.normVar?, hnorm] at hx
      exact (hrest (Option.some.inj hx).symm).imp_left .inr

/-! ## What the traversal lists -/

/-- From the context `f` with the list `found` to `n` with `found'`: what was there is kept, the
context stays assembled, the variables in `ws` are assigned, those in `zs` are assigned or listed,
and only those in `zs` are listed. -/
structure Listing (P : Problem) (S : Snapshot → Prop) (ws zs : Var → Prop) (f : Context)
    (found : List Var) (n : Context) (found' : List Var) : Prop where
  declares : ∀ y, f.isDeclared y = true → n.isDeclared y = true
  keeps : ∀ y, f.isAssigned y = true → n.isAssigned y = true
  assembled : Assembled P S n
  listed : ∀ y ∈ found, y ∈ found'
  assigned : ∀ y, ws y → n.isAssigned y = true
  covers : ∀ y, zs y → n.isAssigned y = true ∨ y ∈ found'
  nodup : found.Nodup → found'.Nodup
  adds : ∀ y ∈ found', y ∈ found ∨ zs y ∧ n.isDeclared y = true

namespace Listing

variable {S : Snapshot → Prop} {ws ws' zs zs' : Var → Prop} {f n k : Context}
  {found found' found'' : List Var}

theorem trans (h : Listing P S ws zs f found n found')
    (h' : Listing P S ws' zs' n found' k found'') :
    Listing P S (fun y => ws y ∨ ws' y) (fun y => zs y ∨ zs' y) f found k found'' where
  declares y hy := h'.declares y (h.declares y hy)
  keeps y hy := h'.keeps y (h.keeps y hy)
  assembled := h'.assembled
  listed y hy := h'.listed y (h.listed y hy)
  assigned y hy := hy.elim (fun hy => h'.keeps y (h.assigned y hy)) (h'.assigned y)
  covers y hy := hy.elim (fun hy => (h.covers y hy).imp (h'.keeps y) (h'.listed y)) (h'.covers y)
  nodup hn := h'.nodup (h.nodup hn)
  adds y hy := by
    rcases h'.adds y hy with hy | ⟨hz, hd⟩
    · exact (h.adds y hy).imp_right fun ⟨hz, hd⟩ => ⟨.inl hz, h'.declares y hd⟩
    · exact .inr ⟨.inr hz, hd⟩

end Listing

/-- Copying lists nothing. -/
theorem Gathers.listing {S : Snapshot → Prop} {ws : Var → Prop} {f n : Context}
    (h : Gathers P S ws f n) (found : List Var) :
    Listing P S ws (fun _ => False) f found n found :=
  ⟨h.declares, h.keeps, h.assembled, fun _ => id, h.assigned, fun _ => False.elim, id,
    fun _ => .inl⟩

section

variable {S : Snapshot → Prop} {s : Solver} {guard : DepthGuard} {found : List Var}

/-- A goal is left open. -/
theorem yields_leaveOpen {m : Snapshot} {x : Var} (hS : ∀ m, S m → Conforms P L m.context)
    (hs : Assembled P S s.context) (hm : S m) (ho : P.Own x) (hd : m.context.isDeclared x = true) :
    Yields (Tree.leaveOpen m guard x found) s (fun _ => True) fun found' u =>
      Listing P S (fun _ => False) (· = x) s.context found u.context found' := by
  unfold Tree.leaveOpen Transplant.copyDecl
  refine yields_bind ((yields_copyDeclWith hS hm ho hd hs fun inner _ y hy hyd u hu _ =>
    Transplant.copyBinding_eq _ inner y ▸
      yields_copyNested hS hm hy hyd hu (Context.copyCost_lt_nestingBound _ _ _)).errors
      fun _ _ => trivial) fun _ u ⟨hsu, hu, hdeclared⟩ => ?_
  refine yields_bind (yields_get (Q := fun a w => u = a ∧ u = w) ⟨rfl, rfl⟩) ?_
  rintro _ _ ⟨rfl, rfl⟩
  split
  · next hfound =>
    rw [Bool.or_eq_true, decide_eq_true_eq] at hfound
    refine yields_pure ⟨hsu.declared, fun y => hsu.isAssigned, hu, fun _ => id,
      fun _ => False.elim, ?_, id, fun _ => .inl⟩
    rintro y rfl
    exact hfound
  · next hnew =>
    rw [Bool.or_eq_true, decide_eq_true_eq, not_or] at hnew
    refine yields_pure ⟨hsu.declared, fun y => hsu.isAssigned, hu,
      fun y hy => List.mem_append_left _ hy, fun _ => False.elim, ?_, fun hn => ?_, fun y hy => ?_⟩
    · rintro y rfl
      exact .inr (List.mem_append_right _ (List.mem_singleton_self y))
    · refine List.nodup_append'.2 ⟨hn, List.nodup_singleton x, fun y hy hx => ?_⟩
      rw [List.mem_singleton.1 hx] at hy
      exact hnew.2 hy
    · rcases List.mem_append.1 hy with hy | hy
      · exact .inl hy
      · rw [List.mem_singleton.1 hy]
        exact .inr ⟨rfl, hdeclared⟩

/-- Goals are passed one after the other. -/
theorem yields_prefixGoals {f : List Var → GoalId → SolverM SearchError (List Var)}
    {gs : List GoalId} (hs : Assembled P S s.context) (ws zs : GoalId → Var → Prop)
    (hf : ∀ g ∈ gs, ∀ (u : Solver) (found : List Var), Assembled P S u.context →
      Yields (f found g) u (fun _ => True) fun found' w =>
        Listing P S (ws g) (zs g) u.context found w.context found') :
    Yields (gs.foldlM f found) s (fun _ => True) fun found' u =>
      Listing P S (fun y => ∃ g ∈ gs, ws g y) (fun y => ∃ g ∈ gs, zs g y) s.context found u.context
        found' := by
  induction gs generalizing s found with
  | nil =>
    exact yields_pure ⟨fun _ => id, fun _ => id, hs, fun _ => id, nofun, nofun, id, fun _ => .inl⟩
  | cons g gs ih =>
    rw [List.foldlM_cons]
    refine yields_bind (hf g List.mem_cons_self s found hs) fun found' u hu => ?_
    refine (ih hu.assembled fun k hk => hf k (List.mem_cons_of_mem g hk)).mono fun _ w hw => ?_
    simpa only [List.exists_mem_cons_iff] using hu.trans hw

/-- What is copied for a goal below is assigned, and what is left open there is assigned or
listed. -/
theorem yields_prefixGoal (hr : Recorded P L t) (hl : t.Linked) (hw : VarHistory P t) {fuel : Nat}
    {g : GoalId} (hg : t.InPrefix g) (hs : Assembled P t.PrefixSource s.context) :
    Yields (t.prefixGoal fuel guard g found) s (fun _ => True) fun found' u =>
      Listing P t.PrefixSource (fun y => ∃ k, t.PrefixBelow g k ∧ t.Closes k y)
        (fun y => ∃ k, t.PrefixBelow g k ∧ t.LeftOpen k y) s.context found u.context found' := by
  have hS (m : Snapshot) : t.PrefixSource m → Conforms P L m.context := hr.prefixSource
  induction fuel generalizing guard g s found with
  | zero => exact yields_throw trivial
  | succ fuel ih =>
    have hhas := Tree.InPrefix.hasGoal hg hl
    have hkept := hr.goal g
    have hpassed {post : Snapshot} (hpost : (t.goal g).normPost? = some post) :
        t.PrefixSource post := ⟨_, .normal hg hpost, Tree.chart_normal hpost⟩
    unfold Tree.prefixGoal
    cases hnorm : (t.goal g).norm with
    | notNormal =>
      have hdeclared := Context.isDeclared_of_dependencies (hw.deps g hhas)
      have hm : t.PrefixSource (t.preState g) :=
        ⟨_, Tree.InPrefix.passed_home hg hl, hl.chart_home hhas⟩
      refine (yields_leaveOpen hS hs hm (hr.own g hhas) hdeclared).mono fun _ u hu => ?_
      have hleaf (φ : GoalId → Prop) : (∃ k, t.PrefixBelow g k ∧ φ k) ↔ φ g :=
        Tree.exists_below_leaf fun x post r hx => by cases hnorm.symm.trans hx
      simpa only [hleaf, Tree.closes_notNormal hnorm, Tree.leftOpen_notNormal hnorm] using hu
    | proven post =>
      have hpost : (t.goal g).normPost? = some post := by rw [Goal.normPost?, hnorm]
      refine yields_bind ((yields_copyNormalization hS hs hr (hpassed hpost) hhas
        (Context.isDeclared_of_isAssigned (hkept.closed post hnorm))).errors fun _ _ => trivial)
        fun _ u hu => yields_pure ?_
      have hleaf (φ : GoalId → Prop) : (∃ k, t.PrefixBelow g k ∧ φ k) ↔ φ g :=
        Tree.exists_below_leaf fun x post r hx => by cases hnorm.symm.trans hx
      simpa only [hleaf, Tree.closes_proven hnorm, Tree.leftOpen_proven hnorm] using
        hu.listing found
    | normal x post =>
      have hpost : (t.goal g).normPost? = some post := by rw [Goal.normPost?, hnorm]
      have hvar : (t.goal g).normVar? = some x := by rw [Goal.normVar?, hnorm]
      refine yields_bind ((yields_copyNormalization hS hs hr (hpassed hpost) hhas
        (hkept.normal x post hnorm).1).errors fun _ _ => trivial) fun _ u hu => ?_
      cases hsafe : t.safeApplication? g with
      | none =>
        refine (yields_leaveOpen hS hu.assembled (hpassed hpost) (hkept.var x hvar)
          ((hw.normal g post hpost).goal x hvar).1).mono fun _ w hw => ?_
        have hleaf (φ : GoalId → Prop) : (∃ k, t.PrefixBelow g k ∧ φ k) ↔ φ g :=
          Tree.exists_below_leaf fun _ _ r _ hr => by cases hsafe.symm.trans hr
        simpa only [hleaf, Tree.closes_normal hnorm, Tree.leftOpen_normal hnorm, hsafe,
          reduceCtorEq, false_and, exists_false, and_true, false_or] using (hu.listing found).trans hw
      | some r =>
        obtain ⟨happ, hhasr, -, -⟩ := hl.safeApplication hhas hsafe
        refine yields_bind ((yields_copyApplication hS hu.assembled hr
          ⟨_, .applied hg hnorm hsafe, Tree.chart_applied hhasr⟩ hnorm happ).errors
          fun _ _ => trivial) fun _ w hw' => ?_
        refine (yields_prefixGoals hw'.assembled
          (fun g y => ∃ k, t.PrefixBelow g k ∧ t.Closes k y)
          (fun g y => ∃ k, t.PrefixBelow g k ∧ t.LeftOpen k y) fun k hk v found' hv => ?_).mono
          fun _ v hv => ?_
        · refine yields_bind (yields_enter (Q := fun _ w => v = w) (fun _ _ => trivial)
            fun _ _ => rfl) ?_
          rintro inner _ rfl
          exact ih (hg.tail ⟨x, post, r, hnorm, hsafe, hk⟩) hv
        · simpa only [Tree.exists_below_safe hnorm hsafe, Tree.closes_normal hnorm,
            Tree.leftOpen_normal hnorm, hsafe, Option.some.injEq, exists_eq_left', reduceCtorEq,
            and_false] using ((hu.trans hw').listing found).trans hv

end

/-- The extracted prefix is put together from the passed stages, and lists what is left open. -/
theorem extractSafePrefix_listing (hr : Recorded P L t) (hl : t.Linked) (hw : VarHistory P t)
    {limit : Nat} {s s' : Solver} {found : SafePrefix}
    (he : Ends (t.extractSafePrefix limit) s found s') :
    found.term = found.state.context.instantiate (.var P.root) ∧
      Listing P t.PrefixSource (fun y => ∃ k, t.InPrefix k ∧ t.Closes k y)
        (fun y => ∃ k, t.InPrefix k ∧ t.LeftOpen k y) t.rootState.context [] found.state.context
        found.goals := by
  have hstart : Assembled P t.PrefixSource t.rootState.context :=
    .of_conforms hr.root ⟨.start, .start, rfl⟩
  refine Yields.of_ends (E := fun _ => True) (Q := fun found _ =>
    found.term = found.state.context.instantiate (.var P.root) ∧ Listing P t.PrefixSource
      (fun y => ∃ k, t.InPrefix k ∧ t.Closes k y) (fun y => ∃ k, t.InPrefix k ∧ t.LeftOpen k y)
      t.rootState.context [] found.state.context found.goals) ?_ he
  rw [Tree.extractSafePrefix_eq]
  refine yields_bind (yields_lift (Q := fun _ u => u.context = t.rootState.context) rfl)
    fun _ u hu => ?_
  refine yields_bind (yields_prefixGoal hr hl hw .refl (hu ▸ hstart)) fun goals v hv => ?_
  refine yields_bind (yields_get (Q := fun a w => v = a ∧ v = w) ⟨rfl, rfl⟩) ?_
  rintro _ _ ⟨rfl, rfl⟩
  refine yields_pure ⟨congrArg (fun x => v.context.instantiate (.var x)) hr.rootVar, ?_⟩
  rw [hu] at hv
  exact hv

/-! ## Variables that are left open -/

/-- What a passed stage declares and leaves open is the variable of a goal of the prefix. -/
theorem VarHistory.exists_belongs (hw : VarHistory P t) (hr : Recorded P L t) (hl : t.Linked)
    {m : Snapshot} {y : Var} (hm : t.PrefixSource m) (ho : P.Own y)
    (hd : m.context.isDeclared y = true) (hopen : m.context.isAssigned y = false) :
    ∃ k, t.InPrefix k ∧ t.Belongs k y := by
  obtain ⟨τ, hpassed, hat⟩ := hm
  obtain ⟨β, hlead, n, hn, hdecl, hbefore⟩ :=
    (hw.chart.path τ _ hat).exists_first (φ := fun k => k.isDeclared y = true) hd
  -- The variable was open when it was made.
  have hborn : n.isAssigned y = false := by
    refine (Bool.not_eq_true _).mp fun ha => ?_
    obtain ⟨b, hb⟩ := Option.isSome_iff_exists.1 ha
    rw [Context.isAssigned, (hw.chart.leads hlead hn hat).2 y b hb] at hopen
    cases hopen
  cases hpassed.leads hl hlead with
  | start =>
    obtain rfl := Option.some.inj hn
    refine ⟨Tree.root, .refl, .inl ?_⟩
    rw [hr.rootVar]
    exact (hw.root y ho hdecl).1
  | @normal g post hg hpost =>
    obtain rfl := Option.some.inj ((Tree.chart_normal hpost).symm.trans hn)
    have hnot := hbefore _ _ rfl (hl.chart_home (Tree.InPrefix.hasGoal hg hl))
    have hnew := (hw.normal g post hpost).spans.new y hdecl ((Bool.not_eq_true _).mp hnot)
    exact ⟨g, hg, .inr (hnew.2.resolve_left fun ha => by cases hborn.symm.trans ha)⟩
  | @applied g x post r hg hnorm hsafe =>
    obtain ⟨-, hhas, hparent, -⟩ := hl.safeApplication (Tree.InPrefix.hasGoal hg hl) hsafe
    obtain rfl := Option.some.inj ((Tree.chart_applied hhas).symm.trans hn)
    obtain ⟨z, state, hz, ha⟩ := hw.applied r hhas
    have hnot := hbefore _ _ rfl (Tree.chart_normal (by rw [Goal.normPost?, hz]))
    have hnew := (ha.spans.new y hdecl ((Bool.not_eq_true _).mp hnot)).2
    obtain ⟨k, hk, rfl⟩ := hnew.resolve_left fun ha => by cases hborn.symm.trans ha
    exact ⟨k, hg.tail ⟨x, post, r, hnorm, hsafe, (hl.mem_subgoalIds hhas).2 hk⟩, .inl rfl⟩

/-- A variable in the value of `x` is open, and if it is not `x` itself some state has left it
open. -/
theorem Assembled.open_of_occurs {S : Snapshot → Prop} {f : Context} {x y : Var}
    (h : Assembled P S f) (hS : ∀ m, S m → Conforms P L m.context) (ho : P.Own x)
    (hy : (f.instantiate (.var x)).occurs y = true) : f.isAssigned y = false ∧ (y = x ∨ ∃ m, S m ∧
      P.Own y ∧ m.context.isDeclared y = true ∧ m.context.isAssigned y = false) := by
  induction h.plain x ho with
  | @unbound x hb =>
    rw [Context.instantiate_open hb] at hy
    obtain rfl : x = y := by simpa [Term.occurs] using hy
    exact ⟨by rw [Context.isAssigned, hb]; rfl, .inl rfl⟩
  | @value x v hb hall ih =>
    rw [(Context.Plain.value hb hall).instantiate_eq hb, Context.occurs_instantiate] at hy
    obtain ⟨z, hz, hzy⟩ := hy
    obtain ⟨m, u, hm, hu, hmu, hmore⟩ := h.value x _ ho hb
    cases hu
    obtain ⟨u, hu, hfit⟩ := (hS m hm).value x _ ho hmu
    cases hu
    obtain ⟨hown, hdecl⟩ := hfit.own_declared hz
    obtain ⟨hopen, rfl | hy⟩ := ih z hz hown hzy
    · refine ⟨hopen, .inr ⟨m, hm, hown, hdecl, (Bool.not_eq_true _).mp fun ha => ?_⟩⟩
      cases hopen.symm.trans (hmore y hz ha)
    · exact ⟨hopen, .inr hy⟩

/-- No variable of the term is missing from the list. -/
theorem extractSafePrefix_lists (hr : Recorded P L t) (hl : t.Linked) (hw : VarHistory P t)
    {limit : Nat} {s s' : Solver} {found : SafePrefix}
    (he : Ends (t.extractSafePrefix limit) s found s') {y : Var}
    (hy : found.term.occurs y = true) : y ∈ found.goals := by
  obtain ⟨hterm, hlisting⟩ := extractSafePrefix_listing hr hl hw he
  rw [hterm] at hy
  obtain ⟨hopen, hy⟩ := hlisting.assembled.open_of_occurs (fun _ => hr.prefixSource) (.inl rfl) hy
  have hbelongs : ∃ k, t.InPrefix k ∧ t.Belongs k y := by
    rcases hy with rfl | ⟨m, hm, ho, hd, ha⟩
    · exact ⟨Tree.root, .refl, .inl hr.rootVar.symm⟩
    · exact hw.exists_belongs hr hl hm ho hd ha
  obtain ⟨k, hk, hy⟩ := hbelongs
  have hnot : found.state.context.isAssigned y ≠ true := fun ha => nomatch hopen.symm.trans ha
  have hleft := (hr.closes_or_leftOpen hy).resolve_left fun hc =>
    hnot (hlisting.assigned y ⟨k, hk, hc⟩)
  exact (hlisting.covers y ⟨k, hk, hleft⟩).resolve_left hnot

namespace Search

/-- The safe prefix of a failed search is extracted from its final tree, of which the invariants
hold. -/
theorem failed_extracted {rules : List RuleSpec} {options : Options} {fuel : Nat} {s : Solver}
    {saved : List Snapshot} {root : Var} {d : VarDecl} {safePrefix : SafePrefix}
    {reason : FailureReason} {message : String} {stats : Stats}
    (hclauses : ∀ c ∈ RuleSpec.clauses rules, c.isClosed = true) (hs : Built s saved)
    (hd : s.context.decl? root = some d) (hopen : s.context.isAssigned root = false)
    (htype : d.type.hasVar = false) (hhyps : ∀ h ∈ d.hyps, h.type.hasVar = false)
    (hfailed : ((ofRules rules options fuel).run s root).result =
      .ok (.failed safePrefix reason message stats)) :
    ∃ P L t u v, t = ((ofRules rules options fuel).finalRun s root).tree ∧ Recorded P L t ∧
      t.Linked ∧ VarHistory P t ∧
      Ends (t.extractSafePrefix options.maxRecursionDepth) u safePrefix v := by
  obtain ⟨vars, hvars⟩ := Context.exists_dependencies (Context.isDeclared_of_decl? hd)
  obtain ⟨sc, hsteps, htree, hends⟩ := runAll_failed (regular_ofRules rules options fuel)
    (valid_start s root vars) (run_ends hvars hfailed).1
  obtain ⟨P, L, hk, hlinked⟩ :=
    exists_sceneHistory hclauses hs hd hopen htype hhyps hvars hsteps
  exact ⟨P, L, _, _, _, htree.symm, hk.kept.tree, hlinked, hk.history, hends⟩

/-- Every variable of the term of a safe prefix is among the goals that the prefix lists. -/
theorem holes_listed (rules : List RuleSpec) (options : Options) (fuel : Nat) (s : Solver)
    (saved : List Snapshot) (root : Var) (d : VarDecl) (safePrefix : SafePrefix)
    (reason : FailureReason) (message : String) (stats : Stats)
    (hclauses : ∀ c ∈ RuleSpec.clauses rules, c.isClosed = true) (hs : Built s saved)
    (hd : s.context.decl? root = some d) (hopen : s.context.isAssigned root = false)
    (htype : d.type.hasVar = false) (hhyps : ∀ h ∈ d.hyps, h.type.hasVar = false)
    (hfailed : ((ofRules rules options fuel).run s root).result =
      .ok (.failed safePrefix reason message stats)) :
    ∀ y, safePrefix.term.occurs y = true → y ∈ safePrefix.goals := by
  obtain ⟨P, L, t, u, v, -, hr, hl, hw, hends⟩ :=
    failed_extracted hclauses hs hd hopen htype hhyps hfailed
  exact fun y => extractSafePrefix_lists hr hl hw hends

/-! ## A goal and its copy -/

/-- A search that fails with a safe prefix which passes a test returns the prefix. -/
theorem exists_failed (search : Search) (s : Solver) (goal : Var) (vars : VarSet)
    (p : SafePrefix → Run → Bool) (hvars : s.context.dependencies goal = .ok vars)
    (h : (match search.runAll.run.run (search.start s (.ofGoal goal vars s.state)) with
      | (.ok (.failed safePrefix _ _ _), final) => p safePrefix final
      | _ => false) = true) :
    ∃ safePrefix reason message stats,
      (search.run s goal).result = .ok (.failed safePrefix reason message stats) ∧
      p safePrefix (search.finalRun s goal) = true := by
  split at h
  · next safePrefix reason message stats final hends =>
    obtain ⟨hresult, hfinal, -⟩ := run_of_ends hvars hends
    rw [hfinal]
    exact ⟨safePrefix, reason, message, stats, hresult, h⟩
  · cases h

def sharedHole : Clause where
  name := "c"
  params := [("x", .const "X")]
  premises := [.app "P" [.hyp "x"]]
  conclusion := .const "Root"

/-- The goal `P(x)` depends on `x`, so the fact for `X` copies it. -/
def sharedHoleRules : List RuleSpec :=
  [⟨"c", .safe 0 .safe, [.target "Root"], .clause sharedHole⟩,
    ⟨"a", .safe 0 .safe, [.target "X"], .clause ⟨"a", [], [], .const "X"⟩⟩]

theorem holes_listed_sharedHole : ∃ safePrefix reason message stats,
    ((ofRules sharedHoleRules {} 100).run rootSolver ⟨1⟩).result =
      .ok (.failed safePrefix reason message stats) ∧
    safePrefix.term = .apply "c" [.apply "a" [], .var ⟨4⟩] ∧
    ∀ y, safePrefix.term.occurs y = true → y ∈ safePrefix.goals := by
  obtain ⟨safePrefix, reason, message, stats, hfailed, hterm⟩ := exists_failed
    (ofRules sharedHoleRules {} 100) rootSolver ⟨1⟩ ∅
    (fun safePrefix _ => decide (safePrefix.term = .apply "c" [.apply "a" [], .var ⟨4⟩])) rfl
    (by decide +kernel)
  refine ⟨safePrefix, reason, message, stats, hfailed, of_decide_eq_true hterm, ?_⟩
  exact holes_listed sharedHoleRules {} 100 rootSolver [] ⟨1⟩ ⟨.const "Root", [], none⟩ safePrefix
    reason message stats (by decide) (.perform _ .empty) (by decide) (by decide) (by decide)
    (by decide) hfailed

end Search

end ProofSearch
