import Mathlib.Algebra.Order.BigOperators.Group.List
import Mathlib.Algebra.Order.Group.Nat
import ProofSearch.Proofs.Answer.Declarations
import ProofSearch.Proofs.Answer.Excerpt

/-!
# Depth limits

Extraction may be run under a limit on its nesting.  The limit is read wherever a level is entered,
in the walk through the tree and in the copying of variables, so a run under a limit and a run under
a higher one are in step until the first is cut off.

1. `DepthGuard.Tightens`: two guards at the same depth, the first with the lower limit.
2. `InStep`: a computation does what another one does, or is cut off.  `inStep_bind`, `inStep_forM`
   and `inStep_enter` take two computations apart together.
3. `inStep_copyNested`, `Tree.inStep_extractGoal`, `Tree.inStep_prefixGoal`: copying and walking.
4. `Tree.extraction_onlyCutOff`: a limit only ever cuts extraction off.
-/

namespace ProofSearch

/-! ## Guards -/

namespace DepthGuard

variable {n : Nat} {g h : DepthGuard}

/-- Both guards are at the same depth.  The first has the limit `n`, and the second has a higher
limit or none. -/
structure Tightens (n : Nat) (g h : DepthGuard) : Prop where
  pos : 0 < n
  limit : g.limit = n
  depth : h.depth = g.depth
  higher : h.limit = 0 ∨ n ≤ h.limit

theorem tightens_ofLimit {k : Nat} (hn : 0 < n) (hk : k = 0 ∨ n ≤ k) :
    Tightens n (ofLimit n) (ofLimit k) := ⟨hn, rfl, rfl, hk⟩

/-- Where the lower limit lets a level be entered, so does the higher one. -/
theorem Tightens.enter (hgh : Tightens n g h) :
    (n ≤ g.depth ∧ g.enter = .error (.recursionLimit n)) ∨
      ∃ inner inner', g.enter = .ok inner ∧ h.enter = .ok inner' ∧ Tightens n inner inner' ∧
        inner.depth = g.depth + 1 := by
  obtain ⟨hpos, rfl, hdepth, hhigher⟩ := hgh
  by_cases hreached : g.limit ≤ g.depth
  · exact .inl ⟨hreached, if_pos ⟨by omega, hreached⟩⟩
  · exact .inr ⟨{ g with depth := g.depth + 1 }, { h with depth := h.depth + 1 },
      if_neg (by omega), if_neg (by omega), ⟨hpos, rfl, congrArg (· + 1) hdepth, hhigher⟩, rfl⟩

end DepthGuard

/-! ## Computations in step -/

section

variable {α β : Type} {n : Nat} {cut : Prop} {E : SearchError → Prop} {s : Solver}
  {x y : SolverM SearchError α} {Q : α → Solver → Prop}

/-- Started in `s`, `x` does what `y` does or is cut off at the limit `n`, which needs `cut`.  The
errors of `x` are in `E`, and its results in `Q`. -/
structure InStep (n : Nat) (cut : Prop) (E : SearchError → Prop) (x y : SolverM SearchError α)
    (s : Solver) (Q : α → Solver → Prop) : Prop where
  same : x.run.run s = y.run.run s ∨ cut ∧ (x.run.run s).1 = .error (.recursionLimit n)
  yields : Yields x s E Q

theorem inStep_refl (h : Yields x s E Q) : InStep n cut E x x s Q := ⟨.inl rfl, h⟩

theorem InStep.mono {cut' : Prop} {E' : SearchError → Prop} {Q' : α → Solver → Prop}
    (h : InStep n cut E x y s Q) (hcut : cut → cut') (hE : ∀ e, E e → E' e)
    (hQ : ∀ a u, Q a u → Q' a u) : InStep n cut' E' x y s Q' :=
  ⟨h.same.imp_right (And.imp_left hcut), (h.yields.mono hQ).errors hE⟩

/-- What never runs out of fuel does not do so under a condition either. -/
theorem InStep.given {cut' P : Prop} (h : InStep n cut (· ≠ .outOfFuel) x y s Q)
    (hcut : cut → cut') : InStep n cut' (fun e => P → e ≠ .outOfFuel) x y s Q :=
  h.mono hcut (fun _ he _ => he) fun _ _ => id

theorem inStep_bind {f f' : α → SolverM SearchError β} {Q' : β → Solver → Prop}
    (hx : InStep n cut E x y s Q) (hf : ∀ a u, Q a u → InStep n cut E (f a) (f' a) u Q') :
    InStep n cut E (x >>= f) (y >>= f') s Q' := by
  refine ⟨?_, yields_bind hx.yields fun a u hq => (hf a u hq).yields⟩
  rcases hx.yields.cases with ⟨a, u, hends, hq⟩ | ⟨e, u, hfails, -⟩
  · have hends : x.run.run s = (.ok a, u) := hends
    rcases hx.same with hsame | ⟨-, hcut⟩
    · rw [run_bind, run_bind, ← hsame, hends]
      exact (hf a u hq).same
    · rw [hends] at hcut
      cases hcut
  · rcases hx.same with hsame | ⟨hc, hcut⟩
    · rw [run_bind, run_bind, ← hsame, hfails]
      exact .inl rfl
    · rw [run_bind, hfails]
      rw [hfails] at hcut
      exact .inr ⟨hc, congrArg Except.error (Except.error.inj hcut)⟩

theorem inStep_forM {f f' : α → SolverM SearchError Unit} {G : Solver → Solver → Prop}
    {as : List α} (hrefl : ∀ u, G u u) (htrans : ∀ u v w, G u v → G v w → G u w)
    (hstep : ∀ a ∈ as, ∀ u, G s u → InStep n cut E (f a) (f' a) u fun _ v => G u v) :
    InStep n cut E (as.forM f) (as.forM f') s fun _ u => G s u := by
  induction as generalizing s with
  | nil => exact inStep_refl (yields_pure (hrefl s))
  | cons a as ih =>
    refine inStep_bind (hstep a List.mem_cons_self s (hrefl s)) fun _ u hu => ?_
    exact (ih fun b hb v hv => hstep b (List.mem_cons_of_mem a hb) v (htrans _ _ _ hu hv)).mono id
      (fun _ => id) fun _ v hv => htrans _ _ _ hu hv

theorem inStep_foldlM {f f' : β → α → SolverM SearchError β} {as : List α}
    (hstep : ∀ b, ∀ a ∈ as, ∀ u, InStep n cut E (f b a) (f' b a) u fun _ _ => True) (b : β) :
    InStep n cut E (as.foldlM f b) (as.foldlM f' b) s fun _ _ => True := by
  induction as generalizing s b with
  | nil => exact inStep_refl (yields_pure trivial)
  | cons a as ih =>
    simp only [List.foldlM_cons]
    exact inStep_bind (hstep b a List.mem_cons_self s) fun b' u _ =>
      ih (fun c d hd => hstep c d (List.mem_cons_of_mem a hd)) b'

theorem inStep_get {f f' : Solver → SolverM SearchError α} (h : InStep n cut E (f s) (f' s) s Q) :
    InStep n cut E (get >>= f) (get >>= f') s Q := ⟨h.same, h.yields⟩

/-- One level deeper both are in step again. -/
theorem inStep_enter {f f' : DepthGuard → SolverM SearchError α} {g h : DepthGuard}
    (hgh : g.Tightens n h) (hcut : n ≤ g.depth → cut) (hE : E (.recursionLimit n))
    (hf : ∀ inner inner', DepthGuard.Tightens n inner inner' → inner.depth = g.depth + 1 →
      InStep n cut E (f inner) (f' inner') s Q) :
    InStep n cut E (SolverM.orThrow g.enter >>= f) (SolverM.orThrow h.enter >>= f') s Q := by
  rcases hgh.enter with ⟨hreached, hg⟩ | ⟨inner, inner', hg, hh, hinner, hdepth⟩
  · rw [hg]
    exact ⟨.inr ⟨hcut hreached, rfl⟩, hE⟩
  · rw [hg, hh]
    exact hf inner inner' hinner hdepth

end

/-! ## Copying variables -/

section

variable {n : Nat} {cut : Prop} {m : Context} {s : Solver} {g h : DepthGuard}

/-- What is declared stays declared. -/
def Solver.Keeps (s u : Solver) : Prop :=
  ∀ y, s.context.isDeclared y = true → u.context.isDeclared y = true

theorem Solver.Keeps.trans {s u v : Solver} (h : s.Keeps u) (h' : u.Keeps v) : s.Keeps v :=
  fun y hy => h' y (h y hy)

theorem yields_adapt_metavar {x : SolverM MetavarError Unit} {Q : Unit → Solver → Prop}
    (hx : ∀ u, Ends x s () u → Q () u) : Yields (x.adapt SearchError.metavar) s (· ≠ .outOfFuel) Q := by
  unfold Yields
  rw [run_adapt]
  cases hr : x.run.run s with
  | mk r u =>
    cases r with
    | ok a => exact hx u hr
    | error e => exact nofun

theorem inStep_copyVarsWith {copy copy' : Var → SolverM SearchError Unit} {t : Term}
    (hcopy : ∀ y, t.occurs y = true → ∀ u, s.Keeps u →
      InStep n cut (· ≠ .outOfFuel) (copy y) (copy' y) u fun _ v => u.Keeps v) :
    InStep n cut (· ≠ .outOfFuel) (Transplant.copyVarsWith copy t)
      (Transplant.copyVarsWith copy' t) s fun _ u => s.Keeps u :=
  inStep_forM (fun _ _ => id) (fun _ _ _ => .trans) fun y hy =>
    hcopy y (Term.mem_vars.1 (VarSet.mem_toList.1 hy))

/-- After a declaration less is missing. -/
theorem inStep_copyDeclWith {copy copy' : DepthGuard → Var → SolverM SearchError Unit} {x : Var}
    (hgh : g.Tightens n h) (hcut : n ≤ g.depth → cut)
    (hcopy : ∀ inner inner', DepthGuard.Tightens n inner inner' → inner.depth = g.depth + 1 →
      ∀ y u, m.missing u.context < m.missing s.context →
        InStep n cut (· ≠ .outOfFuel) (copy inner y) (copy' inner' y) u fun _ v => u.Keeps v) :
    InStep n cut (· ≠ .outOfFuel) (Transplant.copyDeclWith m copy g x)
      (Transplant.copyDeclWith m copy' h x) s fun _ u => s.Keeps u := by
  refine inStep_get ?_
  cases hdeclared : s.context.isDeclared x with
  | true => exact inStep_refl (yields_pure fun _ => id)
  | false =>
    cases hd : m.decl? x with
    | none => exact inStep_refl (yields_throw (by rintro ⟨⟩))
    | some d =>
      refine inStep_bind (Q := fun _ u => s.Keeps u ∧ u.context.isDeclared x = true)
        (inStep_refl (yields_adapt_metavar fun u hu => ?_)) fun _ u hkept => ?_
      · obtain ⟨-, rfl⟩ := Solver.ends_declare.1 hu
        have hget (y : Var) (hy : y = x ∨ s.context.isDeclared y = true) :
            (s.context.declareFresh x d).isDeclared y = true := by
          rw [Context.isDeclared, Context.get?_declareFresh]
          split
          · rfl
          · next hne => exact hy.resolve_left hne
        exact ⟨fun y hy => hget y (.inr hy), hget x (.inl rfl)⟩
      · obtain ⟨hsu, hx⟩ := hkept
        have hmissing : m.missing u.context < m.missing s.context :=
          Context.missing_lt hsu (Context.isDeclared_of_decl? hd) hdeclared hx
        -- whatever is copied next, the declaration of `x` is not missing any more
        have hnext {inner inner' : DepthGuard} (hinner : DepthGuard.Tightens n inner inner')
            (hdepth : inner.depth = g.depth + 1) (y : Var) (v : Solver) (huv : u.Keeps v) :
            InStep n cut (· ≠ .outOfFuel) (copy inner y) (copy' inner' y) v fun _ w => v.Keeps w :=
          hcopy inner inner' hinner hdepth y v ((Context.missing_mono huv).trans_lt hmissing)
        refine inStep_enter hgh hcut (by rintro ⟨⟩) fun inner inner' hinner hdepth => ?_
        refine inStep_bind (inStep_copyVarsWith fun y _ => hnext hinner hdepth y) fun _ v huv => ?_
        refine (inStep_forM (fun _ _ => id) (fun _ _ _ => .trans) fun k _ w hvw =>
          inStep_copyVarsWith fun y _ w' hww' =>
            hnext hinner hdepth y w' ((huv.trans hvw).trans hww')).mono id (fun _ => id)
            fun _ w hvw => (hsu.trans huv).trans hvw

/-- Copying a variable from a context in which nothing leads back to itself, with enough fuel. -/
theorem inStep_copyNested (hm : m.Acyclic) (hgh : g.Tightens n h) {fuel : Nat} {x : Var}
    (hfuel : m.copyCost s.context x < fuel) :
    InStep n (n < g.depth + fuel) (· ≠ .outOfFuel) (Transplant.copyNested m fuel g x)
      (Transplant.copyNested m fuel h x) s fun _ u => s.Keeps u := by
  induction fuel generalizing g h x s with
  | zero => exact absurd hfuel (Nat.not_lt_zero _)
  | succ fuel ih =>
    -- one level deeper with one unit of fuel less, the limit is reached at the same depth
    have hinner {inner inner' : DepthGuard} (hinner : DepthGuard.Tightens n inner inner')
        (hdepth : inner.depth = g.depth + 1) {y : Var} {u : Solver}
        (hcost : m.copyCost u.context y < m.copyCost s.context x) :
        InStep n (n < g.depth + (fuel + 1)) (· ≠ .outOfFuel)
          (Transplant.copyNested m fuel inner y) (Transplant.copyNested m fuel inner' y) u
          fun _ v => u.Keeps v :=
      (ih hinner (hcost.trans_le (Nat.le_of_lt_succ hfuel))).mono (by omega) (fun _ => id)
        fun _ _ => id
    refine inStep_bind (inStep_copyDeclWith hgh (by omega) fun inner inner' hi hdepth y u hmissing =>
      hinner hi hdepth (Context.copyCost_lt_of_missing hmissing)) fun _ u hsu => ?_
    refine inStep_get ?_
    split
    · exact inStep_refl (yields_pure hsu)
    · cases hb : m.binding? x with
      | none => exact inStep_refl (yields_pure hsu)
      | some b =>
        have hreferred {y : Var} (hy : m.Refers x y) {v : Solver} (huv : u.Keeps v) :
            m.copyCost v.context y < m.copyCost s.context x :=
          Context.copyCost_lt_of_refers (Context.missing_mono (hsu.trans huv)) (hm.grounded x) hy
        cases b with
        | value t =>
          refine inStep_enter hgh (by omega) nofun fun inner inner' hi hdepth => ?_
          refine inStep_bind (inStep_copyVarsWith fun y hy v huv =>
            hinner hi hdepth (hreferred (.inl ⟨t, hb, hy⟩) huv)) fun _ v huv => ?_
          refine inStep_refl (yields_adapt_metavar fun w hw y hy => ?_)
          obtain ⟨k, hk, rfl⟩ := Solver.ends_assign.1 hw
          exact (Solver.isDeclared_assign hk y).trans ((hsu.trans huv) y hy)
        | delayed p =>
          refine inStep_enter hgh (by omega) nofun fun inner inner' hi hdepth => ?_
          refine inStep_bind (hinner hi hdepth (hreferred (.inr hb) fun _ => id)) fun _ v huv => ?_
          refine inStep_refl (yields_adapt_metavar fun w hw y hy => ?_)
          obtain ⟨k, hk, rfl⟩ := Solver.ends_assignDelayed.1 hw
          exact (Solver.isDeclared_assignDelayed hk y).trans ((hsu.trans huv) y hy)

theorem inStep_copyBinding (hm : m.Acyclic) (hgh : g.Tightens n h) (x : Var) :
    InStep n (n < g.depth + Transplant.nestingBound m) (· ≠ .outOfFuel)
      (Transplant.copyBinding m g x) (Transplant.copyBinding m h x) s fun _ u => s.Keeps u := by
  rw [Transplant.copyBinding_eq, Transplant.copyBinding_eq]
  exact inStep_copyNested hm hgh (Context.copyCost_lt_nestingBound ..)

end

/-! ## Walking through a tree -/

namespace Tree

variable {t : Tree}

/-- The states that extraction can copy from: the recorded ones, and an empty one in place of those
of applications that are not in the tree. -/
def CopiesFrom (t : Tree) (m : Snapshot) : Prop := m ∈ t.snapshots ∨ m.context = .empty

theorem copiesFrom_norm {k : GoalId} {post : Snapshot} (h : (t.goal k).normPost? = some post) :
    t.CopiesFrom post := .inl (normPost_mem_snapshots h)

theorem copiesFrom_application (t : Tree) (r : ApplicationId) :
    t.CopiesFrom (t.application r).post := by
  by_cases hr : t.HasApplication r
  · exact .inl (post_mem_snapshots hr)
  · rw [application_of_not_has hr]
    exact .inr rfl

theorem copiesFrom_preState (t : Tree) (k : GoalId) : t.CopiesFrom (t.preState k) := by
  unfold preState
  split
  · exact t.copiesFrom_application _
  · exact .inl List.mem_cons_self

/-- Copying from these states is nested up to some bound. -/
theorem exists_nestingBound (t : Tree) :
    ∃ bound, ∀ m, t.CopiesFrom m → Transplant.nestingBound m.context ≤ bound := by
  let bounds := t.snapshots.map fun m => Transplant.nestingBound m.context
  refine ⟨bounds.sum + Transplant.nestingBound .empty, fun m hm => ?_⟩
  rcases hm with hm | hm
  · have hle : Transplant.nestingBound m.context ≤ bounds.sum :=
      List.le_sum_of_mem (List.mem_map_of_mem hm)
    exact hle.trans (Nat.le_add_right ..)
  · exact hm ▸ Nat.le_add_left ..

/-- The fuel is enough for all levels below the goal. -/
structure Fueled (t : Tree) (fuel : Nat) (k : GoalId) : Prop where
  linked : t.Linked
  goal : t.HasGoal k
  enough : t.goals.size < k.index + fuel

theorem not_fueled_zero (k : GoalId) : ¬ t.Fueled 0 k :=
  fun h => Nat.lt_asymm h.enough h.goal

theorem Fueled.subgoal {fuel : Nat} {k k' : GoalId} {r : ApplicationId}
    (h : t.Fueled (fuel + 1) k) (hr : r ∈ (t.goal k).applications) (hk : k' ∈ t.subgoalIds r) :
    t.Fueled fuel k' := by
  obtain ⟨hgoal, hlt⟩ := h.linked.index_lt_of_mem_subgoalIds hr hk
  exact ⟨h.linked, hgoal, by have := h.enough; omega⟩

theorem Linked.fueled (hl : t.Linked) : t.Fueled (t.goals.size + 1) Tree.root :=
  ⟨hl, hl.root, Nat.lt_add_left _ (Nat.lt_succ_self _)⟩

section

variable {n bound : Nat} {s : Solver} {g h : DepthGuard}
  (hacyclic : ∀ m, t.CopiesFrom m → m.context.Acyclic)
  (hbound : ∀ m, t.CopiesFrom m → Transplant.nestingBound m.context ≤ bound)
  (hgh : g.Tightens n h)

include hacyclic hbound hgh

theorem inStep_copyState {m : Snapshot} (hm : t.CopiesFrom m) (x : Var) :
    InStep n (n < g.depth + bound) (· ≠ .outOfFuel) (Transplant.copyBinding m.context g x)
      (Transplant.copyBinding m.context h x) s fun _ u => s.Keeps u :=
  (inStep_copyBinding (hacyclic m hm) hgh x).mono
    (fun hn => hn.trans_le (Nat.add_le_add_left (hbound m hm) _)) (fun _ => id) fun _ _ => id

theorem inStep_copyNormalization {k : GoalId} {post : Snapshot}
    (hpost : (t.goal k).normPost? = some post) :
    InStep n (n < g.depth + bound) (· ≠ .outOfFuel) (t.copyNormalization g k post)
      (t.copyNormalization h k post) s fun _ _ => True :=
  inStep_bind (inStep_copyState hacyclic hbound hgh (copiesFrom_norm hpost) _) fun _ _ _ =>
    inStep_refl (yields_lift trivial)

theorem inStep_copyApplication (r : ApplicationId) (previous : Snapshot) (x : Var) :
    InStep n (n < g.depth + bound) (· ≠ .outOfFuel) (t.copyApplication g r previous x)
      (t.copyApplication h r previous x) s fun _ _ => True := by
  refine inStep_bind (inStep_copyState hacyclic hbound hgh (t.copiesFrom_application r) x) fun _ u _ => ?_
  refine inStep_bind (inStep_forM (G := fun _ _ => True) (fun _ => trivial)
    (fun _ _ _ _ _ => trivial) fun y _ v _ => ?_) fun _ _ _ => inStep_refl (yields_lift trivial)
  exact (inStep_copyState hacyclic hbound hgh (t.copiesFrom_application r) y).mono id (fun _ => id)
    fun _ _ _ => trivial

theorem inStep_leaveOpen {m : Snapshot} (hm : t.CopiesFrom m) (x : Var) (found : List Var) :
    InStep n (n < g.depth + 1 + bound) (· ≠ .outOfFuel) (leaveOpen m g x found)
      (leaveOpen m h x found) s fun _ _ => True := by
  refine inStep_bind (inStep_copyDeclWith hgh (by omega) fun inner inner' hi hdepth y u _ => ?_)
    fun _ u _ => inStep_get ?_
  · rw [← hdepth]
    exact inStep_copyState hacyclic hbound hi hm y
  · split <;> exact inStep_refl (yields_pure trivial)

theorem inStep_extractGoal {fuel : Nat} {k : GoalId} :
    InStep n (n < g.depth + fuel + bound) (fun e => t.Fueled fuel k → e ≠ .outOfFuel)
      (t.extractGoal fuel g k) (t.extractGoal fuel h k) s fun _ _ => True := by
  induction fuel generalizing g h k s with
  | zero => exact inStep_refl (yields_throw fun hf => (not_fueled_zero k hf).elim)
  | succ fuel ih =>
    unfold extractGoal
    cases hnorm : (t.goal k).norm with
    | notNormal => exact inStep_refl (yields_throw fun _ => by rintro ⟨⟩)
    | proven post =>
      exact (inStep_copyNormalization hacyclic hbound hgh (by rw [Goal.normPost?, hnorm])).given
        (by omega)
    | normal x post =>
      refine inStep_bind ((inStep_copyNormalization hacyclic hbound hgh
        (by rw [Goal.normPost?, hnorm])).given (by omega)) fun _ u _ => ?_
      cases hr : (t.goal k).applications.find? fun r => (t.application r).state.isProven with
      | none => exact inStep_refl (yields_throw fun _ => by rintro ⟨⟩)
      | some r =>
        refine inStep_bind ((inStep_copyApplication hacyclic hbound hgh r post x).given (by omega))
          fun _ v _ => ?_
        refine inStep_forM (G := fun _ _ => True) (fun _ => trivial) (fun _ _ _ _ _ => trivial)
          fun c hc w _ => ?_
        cases hk : (t.cluster c).goals.find? fun g => (t.goal g).state.isProven with
        | none => exact inStep_refl (yields_throw fun _ => by rintro ⟨⟩)
        | some k' =>
          have hsub : k' ∈ t.subgoalIds r :=
            List.mem_flatMap.2 ⟨c, hc, List.mem_of_find?_eq_some hk⟩
          refine inStep_enter hgh (by omega) (fun _ => by rintro ⟨⟩)
            fun inner inner' hi hdepth => ?_
          exact (ih hi).mono (by omega)
            (fun _ he hf => he (hf.subgoal (List.mem_of_find?_eq_some hr) hsub)) fun _ _ => id

theorem inStep_prefixGoal {fuel : Nat} {k : GoalId} {found : List Var} :
    InStep n (n < g.depth + fuel + bound) (fun e => t.Fueled fuel k → e ≠ .outOfFuel)
      (t.prefixGoal fuel g k found) (t.prefixGoal fuel h k found) s fun _ _ => True := by
  induction fuel generalizing g h k s found with
  | zero => exact inStep_refl (yields_throw fun hf => (not_fueled_zero k hf).elim)
  | succ fuel ih =>
    unfold prefixGoal
    cases hnorm : (t.goal k).norm with
    | notNormal =>
      exact (inStep_leaveOpen hacyclic hbound hgh (t.copiesFrom_preState k) _ found).given (by omega)
    | proven post =>
      exact inStep_bind ((inStep_copyNormalization hacyclic hbound hgh
        (by rw [Goal.normPost?, hnorm])).given (by omega)) fun _ _ _ =>
        inStep_refl (yields_pure trivial)
    | normal x post =>
      have hpost : (t.goal k).normPost? = some post := by rw [Goal.normPost?, hnorm]
      refine inStep_bind ((inStep_copyNormalization hacyclic hbound hgh hpost).given (by omega))
        fun _ u _ => ?_
      cases hr : t.safeApplication? k with
      | none =>
        exact (inStep_leaveOpen hacyclic hbound hgh (copiesFrom_norm hpost) x found).given (by omega)
      | some r =>
        refine inStep_bind ((inStep_copyApplication hacyclic hbound hgh r post x).given (by omega))
          fun _ v _ => ?_
        refine inStep_foldlM (fun found' k' hsub w => ?_) found
        refine inStep_enter hgh (by omega) (fun _ => by rintro ⟨⟩)
          fun inner inner' hi hdepth => ?_
        exact (ih hi).mono (by omega)
          (fun _ he hf => he (hf.subgoal (List.mem_of_find?_eq_some hr) hsub)) fun _ _ => id

end

section

variable {n k bound : Nat} {s : Solver} (hacyclic : ∀ m, t.CopiesFrom m → m.context.Acyclic)
  (hbound : ∀ m, t.CopiesFrom m → Transplant.nestingBound m.context ≤ bound) (hn : 0 < n)
  (hk : k = 0 ∨ n ≤ k)

include hacyclic hbound hn hk

theorem inStep_extractProof :
    InStep n (n < t.goals.size + 1 + bound) (fun e => t.Linked → e ≠ .outOfFuel)
      (t.extractProof n) (t.extractProof k) s fun _ _ => True := by
  rw [extractProof_eq, extractProof_eq]
  refine inStep_bind (inStep_refl (yields_lift (Q := fun _ _ => True) trivial)) fun _ u _ => ?_
  refine inStep_bind ((inStep_extractGoal hacyclic hbound
    (DepthGuard.tightens_ofLimit hn hk)).mono (fun h => by rwa [DepthGuard.ofLimit, Nat.zero_add] at h)
    (fun _ he hl => he hl.fueled) fun _ _ => id) fun _ v _ => inStep_get (inStep_refl ?_)
  dsimp only
  split
  · exact yields_pure trivial
  · exact yields_throw nofun

theorem inStep_extractSafePrefix :
    InStep n (n < t.goals.size + 1 + bound) (fun e => t.Linked → e ≠ .outOfFuel)
      (t.extractSafePrefix n) (t.extractSafePrefix k) s fun _ _ => True := by
  rw [extractSafePrefix_eq, extractSafePrefix_eq]
  refine inStep_bind (inStep_refl (yields_lift (Q := fun _ _ => True) trivial)) fun _ u _ => ?_
  refine inStep_bind ((inStep_prefixGoal hacyclic hbound
    (DepthGuard.tightens_ofLimit hn hk)).mono (fun h => by rwa [DepthGuard.ofLimit, Nat.zero_add] at h)
    (fun _ he hl => he hl.fueled) fun _ _ => id) fun _ v _ => inStep_get (inStep_refl ?_)
  exact yields_pure trivial

end

end Tree

/-! ## Limits -/

/-- A computation is run under limits on its nesting: `run n` is how it ends under the limit `n`,
and `run 0` how it ends without one. -/
structure OnlyCutOff {α : Type} (run : Nat → Except SearchError α × Solver) : Prop where
  /-- A limit cuts the computation off or makes no difference. -/
  cut : ∀ n, 0 < n → (run n).1 = .error (.recursionLimit n) ∨ run n = run 0
  /-- What a limit does not cut off ends in the same way under every higher limit. -/
  raise : ∀ n k, 0 < n → n ≤ k → (run n).1 ≠ .error (.recursionLimit n) → run k = run n
  /-- High limits make no difference. -/
  high : ∃ n, ∀ k, n ≤ k → run k = run 0

section

variable {α : Type} {x : Nat → SolverM SearchError α} {top : Nat} {E : SearchError → Prop}
  {s : Solver} {Q : α → Solver → Prop}
  (h : ∀ n k, 0 < n → k = 0 ∨ n ≤ k → InStep n (n < top) E (x n) (x k) s Q)

include h

theorem run_eq_unlimited {k : Nat} (hk : top < k) : (x k).run.run s = (x 0).run.run s :=
  (h k 0 (Nat.zero_lt_of_lt hk) (.inl rfl)).same.resolve_right fun hcut =>
    Nat.lt_asymm hk hcut.1

theorem onlyCutOff_of_inStep : OnlyCutOff fun n => (x n).run.run s where
  cut n hn := ((h n 0 hn (.inl rfl)).same.imp_right And.right).symm
  raise n k hn hnk hne :=
    ((h n k hn (.inr hnk)).same.resolve_right fun hcut => hne hcut.2).symm
  high := ⟨top + 1, fun _ hk => run_eq_unlimited h hk⟩

theorem error_of_inStep (n : Nat) {e : SearchError} (he : ((x n).run.run s).1 = .error e) : E e := by
  -- without a limit the computation ends as under a high one
  have hpos {k : Nat} (hk : 0 < k) (he : ((x k).run.run s).1 = .error e) : E e :=
    (h k k hk (.inr k.le_refl)).yields.of_error (Prod.ext he rfl)
  cases n with
  | zero => exact hpos (Nat.succ_pos top) (run_eq_unlimited h (Nat.lt_succ_self top) ▸ he)
  | succ n => exact hpos (Nat.succ_pos n) he

end

/-- The final tree of a search that returns a proof is linked. -/
theorem Search.linked_of_proved {search : Search} {s : Solver} {goal : Var} {vars : VarSet}
    {proof : Proof} {stats : Stats} (hvars : s.context.dependencies goal = .ok vars)
    (h : (search.run s goal).result = .ok (.proved proof stats)) :
    (search.finalRun s goal).tree.Linked := by
  obtain ⟨run, hreached, htree, -⟩ := runAll_proved (run_ends hvars h).1
  exact htree ▸ (hreached.steady (steady_start s goal vars)).linked

end ProofSearch
