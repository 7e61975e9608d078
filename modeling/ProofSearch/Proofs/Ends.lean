import Mathlib.Data.List.Forall2
import ProofSearch.Search.Run

/-!
# How computations end

Solver and search computations change a state and may fail.  `Ends x s a s'` says that `x`, started
in `s`, succeeds with `a` and leaves the state `s'`.  `FailsIn p x` says that `x` fails with errors
in `p` only, whatever state it is started in.  `Yields x s E Q` speaks of one state and of both: the
result and the final state are in `Q`, or the error is in `E`.  The laws below take a computation
apart at each of its steps.
-/

namespace ProofSearch

/-! ## Lists of pairs -/

section

variable {α β γ : Type} {R : α → β → Prop} {S : β → γ → Prop} {T : α → γ → Prop}

theorem exists_right_of_mem {as : List α} {bs : List β} (h : List.Forall₂ R as bs) {a : α}
    (ha : a ∈ as) : ∃ b ∈ bs, R a b := by
  induction h with
  | nil => cases ha
  | @cons a' b as bs hab _ ih =>
    rcases List.mem_cons.1 ha with rfl | ha
    · exact ⟨b, List.mem_cons_self, hab⟩
    · obtain ⟨b', hb, hr⟩ := ih ha
      exact ⟨b', List.mem_cons_of_mem b hb, hr⟩

theorem exists_left_of_mem {as : List α} {bs : List β} (h : List.Forall₂ R as bs) {b : β}
    (hb : b ∈ bs) : ∃ a ∈ as, R a b :=
  exists_right_of_mem (R := flip R) (List.Forall₂.flip h) hb

theorem forall₂_comp {as : List α} {bs : List β} {cs : List γ} (h : List.Forall₂ R as bs)
    (h' : List.Forall₂ S bs cs) (hT : ∀ a b c, R a b → S b c → T a c) : List.Forall₂ T as cs := by
  induction h generalizing cs with
  | nil =>
    cases h'
    exact .nil
  | cons hab _ ih =>
    cases h' with
    | cons hbc hrest => exact .cons (hT _ _ _ hab hbc) (ih hrest)

end

/-! ## Results -/

/-- The computation `x`, started in `s`, ends with `a` in the state `s'`. -/
def Ends {ε σ α : Type} (x : ExceptT ε (StateM σ) α) (s : σ) (a : α) (s' : σ) : Prop :=
  x.run.run s = (.ok a, s')

section

variable {ε ε' σ α β : Type} {s s' : σ}

@[simp] theorem ends_pure {a b : α} :
    Ends (pure a : ExceptT ε (StateM σ) α) s b s' ↔ b = a ∧ s' = s := by
  show ((Except.ok a : Except ε α), s) = _ ↔ _
  simp only [Prod.mk.injEq, Except.ok.injEq]
  grind

theorem run_bind (x : ExceptT ε (StateM σ) α) (f : α → ExceptT ε (StateM σ) β) (s : σ) :
    (x >>= f).run.run s = match x.run.run s with
      | (.ok a, u) => (f a).run.run u
      | (.error e, u) => (.error e, u) := by
  show (match x.run.run s with
    | (r, u) => (ExceptT.bindCont f r : StateM σ (Except ε β)).run u) = _
  cases x.run.run s with
  | mk r u => cases r <;> rfl

theorem run_adapt (x : ExceptT ε (StateM σ) α) (f : ε → ε') (s : σ) :
    (x.adapt f).run.run s = match x.run.run s with
      | (r, u) => (r.mapError f, u) := rfl

@[simp] theorem ends_bind {x : ExceptT ε (StateM σ) α} {f : α → ExceptT ε (StateM σ) β} {b : β} :
    Ends (x >>= f) s b s' ↔ ∃ a u, Ends x s a u ∧ Ends (f a) u b s' := by
  unfold Ends
  rw [run_bind]
  constructor
  · intro hb
    split at hb
    · next a u hx => exact ⟨a, u, hx, hb⟩
    · cases hb
  · rintro ⟨a, u, hx, hb⟩
    rw [hx]
    exact hb

@[simp] theorem ends_throw {e : ε} {a : α} :
    ¬ Ends (throw e : ExceptT ε (StateM σ) α) s a s' := by
  intro h
  cases h

@[simp] theorem ends_get {a : σ} :
    Ends (get : ExceptT ε (StateM σ) σ) s a s' ↔ a = s ∧ s' = s := by
  show ((Except.ok s : Except ε σ), s) = _ ↔ _
  simp only [Prod.mk.injEq, Except.ok.injEq]
  grind

@[simp] theorem ends_set {v : σ} {a : PUnit} :
    Ends (set v : ExceptT ε (StateM σ) PUnit) s a s' ↔ s' = v := by
  show ((Except.ok PUnit.unit : Except ε PUnit), v) = _ ↔ _
  simp only [Prod.mk.injEq, true_and]
  exact eq_comm

@[simp] theorem ends_modify {f : σ → σ} {a : PUnit} :
    Ends (modify f : ExceptT ε (StateM σ) PUnit) s a s' ↔ s' = f s := by
  show ((Except.ok PUnit.unit : Except ε PUnit), f s) = _ ↔ _
  simp only [Prod.mk.injEq, true_and]
  exact eq_comm

@[simp] theorem ends_lift {x : StateM σ α} {a : α} :
    Ends (liftM x : ExceptT ε (StateM σ) α) s a s' ↔ x.run s = (a, s') := by
  show (match x.run s with | (r, u) => ((Except.ok r : Except ε α), u)) = _ ↔ _
  cases x.run s with
  | mk r u =>
    simp only [Prod.mk.injEq, Except.ok.injEq]
    exact Prod.mk.injEq .. ▸ Iff.rfl

@[simp] theorem ends_adapt {x : ExceptT ε (StateM σ) α} {f : ε → ε'} {a : α} :
    Ends (x.adapt f) s a s' ↔ Ends x s a s' := by
  unfold Ends
  rw [run_adapt]
  cases x.run.run s with
  | mk r u =>
    cases r with
    | ok b => exact ⟨fun h => by cases h; rfl, fun h => by cases h; rfl⟩
    | error e => exact ⟨nofun, nofun⟩

/-- A computation whose result and final state pass a test ends. -/
theorem exists_ends {x : ExceptT ε (StateM σ) α} (p : α → σ → Bool)
    (h : (match x.run.run s with | (.ok a, u) => p a u | (.error _, _) => false) = true) :
    ∃ a u, Ends x s a u ∧ p a u = true := by
  unfold Ends
  cases hx : x.run.run s with
  | mk r u =>
    rw [hx] at h
    cases r with
    | ok a => exact ⟨a, u, rfl, h⟩
    | error e => cases h

/-- A computation whose error and final state pass a test fails. -/
theorem exists_fails {x : ExceptT ε (StateM σ) α} (p : ε → σ → Bool)
    (h : (match x.run.run s with | (.ok _, _) => false | (.error e, u) => p e u) = true) :
    ∃ e u, x.run.run s = (.error e, u) ∧ p e u = true := by
  cases hx : x.run.run s with
  | mk r u =>
    rw [hx] at h
    cases r with
    | ok a => cases h
    | error e => exact ⟨e, u, rfl, h⟩

theorem ends_ite {c : Prop} [Decidable c] {x y : ExceptT ε (StateM σ) α} {a : α} :
    Ends (if c then x else y) s a s' ↔ (c ∧ Ends x s a s') ∨ (¬ c ∧ Ends y s a s') := by
  by_cases hc : c <;> simp [hc]

/-- The results belong to the arguments one by one. -/
theorem forall₂_of_mapM {f : α → Except ε β} {as : List α} {bs : List β} (h : as.mapM f = .ok bs) :
    List.Forall₂ (fun a b => f a = .ok b) as bs := by
  induction as generalizing bs with
  | nil =>
    cases h
    exact .nil
  | cons a as ih =>
    rw [List.mapM_cons] at h
    cases ha : f a with
    | error e =>
      rw [ha] at h
      cases h
    | ok c =>
      cases has : as.mapM f with
      | error e =>
        rw [ha, has] at h
        cases h
      | ok cs =>
        rw [ha, has] at h
        cases h
        exact .cons ha (ih has)

/-! ## Failures -/

/-- The computation fails with errors in `p` only. -/
def FailsIn (p : ε → Prop) (x : ExceptT ε (StateM σ) α) : Prop :=
  ∀ s e s', x.run.run s = (.error e, s') → p e

variable {p : ε → Prop}

theorem failsIn_pure {a : α} : FailsIn p (pure a : ExceptT ε (StateM σ) α) := by
  intro s e s' h
  cases h

theorem failsIn_bind {x : ExceptT ε (StateM σ) α} {f : α → ExceptT ε (StateM σ) β}
    (hx : FailsIn p x) (hf : ∀ a, FailsIn p (f a)) : FailsIn p (x >>= f) := by
  intro s e s' h
  rw [run_bind] at h
  split at h
  · exact hf _ _ _ _ h
  · next hr =>
    cases h
    exact hx _ _ _ hr

theorem failsIn_throw {e : ε} (h : p e) : FailsIn p (throw e : ExceptT ε (StateM σ) α) := by
  intro s e' s' he
  cases he
  exact h

theorem failsIn_get : FailsIn p (get : ExceptT ε (StateM σ) σ) := by
  intro s e s' h
  cases h

theorem failsIn_set (v : σ) : FailsIn p (set v : ExceptT ε (StateM σ) PUnit) := by
  intro s e s' h
  cases h

theorem failsIn_modify (f : σ → σ) : FailsIn p (modify f : ExceptT ε (StateM σ) PUnit) := by
  intro s e s' h
  cases h

theorem failsIn_lift (x : StateM σ α) : FailsIn p (liftM x : ExceptT ε (StateM σ) α) := by
  intro s e s' h
  cases h

theorem failsIn_adapt {f : ε' → ε} (hf : ∀ e, p (f e)) (x : ExceptT ε' (StateM σ) α) :
    FailsIn p (x.adapt f) := by
  intro s e s' h
  rw [run_adapt] at h
  cases hr : x.run.run s with
  | mk r u =>
    rw [hr] at h
    cases r with
    | ok a => cases h
    | error e' =>
      cases h
      exact hf e'

theorem failsIn_forM {f : α → ExceptT ε (StateM σ) PUnit} (hf : ∀ a, FailsIn p (f a))
    (as : List α) : FailsIn p (as.forM f) := by
  induction as with
  | nil => exact failsIn_pure
  | cons a as ih => exact failsIn_bind (hf a) fun _ => ih

theorem failsIn_foldlM {f : β → α → ExceptT ε (StateM σ) β} (hf : ∀ b a, FailsIn p (f b a))
    (as : List α) (b : β) : FailsIn p (as.foldlM f b) := by
  induction as generalizing b with
  | nil => exact failsIn_pure
  | cons a as ih =>
    rw [List.foldlM_cons]
    exact failsIn_bind (hf b a) fun b => ih b

/-! ## Results and failures together -/

/-- The computation `x`, started in `s`, ends as `Q` says or fails with an error in `E`. -/
def Yields (x : ExceptT ε (StateM σ) α) (s : σ) (E : ε → Prop) (Q : α → σ → Prop) : Prop :=
  match x.run.run s with
  | (.ok a, u) => Q a u
  | (.error e, _) => E e

section

variable {E : ε → Prop} {Q : α → σ → Prop} {x : ExceptT ε (StateM σ) α}

theorem Yields.of_ends (h : Yields x s E Q) {a : α} (hx : Ends x s a s') : Q a s' := by
  unfold Yields at h
  rwa [show x.run.run s = (.ok a, s') from hx] at h

theorem Ends.yields {a : α} (h : Ends x s a s') (hq : Q a s') : Yields x s E Q := by
  unfold Yields
  rw [show x.run.run s = (.ok a, s') from h]
  exact hq

theorem Yields.of_error (h : Yields x s E Q) {e : ε} (hx : x.run.run s = (.error e, s')) : E e := by
  unfold Yields at h
  rwa [hx] at h

theorem yields_of_error {e : ε} (hx : x.run.run s = (.error e, s')) (he : E e) :
    Yields x s E Q := by
  unfold Yields
  rwa [hx]

theorem Yields.cases (h : Yields x s E Q) : (∃ a u, Ends x s a u ∧ Q a u) ∨
    ∃ e u, x.run.run s = (.error e, u) ∧ E e := by
  unfold Yields at h
  unfold Ends
  cases hx : x.run.run s with
  | mk r u =>
    rw [hx] at h
    cases r with
    | ok a => exact .inl ⟨a, u, rfl, h⟩
    | error e => exact .inr ⟨e, u, rfl, h⟩

theorem Yields.mono {Q' : α → σ → Prop} (h : Yields x s E Q) (hQ : ∀ a u, Q a u → Q' a u) :
    Yields x s E Q' := by
  unfold Yields at h ⊢
  split
  · next hx =>
    rw [hx] at h
    exact hQ _ _ h
  · next hx =>
    rw [hx] at h
    exact h

theorem Yields.errors {E' : ε → Prop} (h : Yields x s E Q) (hE : ∀ e, E e → E' e) :
    Yields x s E' Q := by
  unfold Yields at h ⊢
  split
  · next hx =>
    rw [hx] at h
    exact h
  · next hx =>
    rw [hx] at h
    exact hE _ h

theorem yields_pure {a : α} (h : Q a s) : Yields (pure a) s E Q := h

theorem yields_throw {e : ε} (h : E e) : Yields (throw e) s E Q := h

theorem yields_bind {Q' : β → σ → Prop} {f : α → ExceptT ε (StateM σ) β}
    (hx : Yields x s E Q) (hf : ∀ a u, Q a u → Yields (f a) u E Q') :
    Yields (x >>= f) s E Q' := by
  unfold Yields at hx ⊢
  rw [run_bind]
  split
  · next hr =>
    split at hr
    · next a u hrun =>
      rw [hrun] at hx
      have := hf a u hx
      unfold Yields at this
      rwa [hr] at this
    · cases hr
  · next hr =>
    split at hr
    · next a u hrun =>
      rw [hrun] at hx
      have := hf a u hx
      unfold Yields at this
      rwa [hr] at this
    · next hrun =>
      cases hr
      rwa [hrun] at hx

theorem Ends.bind {Q' : β → σ → Prop} {f : α → ExceptT ε (StateM σ) β} {a : α}
    (hx : Ends x s a s') (hf : Yields (f a) s' E Q') : Yields (x >>= f) s E Q' :=
  yields_bind (Q := fun b u => b = a ∧ u = s') (hx.yields ⟨rfl, rfl⟩) fun _ _ ⟨hb, hu⟩ =>
    hb ▸ hu ▸ hf

/-- A result in `Q` is a result of the computation. -/
theorem Yields.ends (h : Yields x s E Q) : Yields x s E fun a u => Ends x s a u ∧ Q a u := by
  rcases h.cases with ⟨a, u, hx, hq⟩ | ⟨e, u, hx, he⟩
  · exact hx.yields ⟨hx, hq⟩
  · exact yields_of_error hx he

theorem yields_get {Q : σ → σ → Prop} (h : Q s s) :
    Yields (get : ExceptT ε (StateM σ) σ) s E Q := h

theorem yields_lift {x : StateM σ α} (h : Q (x.run s).1 (x.run s).2) :
    Yields (liftM x : ExceptT ε (StateM σ) α) s E Q := h

theorem yields_adapt {x : ExceptT ε' (StateM σ) α} {f : ε' → ε}
    (h : Yields x s (fun e => E (f e)) Q) : Yields (x.adapt f) s E Q := by
  unfold Yields at h ⊢
  rw [run_adapt]
  cases hx : x.run.run s with
  | mk r u =>
    rw [hx] at h
    cases r with
    | ok a => exact h
    | error e => exact h

/-- A list of computations: all of them keep `I`, `G` relates the states before and after each, and
what one of them achieves the later ones keep. -/
theorem yields_forM {I : σ → Prop} {G : σ → σ → Prop} {R : α → σ → Prop}
    {f : α → ExceptT ε (StateM σ) PUnit} {as : List α} (hrefl : ∀ u, G u u)
    (htrans : ∀ u v w, G u v → G v w → G u w) (hkeep : ∀ a u v, G u v → R a u → R a v) (hs : I s)
    (hstep : ∀ a ∈ as, ∀ u, I u → G s u → Yields (f a) u E fun _ v => I v ∧ G u v ∧ R a v) :
    Yields (as.forM f) s E fun _ u => I u ∧ G s u ∧ ∀ a ∈ as, R a u := by
  induction as generalizing s with
  | nil => exact ⟨hs, hrefl s, nofun⟩
  | cons a as ih =>
    refine yields_bind (hstep a List.mem_cons_self s hs (hrefl s)) fun _ u ⟨hI, hu, ha⟩ => ?_
    refine (ih hI fun b hb v hv huv =>
      hstep b (List.mem_cons_of_mem a hb) v hv (htrans s u v hu huv)).mono fun _ v hv => ?_
    obtain ⟨hI, huv, hall⟩ := hv
    refine ⟨hI, htrans s u v hu huv, fun b hb => ?_⟩
    rcases List.mem_cons.1 hb with rfl | hb
    · exact hkeep b u v huv ha
    · exact hall b hb

end

end

@[simp] theorem ends_solver_orThrow {ε α : Type} {e : Except ε α} {s s' : Solver} {a : α} :
    Ends (SolverM.orThrow e) s a s' ↔ e = .ok a ∧ s' = s := by
  show (e, s) = _ ↔ _
  simp only [Prod.mk.injEq]
  grind

theorem failsIn_solver_orThrow {ε α : Type} {p : ε → Prop} {e : Except ε α}
    (h : ∀ err, e = .error err → p err) : FailsIn p (SolverM.orThrow e) := by
  intro s e' s' he
  exact h e' (congrArg Prod.fst he)

namespace SearchM

variable {α : Type} {run run' : Run}

theorem failsIn_onSolverM {p : SearchError → Prop} {x : SolverM SearchError α} (h : FailsIn p x) :
    FailsIn p (onSolverM x) := by
  intro run e run' he
  have hfst : (x.run.run run.solver).1 = .error e := congrArg Prod.fst he
  exact h run.solver e (x.run.run run.solver).2 (Prod.ext hfst rfl)

@[simp] theorem ends_orThrow {e : Except SearchError α} {a : α} :
    Ends (orThrow e) run a run' ↔ e = .ok a ∧ run' = run := by
  show (e, run) = _ ↔ _
  simp only [Prod.mk.injEq]
  grind

@[simp] theorem ends_onSolver {x : StateM Solver α} {a : α} :
    Ends (onSolver x) run a run' ↔
      a = (x.run run.solver).1 ∧ run' = { run with solver := (x.run run.solver).2 } := by
  show ((Except.ok (x.run run.solver).1 : Except SearchError α),
    { run with solver := (x.run run.solver).2 }) = _ ↔ _
  simp only [Prod.mk.injEq, Except.ok.injEq]
  grind

/-- A computation on the solver ends as it does on the solver alone. -/
theorem run_onSolverM {x : SolverM SearchError α} {result : Except SearchError α} {s : Solver}
    (h : x.run.run run.solver = (result, s)) :
    (onSolverM x).run.run run = (result, { run with solver := s }) := by
  show ((x.run.run run.solver).1, { run with solver := (x.run.run run.solver).2 }) = _
  rw [h]

theorem run_onSite {x : SiteM α} {result : Except SearchError α} {site : Site}
    (h : x.run.run ⟨run.solver, run.tree⟩ = (result, site)) :
    (onSite x).run.run run = (result, { run with solver := site.solver, tree := site.tree }) := by
  show ((x.run.run ⟨run.solver, run.tree⟩).1, { run with
    solver := (x.run.run ⟨run.solver, run.tree⟩).2.solver
    tree := (x.run.run ⟨run.solver, run.tree⟩).2.tree }) = _
  rw [h]

@[simp] theorem ends_onSolverM {x : SolverM SearchError α} {a : α} :
    Ends (onSolverM x) run a run' ↔
      ∃ s, Ends x run.solver a s ∧ run' = { run with solver := s } := by
  simp only [onSolverM, ends_bind, ends_onSolver, ends_orThrow]
  constructor
  · rintro ⟨e, u, ⟨rfl, rfl⟩, he, rfl⟩
    exact ⟨_, Prod.ext he rfl, rfl⟩
  · rintro ⟨s, hs, rfl⟩
    have hs : x.run.run run.solver = (.ok a, s) := hs
    exact ⟨.ok a, _, ⟨by rw [hs], rfl⟩, rfl, by rw [hs]⟩

theorem yields_onSolverM {E : SearchError → Prop} {Q : α → Run → Prop} {x : SolverM SearchError α}
    (h : Yields x run.solver E fun a s => Q a { run with solver := s }) :
    Yields (onSolverM x) run E Q := by
  rcases h.cases with ⟨a, s, hx, hq⟩ | ⟨e, s, hx, he⟩
  · exact (ends_onSolverM.2 ⟨s, hx, rfl⟩).yields hq
  · exact yields_of_error (run_onSolverM hx) he

@[simp] theorem ends_getTree {a : Tree} : Ends getTree run a run' ↔ a = run.tree ∧ run' = run := by
  simp only [getTree, ends_bind, ends_get, ends_pure]
  grind

@[simp] theorem ends_getState {a : Snapshot} :
    Ends getState run a run' ↔ a = run.solver.state ∧ run' = run := by
  simp only [getState, ends_bind, ends_get, ends_pure]
  grind

@[simp] theorem ends_modifyTree {f : Tree → Tree} {a : Unit} :
    Ends (modifyTree f) run a run' ↔ run' = { run with tree := f run.tree } := ends_modify

@[simp] theorem ends_modifyGoal {g : GoalId} {f : Goal → Goal} {a : Unit} :
    Ends (modifyGoal g f) run a run' ↔ run' = { run with tree := run.tree.modifyGoal g f } :=
  ends_modify

@[simp] theorem ends_modifyStats {f : Stats → Stats} {a : Unit} :
    Ends (modifyStats f) run a run' ↔ run' = { run with stats := f run.stats } := ends_modify

@[simp] theorem ends_record {call : Call} {a : Unit} :
    Ends (record call) run a run' ↔ run' = { run with journal := call :: run.journal } := ends_modify

@[simp] theorem ends_pushGoal {g : GoalId} {a : Unit} : Ends (pushGoal g) run a run' ↔
    run' = { run with queue := run.queue.push (.ofGoal g (run.tree.goal g)) } := ends_modify

@[simp] theorem ends_pushGoals {gs : List GoalId} {a : Unit} : Ends (pushGoals gs) run a run' ↔
    run' = { run with
      queue := run.queue.pushAll (gs.map fun g => .ofGoal g (run.tree.goal g)) } := ends_modify

end SearchM

end ProofSearch
