import ProofSearch.Proofs.Ends
import ProofSearch.Proofs.Metavar.Unification

/-!
# Operations of a solver

1. `ends_mkGoal`, `ends_assign` and their like: when an operation succeeds and what it leaves.
2. `Ages`: computations that never take the number of the latest variable back, even if they fail.
3. `Built`: the solvers that a caller can make.
4. `Built.numbered`: all variables of such a solver have numbers up to the latest one.
-/

namespace ProofSearch

namespace Solver

variable {ε : Type} {s s' : Solver}

/-! ## Successful operations -/

@[simp] theorem context_withContext (s : Solver) (m : Context) : (s.withContext m).context = m := rfl

@[simp] theorem lastId_withContext (s : Solver) (m : Context) :
    (s.withContext m).lastId = s.lastId := rfl

@[simp] theorem ends_restore {snapshot : Snapshot} {a : Unit} :
    Ends (liftM (restore snapshot) : SolverM ε Unit) s a s' ↔ s' = { s with state := snapshot } := by
  rw [ends_lift]
  show ((), { s with state := snapshot }) = _ ↔ _
  simp only [Prod.mk.injEq, true_and]
  exact eq_comm

/-- The solver with one more variable. -/
def declareNext (s : Solver) (d : VarDecl) : Solver where
  state := ⟨s.context.declareFresh ⟨s.lastId + 1⟩ d, s.env⟩
  lastId := s.lastId + 1

@[simp] theorem ends_mkGoal {type : Term} {hyps : LocalContext} {x : Var} :
    Ends (liftM (mkGoal type hyps) : SolverM ε Var) s x s' ↔
      x = ⟨s.lastId + 1⟩ ∧ s' = s.declareNext { type, hyps } := by
  rw [ends_lift]
  show (_, _) = _ ↔ _
  simp only [Prod.mk.injEq]
  exact and_congr eq_comm eq_comm

@[simp] theorem ends_unify {l r : Term} {b : Bool} :
    Ends (liftM (unify l r) : SolverM ε Bool) s b s' ↔
      (∃ n, s.context.unify l r = some n ∧ b = true ∧ s' = s.withContext n) ∨
        s.context.unify l r = none ∧ b = false ∧ s' = s := by
  rw [ends_lift]
  show unify l r s = _ ↔ _
  unfold unify
  cases s.context.unify l r with
  | none =>
    constructor
    · intro h
      cases h
      exact .inr ⟨rfl, rfl, rfl⟩
    · rintro (⟨n, hn, -⟩ | ⟨-, rfl, rfl⟩)
      · cases hn
      · rfl
  | some n =>
    constructor
    · intro h
      cases h
      exact .inl ⟨n, rfl, rfl, rfl⟩
    · rintro (⟨k, hk, rfl, rfl⟩ | ⟨hk, -⟩)
      · cases hk
        rfl
      · cases hk

theorem ends_updateContext {change : Context → Except MetavarError Context} {a : Unit} :
    Ends (updateContext change) s a s' ↔ ∃ n, change s.context = .ok n ∧ s' = s.withContext n := by
  show updateContext change s = _ ↔ _
  unfold updateContext
  cases change s.context with
  | error e => exact ⟨nofun, nofun⟩
  | ok n =>
    constructor
    · intro h
      cases h
      exact ⟨n, rfl, rfl⟩
    · rintro ⟨k, hk, rfl⟩
      cases hk
      rfl

@[simp] theorem ends_assign {x : Var} {t : Term} {a : Unit} :
    Ends (assign x t) s a s' ↔ ∃ n, s.context.assign x t = .ok n ∧ s' = s.withContext n :=
  ends_updateContext

@[simp] theorem ends_assignDelayed {x p : Var} {a : Unit} :
    Ends (assignDelayed x p) s a s' ↔
      ∃ n, s.context.assignDelayed x p = .ok n ∧ s' = s.withContext n :=
  ends_updateContext

@[simp] theorem ends_declare {x : Var} {d : VarDecl} {a : Unit} :
    Ends (declare x d) s a s' ↔ s.context.isDeclared x = false ∧
      s' = ⟨⟨s.context.declareFresh x d, s.env⟩, max s.lastId x.index⟩ := by
  simp only [declare, ends_bind, ends_modify, ends_updateContext, Context.declare]
  cases hx : s.context.isDeclared x with
  | false =>
    constructor
    · rintro ⟨-, u, rfl, n, hn, rfl⟩
      rw [show Solver.context { s with lastId := max s.lastId x.index } = s.context from rfl, hx]
        at hn
      cases hn
      exact ⟨rfl, rfl⟩
    · rintro ⟨-, rfl⟩
      refine ⟨(), _, rfl, s.context.declareFresh x d, ?_, rfl⟩
      rw [show Solver.context { s with lastId := max s.lastId x.index } = s.context from rfl, hx]
      rfl
  | true =>
    refine ⟨?_, by rintro ⟨⟨⟩, -⟩⟩
    rintro ⟨-, u, rfl, n, hn, rfl⟩
    rw [show Solver.context { s with lastId := max s.lastId x.index } = s.context from rfl, hx]
      at hn
    cases hn

@[simp] theorem ends_goalType {x : Var} {t : Term} : Ends (goalType x) s t s' ↔
    ∃ d, s.context.decl? x = some d ∧ t = s.context.instantiate d.type ∧ s' = s := by
  simp only [goalType, ends_bind, ends_get, ends_solver_orThrow, Context.goalType]
  constructor
  · rintro ⟨u, v, ⟨rfl, rfl⟩, h, rfl⟩
    split at h
    · cases h
    · next d hd =>
      cases h
      exact ⟨d, hd, rfl, rfl⟩
  · rintro ⟨d, hd, rfl, rfl⟩
    exact ⟨_, _, ⟨rfl, rfl⟩, by rw [hd], rfl⟩

@[simp] theorem ends_goalHyps {x : Var} {hyps : LocalContext} : Ends (goalHyps x) s hyps s' ↔
    ∃ d, s.context.decl? x = some d ∧ hyps = d.hyps.mapTypes s.context.instantiate ∧ s' = s := by
  simp only [goalHyps, ends_bind, ends_get, ends_solver_orThrow, Context.goalHyps]
  constructor
  · rintro ⟨u, v, ⟨rfl, rfl⟩, h, rfl⟩
    split at h
    · cases h
    · next d hd =>
      cases h
      exact ⟨d, hd, rfl, rfl⟩
  · rintro ⟨d, hd, rfl, rfl⟩
    exact ⟨_, _, ⟨rfl, rfl⟩, by rw [hd], rfl⟩

/-! ## Ages -/

/-- The computation never takes the number of the latest variable back. -/
def Ages {α : Type} (x : StateM Solver α) : Prop := ∀ s, s.lastId ≤ (x.run s).2.lastId

section

variable {α β : Type}

theorem ages_pure (a : α) : Ages (pure a) := fun _ => le_rfl

theorem ages_bind {x : StateM Solver α} {f : α → StateM Solver β} (hx : Ages x)
    (hf : ∀ a, Ages (f a)) : Ages (x >>= f) := fun s => (hx s).trans (hf _ _)

theorem ages_restore (snapshot : Snapshot) : Ages (restore snapshot) := fun _ => le_rfl

theorem ages_mkGoal (type : Term) (hyps : LocalContext) : Ages (mkGoal type hyps) :=
  fun s => Nat.le_succ s.lastId

theorem ages_unify (l r : Term) : Ages (unify l r) := by
  intro s
  show s.lastId ≤ (unify l r s).2.lastId
  unfold unify
  split <;> exact le_rfl

theorem ages_updateContext (change : Context → Except MetavarError Context) :
    Ages (updateContext change).run := by
  intro s
  show s.lastId ≤ (updateContext change s).2.lastId
  unfold updateContext
  split <;> exact le_rfl

variable {x : SolverM ε α} {f : α → SolverM ε β}

theorem ages_run_pure (a : α) : Ages (pure a : SolverM ε α).run := fun _ => le_rfl

theorem ages_run_bind (hx : Ages x.run) (hf : ∀ a, Ages (f a).run) : Ages (x >>= f).run := by
  intro s
  have hs := hx s
  rw [run_bind]
  split
  · next a u hr =>
    rw [hr] at hs
    exact hs.trans (hf a u)
  · next e u hr =>
    rw [hr] at hs
    exact hs

theorem ages_run_throw (e : ε) : Ages (throw e : SolverM ε α).run := fun _ => le_rfl

theorem ages_run_get : Ages (get : SolverM ε Solver).run := fun _ => le_rfl

theorem ages_run_lift {y : StateM Solver α} (hy : Ages y) : Ages (liftM y : SolverM ε α).run := hy

theorem ages_run_adapt {ε' : Type} (g : ε → ε') (hx : Ages x.run) : Ages (x.adapt g).run := hx

theorem ages_run_ite {c : Prop} [Decidable c] {y : SolverM ε α} (hx : Ages x.run)
    (hy : Ages y.run) : Ages (if c then x else y).run := by
  split
  · exact hx
  · exact hy

theorem ages_run_mapM {g : α → SolverM ε β} (hg : ∀ a, Ages (g a).run) (as : List α) :
    Ages (as.mapM g).run := by
  induction as with
  | nil => exact ages_run_pure _
  | cons a as ih =>
    rw [List.mapM_cons]
    exact ages_run_bind (hg a) fun _ => ages_run_bind ih fun _ => ages_run_pure _

theorem ages_goalType (x : Var) : Ages (goalType x).run := fun _ => le_rfl

theorem ages_goalHyps (x : Var) : Ages (goalHyps x).run := fun _ => le_rfl

end

/-! ## Built solvers -/

/-- What a caller can do to the current state of a solver. -/
inductive Operation where
  | freshVar
  | mkGoal (type : Term) (hyps : LocalContext)
  | declare (x : Var) (d : VarDecl)
  | assign (x : Var) (t : Term)
  | assignDelayed (x pending : Var)
  | unify (l r : Term)
  | addDeclaration (name : String) (value : Term)

/-- The solver after an operation, whether it succeeds or not. -/
def Operation.perform (s : Solver) : Operation → Solver
  | .freshVar => (Solver.freshVar.run s).2
  | .mkGoal type hyps => ((Solver.mkGoal type hyps).run s).2
  | .declare x d => ((Solver.declare x d).run.run s).2
  | .assign x t => ((Solver.assign x t).run.run s).2
  | .assignDelayed x p => ((Solver.assignDelayed x p).run.run s).2
  | .unify l r => ((Solver.unify l r).run s).2
  | .addDeclaration name value => ((Solver.addDeclaration name value).run s).2

/-- The solvers made from the empty one by operations, with the snapshots saved on the way.  Only
these snapshots are restored. -/
inductive Built : Solver → List Snapshot → Prop
  | empty : Built .empty []
  | perform {s : Solver} {saved : List Snapshot} (op : Operation) : Built s saved →
      Built (op.perform s) saved
  | save {s : Solver} {saved : List Snapshot} : Built s saved → Built s (s.state :: saved)
  | restore {s : Solver} {saved : List Snapshot} {snapshot : Snapshot} : Built s saved →
      snapshot ∈ saved → Built ((Solver.restore snapshot).run s).2 saved

theorem isDeclared_bind {m : Context} {x : Var} {d : VarDecl} (hd : m.assignable x = .ok d)
    (b : Binding) (y : Var) : (m.bind x d b).isDeclared y = m.isDeclared y :=
  Context.isDeclared_congr (Context.decl?_bind_of_decl? (Context.assignable_iff_open.1 hd).1 b y)

theorem isDeclared_assign {m n : Context} {x : Var} {t : Term} (h : m.assign x t = .ok n)
    (y : Var) : n.isDeclared y = m.isDeclared y := by
  obtain ⟨d, hd, -, rfl⟩ := Context.assign_eq_ok_iff.1 h
  exact isDeclared_bind hd _ y

theorem isDeclared_assignDelayed {m n : Context} {x p : Var} (h : m.assignDelayed x p = .ok n)
    (y : Var) : n.isDeclared y = m.isDeclared y := by
  obtain ⟨d, hd, -, -, -, rfl⟩ := Context.assignDelayed_eq_ok_iff.1 h
  exact isDeclared_bind hd _ y

theorem isDeclared_unifyAll {m n : Context} {es : List Equation} (h : m.unifyAll es = some n)
    (y : Var) : n.isDeclared y = m.isDeclared y := by
  fun_induction Context.unifyAll m es with
  | case1 m es hd =>
    cases h
    rfl
  | case2 => cases h
  | case3 => cases h
  | case4 m es x t rest hd k ha ih => rw [ih h, isDeclared_assign ha]

/-- All variables of the context have numbers up to `n`. -/
def NumberedTo (n : Nat) (m : Context) : Prop := ∀ x, m.isDeclared x = true → x.index ≤ n

theorem NumberedTo.mono {n k : Nat} {m : Context} (h : NumberedTo n m) (hk : n ≤ k) :
    NumberedTo k m := fun x hx => (h x hx).trans hk

theorem NumberedTo.congr {n : Nat} {m m' : Context} (h : NumberedTo n m)
    (hd : ∀ x, m'.isDeclared x = m.isDeclared x) : NumberedTo n m' :=
  fun x hx => h x ((hd x).symm.trans hx)

theorem NumberedTo.declareFresh {n k : Nat} {m : Context} (h : NumberedTo n m) (hk : n ≤ k)
    {x : Var} (hx : x.index ≤ k) (d : VarDecl) : NumberedTo k (m.declareFresh x d) := by
  intro y hy
  rw [Context.isDeclared, Context.get?_declareFresh] at hy
  split at hy
  · next hyx => exact hyx ▸ hx
  · exact (h y hy).trans hk

theorem numberedTo_updateContext {s : Solver} (h : NumberedTo s.lastId s.context)
    {change : Context → Except MetavarError Context}
    (hc : ∀ m n, change m = .ok n → ∀ y, n.isDeclared y = m.isDeclared y) :
    NumberedTo s.lastId ((updateContext change).run.run s).2.context := by
  show NumberedTo s.lastId (updateContext change s).2.context
  unfold updateContext
  split
  · next m hm => exact h.congr (hc _ m hm)
  · exact h

theorem Operation.le_lastId (op : Operation) (s : Solver) : s.lastId ≤ (op.perform s).lastId := by
  cases op with
  | freshVar | mkGoal => exact Nat.le_succ _
  | declare x d =>
    exact (le_max_left s.lastId x.index).trans
      (ages_updateContext (·.declare x d) { s with lastId := max s.lastId x.index })
  | assign | assignDelayed => exact ages_updateContext _ s
  | unify l r => exact ages_unify l r s
  | addDeclaration => exact le_rfl

theorem Operation.numbered (op : Operation) {s : Solver} (h : NumberedTo s.lastId s.context) :
    NumberedTo (op.perform s).lastId (op.perform s).context := by
  cases op with
  | freshVar => exact h.mono (Nat.le_succ _)
  | mkGoal type hyps => exact h.declareFresh (Nat.le_succ _) le_rfl _
  | declare x d =>
    show NumberedTo (updateContext (·.declare x d) { s with lastId := max s.lastId x.index }).2.lastId
      (updateContext (·.declare x d) { s with lastId := max s.lastId x.index }).2.context
    unfold Solver.updateContext
    split
    · next m hm =>
      dsimp only [Context.declare] at hm
      split at hm
      · cases hm
      · cases hm
        exact h.declareFresh (le_max_left ..) (le_max_right ..) d
    · exact h.mono (le_max_left ..)
  | assign x t =>
    exact (numberedTo_updateContext h fun _ _ => isDeclared_assign).mono
      (Operation.le_lastId (.assign x t) s)
  | assignDelayed x p =>
    exact (numberedTo_updateContext h fun _ _ => isDeclared_assignDelayed).mono
      (Operation.le_lastId (.assignDelayed x p) s)
  | unify l r =>
    show NumberedTo (Solver.unify l r s).2.lastId (Solver.unify l r s).2.context
    unfold Solver.unify
    split
    · next m hm => exact h.congr (isDeclared_unifyAll hm)
    · exact h
  | addDeclaration name value => exact h

/-- All variables of a built solver, and of the snapshots saved on the way, have numbers up to the
latest one. -/
theorem Built.numbered {s : Solver} {saved : List Snapshot} (h : Built s saved) :
    NumberedTo s.lastId s.context ∧ ∀ snapshot ∈ saved, NumberedTo s.lastId snapshot.context := by
  induction h with
  | empty => exact ⟨nofun, nofun⟩
  | perform op _ ih =>
    exact ⟨op.numbered ih.1, fun snapshot hs => (ih.2 snapshot hs).mono (op.le_lastId _)⟩
  | save _ ih =>
    refine ⟨ih.1, fun snapshot hs => ?_⟩
    rcases List.mem_cons.1 hs with rfl | hs
    · exact ih.1
    · exact ih.2 snapshot hs
  | restore _ hs ih => exact ⟨ih.2 _ hs, ih.2⟩

end Solver

end ProofSearch
