import ProofSearch.Proofs.Metavar.Operations

/-!
# Fresh variables

A caller works with a solver, saves its state and returns to saved states in any order.  The states
come and go, but the number of the latest variable only grows.

1. `Operation.result?_eq_some`: a variable is handed out with the next number.
2. `Session`: a solver with the snapshots saved and the variables handed out so far.
3. `Session.built`, `Session.issued_le`: the solver of a session is a built one, and no variable
   handed out has a number above the latest one.
4. `Session.result_unused`: a variable that is handed out is new to the session, to the current
   state and to every saved one.
-/

namespace ProofSearch

namespace Solver

/-! ## Variables handed out -/

/-- The variable that an operation hands out. -/
def Operation.result? (s : Solver) : Operation → Option Var
  | .freshVar => some (Solver.freshVar.run s).1
  | .mkGoal type hyps => some ((Solver.mkGoal type hyps).run s).1
  | .declare .. | .assign .. | .assignDelayed .. | .unify .. | .addDeclaration .. => none

/-- A variable is handed out with the next number, which is the latest one from then on. -/
theorem Operation.result?_eq_some {op : Operation} {s : Solver} {x : Var}
    (h : op.result? s = some x) : x = ⟨s.lastId + 1⟩ ∧ (op.perform s).lastId = s.lastId + 1 := by
  cases op with
  | freshVar | mkGoal =>
    cases h
    exact ⟨rfl, rfl⟩
  | _ => cases h

theorem NumberedTo.undeclared {n : Nat} {m : Context} (h : NumberedTo n m) :
    m.isDeclared ⟨n + 1⟩ = false := by
  by_contra hd
  exact absurd (h ⟨n + 1⟩ (by simpa using hd)) (Nat.not_succ_le_self n)

theorem numberedTo_of_vars {n : Nat} {m : Context} (h : ∀ x ∈ m.vars, x.index ≤ n) :
    NumberedTo n m := by
  intro x hx
  obtain ⟨entry, hentry⟩ := Option.isSome_iff_exists.1 hx
  exact h x (List.mem_map.2
    ⟨(x, entry), (SortedMap.lookup_eq_some_iff m.entries.increasing).1 hentry, rfl⟩)

/-- An operation that hands out a variable changes no entry of the context. -/
theorem Operation.get?_perform {op : Operation} {s : Solver} {x y : Var} {entry : Entry}
    (h : op.result? s = some x) (hx : s.context.isDeclared x = false)
    (hy : s.context.get? y = some entry) : (op.perform s).context.get? y = some entry := by
  obtain ⟨rfl, -⟩ := Operation.result?_eq_some h
  cases op with
  | freshVar => exact hy
  | mkGoal type hyps =>
    have hne : y ≠ ⟨s.lastId + 1⟩ := by
      rintro rfl
      rw [Context.isDeclared, hy] at hx
      cases hx
    show (s.context.declareFresh ⟨s.lastId + 1⟩ { type, hyps }).get? y = some entry
    rw [Context.get?_declareFresh, if_neg hne]
    exact hy
  | _ => cases h

/-! ## Sessions -/

/-- What a caller does in the course of a session. -/
inductive Action where
  | perform (op : Operation)
  | save
  /-- Returns to the snapshot that was saved `i` snapshots before the last one, if there is one. -/
  | restore (i : Nat)

/-- A solver in use. -/
structure Session where
  solver : Solver
  /-- The snapshots saved so far, latest first. -/
  saved : List Snapshot
  /-- The variables handed out so far, latest first. -/
  issued : List Var

namespace Session

def empty : Session := ⟨.empty, [], []⟩

def act (session : Session) : Action → Session
  | .perform op =>
    { session with
      solver := op.perform session.solver
      issued := (op.result? session.solver).toList ++ session.issued }
  | .save => { session with saved := session.solver.state :: session.saved }
  | .restore i =>
    { session with
      solver := session.saved[i]?.elim session.solver fun snapshot =>
        ((Solver.restore snapshot).run session.solver).2 }

/-- A session from its beginning. -/
def ofActions (actions : List Action) : Session := actions.foldl act empty

/-! ## What every action keeps -/

theorem built_act {session : Session} (h : Built session.solver session.saved) (action : Action) :
    Built (session.act action).solver (session.act action).saved := by
  cases action with
  | perform op => exact h.perform op
  | save => exact h.save
  | restore i =>
    simp only [act]
    cases hi : session.saved[i]? with
    | none => exact h
    | some snapshot => exact h.restore (List.mem_of_getElem? hi)

theorem lastId_le_act (session : Session) (action : Action) :
    session.solver.lastId ≤ (session.act action).solver.lastId := by
  cases action with
  | perform op => exact op.le_lastId session.solver
  | save => exact le_rfl
  | restore i =>
    simp only [act]
    cases session.saved[i]? <;> exact le_rfl

theorem issued_le_act {session : Session}
    (h : ∀ x ∈ session.issued, x.index ≤ session.solver.lastId) (action : Action) :
    ∀ x ∈ (session.act action).issued, x.index ≤ (session.act action).solver.lastId := by
  have hold (x : Var) (hx : x ∈ session.issued) : x.index ≤ (session.act action).solver.lastId :=
    (h x hx).trans (session.lastId_le_act action)
  intro x hx
  cases action with
  | perform op =>
    rcases List.mem_append.1 hx with hx | hx
    · obtain ⟨rfl, hlast⟩ := Operation.result?_eq_some (Option.mem_toList.1 hx)
      exact hlast.ge
    · exact hold x hx
  | save | restore => exact hold x hx

/-- What the beginning of a session has and every action keeps holds of all sessions. -/
theorem ofActions_induction {P : Session → Prop} (hempty : P empty)
    (hact : ∀ session action, P session → P (session.act action)) (actions : List Action) :
    P (ofActions actions) := by
  have hfold (session : Session) (h : P session) : P (actions.foldl act session) := by
    induction actions generalizing session with
    | nil => exact h
    | cons action actions ih => exact ih _ (hact session action h)
  exact hfold empty hempty

theorem built (actions : List Action) :
    Built (ofActions actions).solver (ofActions actions).saved :=
  ofActions_induction (P := fun session => Built session.solver session.saved) .empty
    (fun _ action h => built_act h action) actions

theorem issued_le (actions : List Action) :
    ∀ x ∈ (ofActions actions).issued, x.index ≤ (ofActions actions).solver.lastId :=
  ofActions_induction (P := fun session => ∀ x ∈ session.issued, x.index ≤ session.solver.lastId)
    nofun (fun _ action h => issued_le_act h action) actions

/-! ## New variables are new -/

/-- After any actions, whatever was declared under a number of the caller's choice and whichever
saved state is the current one, a variable that is handed out has not been handed out before and is
declared neither in the current state nor in any saved one.  So declaring it replaces nothing. -/
theorem result_unused (actions : List Action) (op : Operation) (x : Var)
    (h : op.result? (ofActions actions).solver = some x) :
    x ∉ (ofActions actions).issued ∧ (ofActions actions).solver.context.isDeclared x = false ∧
      (∀ snapshot ∈ (ofActions actions).saved, snapshot.context.isDeclared x = false) ∧
      ∀ y entry, (ofActions actions).solver.context.get? y = some entry →
        (op.perform (ofActions actions).solver).context.get? y = some entry := by
  obtain ⟨hcurrent, hsaved⟩ := (built actions).numbered
  obtain ⟨rfl, -⟩ := Operation.result?_eq_some h
  have hnew := hcurrent.undeclared
  refine ⟨fun hx => ?_, hnew, fun snapshot hs => (hsaved snapshot hs).undeclared,
    fun y entry hy => Operation.get?_perform h hnew hy⟩
  exact absurd (issued_le actions _ hx) (Nat.not_succ_le_self _)

/-- Two goals are made in different branches, and the number 7 is claimed twice, the second time in
vain.  Then the first branch is entered again. -/
def branching : List Action :=
  [.save, .perform (.mkGoal (.const "A") []), .save, .restore 1,
    .perform (.mkGoal (.const "B") []), .perform (.declare ⟨7⟩ ⟨.const "C", [], none⟩), .save,
    .perform (.declare ⟨7⟩ ⟨.const "D", [], none⟩), .restore 1]

theorem result_unused_branching :
    (Operation.mkGoal (.const "E") []).result? (ofActions branching).solver = some ⟨8⟩ ∧
    (ofActions branching).issued = [⟨2⟩, ⟨1⟩] ∧
    (ofActions branching).solver.context.isDeclared ⟨1⟩ = true ∧
    (⟨8⟩ ∉ (ofActions branching).issued ∧
      (ofActions branching).solver.context.isDeclared ⟨8⟩ = false ∧
      (∀ snapshot ∈ (ofActions branching).saved, snapshot.context.isDeclared ⟨8⟩ = false) ∧
      ∀ y entry, (ofActions branching).solver.context.get? y = some entry →
        ((Operation.mkGoal (.const "E") []).perform (ofActions branching).solver).context.get? y =
          some entry) :=
  ⟨rfl, rfl, rfl, result_unused branching (.mkGoal (.const "E") []) ⟨8⟩ rfl⟩

end Session

end Solver

end ProofSearch
