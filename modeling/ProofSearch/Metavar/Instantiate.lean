import ProofSearch.Metavar.Context

/-!
# Instantiation

`Context.instantiate` replaces assigned metavariables by their values until only open variables
and waiting delayed variables are left.  Following one binding after another passes through a
variable at most once as long as no variable refers back to itself, so the number of declared
variables bounds the steps.
-/

namespace ProofSearch

namespace Context

/-- The value of a variable after at most `n` bindings in a row are followed. -/
def resolve (m : Context) : Nat → Var → Term
  | 0, x => .var x
  | n + 1, x =>
    match m.binding? x with
    | none => .var x
    | some (.value t) => t.subst (m.resolve n)
    | some (.delayed p) =>
      let value := m.resolve n p
      if value.hasVar then .var x else value

/-- Replaces assigned metavariables by their values.  A delayed variable stays until the value of
its pending variable is closed. -/
def instantiate (m : Context) (t : Term) : Term := t.subst (m.resolve m.size)

/-- The open variables below an instantiated term, after at most `n` delayed variables in a row are
followed to their pending variables. -/
def openBelow (m : Context) : Nat → Term → VarSet
  | 0, t => t.vars
  | n + 1, t =>
    t.vars.toList.foldl (fun found x =>
      match m.binding? x with
      | some (.delayed p) => found.union (m.openBelow n (m.instantiate (.var p)))
      | _ => found.insert x) ∅

/-- The open variables that a term still depends on.  A waiting delayed variable contributes those
of its pending variable. -/
def openVars (m : Context) (t : Term) : VarSet := m.openBelow m.size (m.instantiate t)

/-- The open variables in the type and the hypotheses of a goal, other than the goal itself. -/
def dependencies (m : Context) (goal : Var) : Except MetavarError VarSet :=
  match m.decl? goal with
  | none => .error (.unknown goal)
  | some decl =>
    let found := decl.hyps.foldl (fun found h => found.union (m.openVars h.type))
      (m.openVars decl.type)
    .ok (found.erase goal)

/-- The instantiated type of a goal. -/
def goalType (m : Context) (goal : Var) : Except MetavarError Term :=
  match m.decl? goal with
  | none => .error (.unknown goal)
  | some decl => .ok (m.instantiate decl.type)

/-- The instantiated hypotheses of a goal. -/
def goalHyps (m : Context) (goal : Var) : Except MetavarError LocalContext :=
  match m.decl? goal with
  | none => .error (.unknown goal)
  | some decl => .ok (decl.hyps.mapTypes m.instantiate)

/-! ## Assignment -/

/-- Assigns a term to an open variable that does not occur in the instantiated term. -/
def assign (m : Context) (x : Var) (t : Term) : Except MetavarError Context :=
  match m.assignable x with
  | .error e => .error e
  | .ok decl =>
    if (m.instantiate t).occurs x then .error (.occursCheck x)
    else .ok (m.bind x decl (.value t))

/-- Lets an open variable wait for a declared variable whose value does not mention it. -/
def assignDelayed (m : Context) (x pending : Var) : Except MetavarError Context :=
  match m.assignable x with
  | .error e => .error e
  | .ok decl =>
    if !m.isDeclared pending then .error (.unknown pending)
    else if pending = x || (m.instantiate (.var pending)).occurs x then .error (.occursCheck x)
    else .ok (m.bind x decl (.delayed pending))

/-! ## Laws -/

theorem dependencies_of_undeclared {m : Context} {x : Var} (h : m.isDeclared x = false) :
    m.dependencies x = .error (.unknown x) := by
  rw [dependencies, decl?_of_undeclared h]

theorem exists_dependencies {m : Context} {x : Var} (h : m.isDeclared x = true) :
    ∃ deps, m.dependencies x = .ok deps := by
  obtain ⟨decl, hdecl⟩ := exists_decl? h
  rw [dependencies, hdecl]
  exact ⟨_, rfl⟩

theorem assign_eq_ok_iff {m n : Context} {x : Var} {t : Term} :
    m.assign x t = .ok n ↔ ∃ decl, m.assignable x = .ok decl ∧
      (m.instantiate t).occurs x = false ∧ n = m.bind x decl (.value t) := by
  constructor
  · intro h
    unfold assign at h
    split at h
    · simp at h
    · next decl hd =>
      split at h
      · simp at h
      · next ho => exact ⟨decl, hd, by simpa using ho, (Except.ok.inj h).symm⟩
  · rintro ⟨decl, hd, ho, rfl⟩
    simp [assign, hd, ho]

theorem assignDelayed_eq_ok_iff {m n : Context} {x pending : Var} :
    m.assignDelayed x pending = .ok n ↔ ∃ decl, m.assignable x = .ok decl ∧
      m.isDeclared pending = true ∧ pending ≠ x ∧ (m.instantiate (.var pending)).occurs x = false ∧
      n = m.bind x decl (.delayed pending) := by
  constructor
  · intro h
    unfold assignDelayed at h
    split at h
    · simp at h
    · next decl hd =>
      split at h
      · simp at h
      · next hp =>
        split at h
        · simp at h
        · next ho =>
          simp only [Bool.or_eq_true, decide_eq_true_eq, not_or, Bool.not_eq_true] at ho
          exact ⟨decl, hd, by simpa using hp, ho.1, ho.2, (Except.ok.inj h).symm⟩
  · rintro ⟨decl, hd, hp, hne, ho, rfl⟩
    simp [assignDelayed, hd, hp, hne, ho]

theorem openCount_assign {m n : Context} {x : Var} {t : Term} (h : m.assign x t = .ok n) :
    n.openCount + 1 = m.openCount := by
  obtain ⟨decl, hd, -, rfl⟩ := assign_eq_ok_iff.1 h
  exact openCount_bind hd

end Context

end ProofSearch
