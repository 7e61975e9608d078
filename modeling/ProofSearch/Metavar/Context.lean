import ProofSearch.LocalContext
import ProofSearch.SortedMap

/-!
# Metavariable contexts

A context records which metavariables are declared and what is assigned to them.  A variable is
open, holds a term, or waits for another variable: a delayed variable takes the value of its pending
variable once that value has no metavariable left.  Only declared variables are assigned, and no
variable is assigned twice, because both facts are part of the type.
-/

namespace ProofSearch

/-- What a metavariable is declared with: its type, the hypotheses it may use and a display name. -/
structure VarDecl where
  type : Term
  hyps : LocalContext
  userName : Option String := none
deriving DecidableEq, Repr, Inhabited

/-- What is assigned to a metavariable. -/
inductive Binding where
  | value (term : Term)
  | delayed (pending : Var)
deriving DecidableEq, Repr, Inhabited

/-- A declared metavariable, open if it has no binding. -/
structure Entry where
  decl : VarDecl
  binding : Option Binding
deriving DecidableEq, Repr, Inhabited

/-- Misuse of a metavariable context. -/
inductive MetavarError where
  | unknown (x : Var)
  | alreadyDeclared (x : Var)
  | alreadyAssigned (x : Var)
  | occursCheck (x : Var)
deriving DecidableEq, Repr

def MetavarError.message : MetavarError → String
  | .unknown x => "unknown metavariable " ++ x.text
  | .alreadyDeclared x => "metavariable " ++ x.text ++ " is already declared"
  | .alreadyAssigned x => "metavariable " ++ x.text ++ " is already assigned"
  | .occursCheck x => "occurs check failed for metavariable " ++ x.text

/-- The declared metavariables with their bindings. -/
structure Context where
  entries : SortedMap Var Entry
deriving DecidableEq

namespace Context

def empty : Context := ⟨∅⟩

instance : Inhabited Context := ⟨empty⟩

/-! ## Queries -/

/-- The number of declared metavariables. -/
def size (m : Context) : Nat := m.entries.size

def vars (m : Context) : List Var := m.entries.keys

def get? (m : Context) (x : Var) : Option Entry := m.entries.get? x

def decl? (m : Context) (x : Var) : Option VarDecl := (m.get? x).map (·.decl)

def binding? (m : Context) (x : Var) : Option Binding := (m.get? x).bind (·.binding)

def isDeclared (m : Context) (x : Var) : Bool := (m.get? x).isSome

/-- Whether a term or a pending variable is assigned. -/
def isAssigned (m : Context) (x : Var) : Bool := (m.binding? x).isSome

/-- The number of declared metavariables without a binding. -/
def openCount (m : Context) : Nat := m.entries.entries.countP (·.2.binding.isNone)

/-! ## Declarations and bindings -/

/-- Declares a variable that the caller knows to be unused.  Only the declaration is set: a variable
that is in use after all keeps its binding. -/
def declareFresh (m : Context) (x : Var) (decl : VarDecl) : Context :=
  ⟨m.entries.insert x ⟨decl, m.binding? x⟩⟩

def declare (m : Context) (x : Var) (decl : VarDecl) : Except MetavarError Context :=
  if m.isDeclared x then .error (.alreadyDeclared x) else .ok (m.declareFresh x decl)

/-- The declaration of a variable that may still be assigned. -/
def assignable (m : Context) (x : Var) : Except MetavarError VarDecl :=
  match m.get? x with
  | none => .error (.unknown x)
  | some ⟨_, some _⟩ => .error (.alreadyAssigned x)
  | some ⟨decl, none⟩ => .ok decl

/-- Gives a variable with the given declaration a binding, without any check. -/
def bind (m : Context) (x : Var) (decl : VarDecl) (binding : Binding) : Context :=
  ⟨m.entries.insert x ⟨decl, some binding⟩⟩

/-! ## Differences -/

/-- The variables declared in `m` and not in `earlier`. -/
def declaredSince (m earlier : Context) : VarSet :=
  .ofList (m.entries.keysWhere earlier.entries fun _ before => before.isNone)

/-- The variables that were open in `earlier` and are assigned in `m`. -/
def assignedSince (m earlier : Context) : VarSet :=
  .ofList (earlier.entries.keysWhere m.entries fun before now =>
    before.binding.isNone && now.any (·.binding.isSome))

/-! ## Laws -/

@[simp] theorem get?_declareFresh (m : Context) (x y : Var) (decl : VarDecl) :
    (m.declareFresh x decl).get? y = if y = x then some ⟨decl, m.binding? x⟩ else m.get? y :=
  SortedMap.get?_insert ..

@[simp] theorem binding?_declareFresh (m : Context) (x y : Var) (decl : VarDecl) :
    (m.declareFresh x decl).binding? y = m.binding? y := by
  rw [binding?, get?_declareFresh]
  split
  · next h => rw [h]; rfl
  · rfl

@[simp] theorem get?_bind (m : Context) (x y : Var) (decl : VarDecl) (b : Binding) :
    (m.bind x decl b).get? y = if y = x then some ⟨decl, some b⟩ else m.get? y :=
  SortedMap.get?_insert ..

@[simp] theorem mem_declaredSince {m earlier : Context} {x : Var} :
    x ∈ m.declaredSince earlier ↔ m.isDeclared x = true ∧ earlier.isDeclared x = false := by
  simp only [declaredSince, VarSet.mem_ofList, SortedMap.mem_keysWhere, isDeclared, get?]
  cases m.entries.get? x <;> simp

@[simp] theorem mem_assignedSince {m earlier : Context} {x : Var} :
    x ∈ m.assignedSince earlier ↔
      earlier.isDeclared x = true ∧ earlier.isAssigned x = false ∧ m.isAssigned x = true := by
  simp only [assignedSince, VarSet.mem_ofList, SortedMap.mem_keysWhere, isDeclared, isAssigned,
    binding?, get?]
  cases earlier.entries.get? x <;> cases m.entries.get? x <;> simp

theorem assignable_eq_ok_iff {m : Context} {x : Var} {decl : VarDecl} :
    m.assignable x = .ok decl ↔ m.get? x = some ⟨decl, none⟩ := by
  unfold assignable
  split <;> simp_all

/-- Open variables may be assigned. -/
theorem assignable_iff_open {m : Context} {x : Var} {decl : VarDecl} :
    m.assignable x = .ok decl ↔ m.decl? x = some decl ∧ m.binding? x = none := by
  rw [assignable_eq_ok_iff, decl?, binding?]
  cases hx : m.get? x with
  | none => simp
  | some entry => cases entry; simp

theorem isDeclared_of_decl? {m : Context} {x : Var} {decl : VarDecl} (h : m.decl? x = some decl) :
    m.isDeclared x = true := by
  obtain ⟨entry, hentry, -⟩ := Option.map_eq_some_iff.1 h
  rw [isDeclared, hentry]
  rfl

theorem exists_decl? {m : Context} {x : Var} (h : m.isDeclared x = true) :
    ∃ decl, m.decl? x = some decl := by
  obtain ⟨entry, hentry⟩ := Option.isSome_iff_exists.1 h
  exact ⟨entry.decl, by rw [decl?, hentry]; rfl⟩

theorem exists_decl?_of_binding? {m : Context} {x : Var} {b : Binding}
    (h : m.binding? x = some b) : ∃ decl, m.decl? x = some decl := by
  obtain ⟨entry, hentry, -⟩ := Option.bind_eq_some_iff.1 h
  exact ⟨entry.decl, by rw [decl?, hentry]; rfl⟩

theorem decl?_of_undeclared {m : Context} {x : Var} (h : m.isDeclared x = false) :
    m.decl? x = none := by
  have hnone : m.get? x = none := by simpa [isDeclared] using h
  rw [decl?, hnone]
  rfl

/-- Contexts that answer every look-up alike are equal. -/
theorem ext {m n : Context} (h : ∀ x, m.get? x = n.get? x) : m = n := by
  cases m; cases n
  exact congrArg _ (SortedMap.ext h)

theorem countP_place {x : Var} {old new : Entry} {es : List (Var × Entry)}
    (hx : SortedMap.lookup x es = some old) (ho : old.binding = none)
    (hn : new.binding.isSome = true) :
    (SortedMap.place x new es).countP (·.2.binding.isNone) + 1
      = es.countP (·.2.binding.isNone) := by
  induction es with
  | nil => simp [SortedMap.lookup] at hx
  | cons e es ih =>
    obtain ⟨y, f⟩ := e
    unfold SortedMap.lookup at hx
    unfold SortedMap.place
    cases hc : compare x y with
    | lt => simp [hc] at hx
    | eq =>
      simp only [hc, Option.some.injEq] at hx
      subst hx
      cases hb : new.binding <;> simp_all
    | gt =>
      have := ih (by simpa [hc] using hx)
      simp only [List.countP_cons] at this ⊢
      omega

/-- Binding an open variable leaves one open variable less. -/
theorem openCount_bind {m : Context} {x : Var} {decl : VarDecl} {b : Binding}
    (h : m.assignable x = .ok decl) : (m.bind x decl b).openCount + 1 = m.openCount :=
  countP_place (assignable_eq_ok_iff.1 h) rfl rfl

end Context

end ProofSearch
