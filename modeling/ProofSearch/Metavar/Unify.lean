import ProofSearch.Metavar.Instantiate

/-!
# Unification

First-order unification on a list of equations.  The terms of the list are always instantiated in
the context at hand: binding a variable instantiates the remaining equations anew.  Between two
bindings symbols are taken off the equations, and each binding leaves fewer open variables, so the
recursion ends for every context.
-/

namespace ProofSearch

/-- Two terms to be made equal. -/
structure Equation where
  left : Term
  right : Term
deriving DecidableEq, Repr

namespace Equation

def size (e : Equation) : Nat := e.left.size + e.right.size

def map (f : Term → Term) (e : Equation) : Equation := ⟨f e.left, f e.right⟩

/-- The equations between the arguments at each position. -/
def pairs : List Term → List Term → List Equation
  | l :: ls, r :: rs => ⟨l, r⟩ :: pairs ls rs
  | _, _ => []

def totalSize : List Equation → Nat
  | [] => 0
  | e :: es => e.size + totalSize es

theorem totalSize_append (es fs : List Equation) :
    totalSize (es ++ fs) = totalSize es + totalSize fs := by
  induction es with
  | nil => simp [totalSize]
  | cons e es ih => simp only [List.cons_append, totalSize, ih]; omega

theorem totalSize_pairs_le : ∀ ls rs : List Term,
    totalSize (pairs ls rs) ≤ Term.sizeList ls + Term.sizeList rs
  | [], _ => by simp [pairs, totalSize]
  | _ :: _, [] => by simp [pairs, totalSize]
  | l :: ls, r :: rs => by
    have := totalSize_pairs_le ls rs
    simp only [pairs, totalSize, size, Term.sizeList]
    omega

end Equation

namespace Context

/-- What the first equation asks for: nothing, a binding, equations between arguments, or it cannot
hold. -/
inductive UnifyStep where
  | done
  | bind (x : Var) (t : Term)
  | split (equations : List Equation)
  | clash
deriving DecidableEq, Repr

/-- A variable on the left is bound before one on the right. -/
def unifyStep : Term → Term → UnifyStep
  | .var x, .var y => if x = y then .done else .bind x (.var y)
  | .var x, t => .bind x t
  | t, .var y => .bind y t
  | .const a, .const b | .hyp a, .hyp b => if a = b then .done else .clash
  | .app f xs, .app g ys =>
    if f = g ∧ xs.length = ys.length then .split (Equation.pairs xs ys) else .clash
  | _, _ => .clash

theorem totalSize_lt_of_unifyStep {l r : Term} {es : List Equation}
    (h : unifyStep l r = .split es) : Equation.totalSize es < l.size + r.size := by
  revert h
  fun_cases unifyStep l r <;> intro h
  case case9 f xs g ys _ =>
    cases h
    have := Equation.totalSize_pairs_le xs ys
    simp only [Term.size]
    omega
  all_goals cases h

/-- What a list of equations asks for first. -/
inductive Demand where
  /-- All equations hold. -/
  | solved
  | bind (x : Var) (t : Term) (rest : List Equation)
  | clash
deriving DecidableEq, Repr

/-- Takes equations apart until one asks for a binding; `rest` are the equations behind that one. -/
def demand (equations : List Equation) : Demand :=
  match equations with
  | [] => .solved
  | ⟨l, r⟩ :: rest =>
    match _hstep : unifyStep l r with
    | .done => demand rest
    | .split es => demand (es ++ rest)
    | .bind x t => .bind x t rest
    | .clash => .clash
termination_by Equation.totalSize equations
decreasing_by
  · have := l.size_pos
    simp only [Equation.totalSize, Equation.size]
    omega
  · have := totalSize_lt_of_unifyStep _hstep
    simp only [Equation.totalSize_append, Equation.totalSize, Equation.size]
    omega

/-- Solves equations whose terms are instantiated in `m`, the first equation first. -/
def unifyAll (m : Context) (equations : List Equation) : Option Context :=
  match demand equations with
  | .solved => some m
  | .clash => none
  | .bind x t rest =>
    match _hassign : m.assign x t with
    | .error _ => none
    | .ok n => n.unifyAll (rest.map (·.map n.instantiate))
termination_by m.openCount
decreasing_by
  have := openCount_assign _hassign
  omega

/-- The context in which both terms have been made equal, if there is one. -/
def unify (m : Context) (l r : Term) : Option Context :=
  m.unifyAll [⟨m.instantiate l, m.instantiate r⟩]

end Context

end ProofSearch
