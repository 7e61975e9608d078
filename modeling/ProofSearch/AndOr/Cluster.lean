import ProofSearch.AndOr.Forest
import ProofSearch.Metavar.Instantiate

/-!
# Clusters of subgoals

Subgoals that share an open variable belong together, directly or through other subgoals.  A subgoal
counts as one of its own variables, so a goal whose type mentions another goal joins it.  Clusters
are listed by their first member, and members keep their order.
-/

namespace ProofSearch

/-- Positions joined so far, and for each variable met the first position at which it was met. -/
structure Linkage (n : Nat) where
  forest : Forest n
  owner : SortedMap Var (Fin n)

namespace Linkage

variable {n : Nat}

def empty (n : Nat) : Linkage n := ⟨.singletons n, ∅⟩

/-- Meets a variable at a position, which is joined to the position where it was first met. -/
def visit (l : Linkage n) (i : Fin n) (x : Var) : Linkage n :=
  match l.owner.get? x with
  | some first => { l with forest := l.forest.union i first }
  | none => { l with owner := l.owner.insert x i }

/-- Joins the positions that share a variable. -/
def ofSets (sets : Fin n → VarSet) : Linkage n :=
  (List.finRange n).foldl (fun l i => (sets i).toList.foldl (fun l x => l.visit i x) l) (empty n)

end Linkage

/-- A subgoal with the open variables that it depends on. -/
structure Subgoal where
  var : Var
  deps : VarSet
deriving DecidableEq

namespace Subgoal

/-- The variables through which a subgoal is linked to others. -/
def reach (s : Subgoal) : VarSet := s.deps.insert s.var

/-- The groups of linked subgoals. -/
def clusters (subgoals : List Subgoal) : List (List Subgoal) :=
  let linkage := Linkage.ofSets fun i => (subgoals.get i).reach
  linkage.forest.groups.map fun group => group.map subgoals.get

end Subgoal

/-- Subgoals with their dependencies; fails at the first goal that is not declared. -/
def Context.subgoals (m : Context) (goals : List Var) : Except MetavarError (List Subgoal) :=
  goals.mapM fun x => (m.dependencies x).map (⟨x, ·⟩)

/-- Groups goals that share open variables. -/
def Context.clusterGoals (m : Context) (goals : List Var) :
    Except MetavarError (List (List Subgoal)) :=
  (m.subgoals goals).map Subgoal.clusters

end ProofSearch
