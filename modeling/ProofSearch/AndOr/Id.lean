/-!
# Nodes of the search tree

Goals, rule applications and clusters are numbered in the order in which they were made.
-/

namespace ProofSearch

structure GoalId where
  index : Nat
deriving DecidableEq, Repr, Inhabited

structure ApplicationId where
  index : Nat
deriving DecidableEq, Repr, Inhabited

structure ClusterId where
  index : Nat
deriving DecidableEq, Repr, Inhabited

/-- The written form, such as `G3`. -/
def GoalId.text (g : GoalId) : String := "G" ++ g.index.repr

/-- The written form, such as `R3`. -/
def ApplicationId.text (r : ApplicationId) : String := "R" ++ r.index.repr

/-- The written form, such as `C3`. -/
def ClusterId.text (c : ClusterId) : String := "C" ++ c.index.repr

end ProofSearch
