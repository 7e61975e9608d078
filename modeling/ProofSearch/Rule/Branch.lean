import ProofSearch.Term
import ProofSearch.SortedMap

/-!
# Branch state

What rules remember along one branch of the search.  A rule's value is handed from a goal to the
goals made by its rule applications; siblings never see each other's changes.
-/

namespace ProofSearch

/-- A value that a rule remembers. -/
inductive BranchValue where
  | number (n : Int)
  | text (s : String)
deriving DecidableEq, Repr, Inhabited

/-- The values remembered on a branch, by the name of the rule. -/
structure BranchState where
  values : SortedMap String BranchValue
deriving DecidableEq, Inhabited

namespace BranchState

def empty : BranchState := ⟨∅⟩

def get? (b : BranchState) (rule : String) : Option BranchValue := b.values.get? rule

def update (b : BranchState) (rule : String) (value : BranchValue) : BranchState :=
  ⟨b.values.insert rule value⟩

def size (b : BranchState) : Nat := b.values.size

def isEmpty (b : BranchState) : Bool := b.values.isEmpty

@[simp] theorem get?_update (b : BranchState) (rule other : String) (value : BranchValue) :
    (b.update rule value).get? other = if other = rule then some value else b.get? other :=
  SortedMap.get?_insert ..

end BranchState

end ProofSearch
