import ProofSearch.Term

/-!
# Hypotheses

The hypotheses of a goal in the order in which they were introduced.  A name may be introduced
again; it then refers to the latest hypothesis of that name.
-/

namespace ProofSearch

structure Hypothesis where
  name : String
  type : Term
deriving DecidableEq, Repr, Inhabited

/-- The hypotheses of a goal, earliest first. -/
abbrev LocalContext := List Hypothesis

namespace LocalContext

/-- The latest hypothesis of the given name. -/
def find? (hyps : LocalContext) (name : String) : Option Hypothesis :=
  hyps.reverse.find? (·.name = name)

def mapTypes (hyps : LocalContext) (f : Term → Term) : LocalContext :=
  hyps.map fun h => ⟨h.name, f h.type⟩

end LocalContext

end ProofSearch
