import ProofSearch.Search.Options
import ProofSearch.Search.Stats

/-!
# Failed searches

Why a search ended without proving its root goal, and how that is reported.
-/

namespace ProofSearch

inductive FailureReason where
  /-- Every way of proving the root goal failed. -/
  | unprovable
  /-- No goal was left to expand while the root was undecided. -/
  | exhausted
  | maxGoals
  | maxRuleApplications
deriving DecidableEq, Repr, Inhabited

namespace FailureReason

def text : FailureReason → String
  | .unprovable => "unprovable"
  | .exhausted => "exhausted"
  | .maxGoals => "maximum goals reached"
  | .maxRuleApplications => "maximum rule applications reached"

/-- The sentence that names the reason. -/
def summary (o : Options) : FailureReason → String
  | .unprovable => "failed to prove the goal after exhaustive search."
  | .exhausted => "failed to prove the goal: no goals left to expand."
  | .maxGoals =>
    "failed to prove the goal: maximum number of goals (" ++ o.maxGoals.repr ++
      ") reached. Set option 'maxGoals' to increase the limit."
  | .maxRuleApplications =>
    "failed to prove the goal: maximum number of rule applications (" ++
      o.maxRuleApplications.repr ++
      ") reached. Set option 'maxRuleApplications' to increase the limit."

/-- The full report, which also says whether goals were given up because of their depth. -/
def message (o : Options) (s : Stats) (reason : FailureReason) : String :=
  reason.summary o ++
    if s.depthLimitReached then
      " Some goals were not explored because the maximum rule application depth (" ++
        o.maxRuleApplicationDepth.repr ++
        ") was reached. Set option 'maxRuleApplicationDepth' to increase the limit."
    else ""

end FailureReason

end ProofSearch
