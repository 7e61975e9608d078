import ProofSearch.Text.Blank

/-!
# Search statistics

Counters kept during a search and their table.
-/

namespace ProofSearch

structure Stats where
  iterations : Nat := 0
  goals : Nat := 0
  ruleApplications : Nat := 0
  ruleRuns : Nat := 0
  failedRuleRuns : Nat := 0
  postponedSafeRules : Nat := 0
  normRounds : Nat := 0
  goalsProvenByNorm : Nat := 0
  forcedUnprovable : Nat := 0
  safePrefixRuleApplications : Nat := 0
  /-- Some goal was given up because of its depth. -/
  depthLimitReached : Bool := false
deriving DecidableEq, Repr, Inhabited

namespace Stats

/-- Counts one run of a rule. -/
def recordRuleRun (s : Stats) (succeeded : Bool) : Stats :=
  { s with
    ruleRuns := s.ruleRuns + 1
    failedRuleRuns := if succeeded then s.failedRuleRuns else s.failedRuleRuns + 1 }

/-- The counters under their names. -/
def counters (s : Stats) : List (String × Nat) :=
  [("iterations", s.iterations),
   ("goals", s.goals),
   ("rule_applications", s.ruleApplications),
   ("rule_runs", s.ruleRuns),
   ("failed_rule_runs", s.failedRuleRuns),
   ("postponed_safe_rules", s.postponedSafeRules),
   ("norm_rounds", s.normRounds),
   ("goals_proven_by_norm", s.goalsProvenByNorm),
   ("forced_unprovable", s.forcedUnprovable),
   ("safe_prefix_rule_applications", s.safePrefixRuleApplications)]

/-- The statistics with the counters that a function of their names gives. -/
def ofCounters (count : String → Nat) : Stats where
  iterations := count "iterations"
  goals := count "goals"
  ruleApplications := count "rule_applications"
  ruleRuns := count "rule_runs"
  failedRuleRuns := count "failed_rule_runs"
  postponedSafeRules := count "postponed_safe_rules"
  normRounds := count "norm_rounds"
  goalsProvenByNorm := count "goals_proven_by_norm"
  forcedUnprovable := count "forced_unprovable"
  safePrefixRuleApplications := count "safe_prefix_rule_applications"

/-- The rows of the table: a label of fixed width and the counter. -/
def rows (s : Stats) : List (String × Nat) :=
  [("iterations                 ", s.iterations),
   ("goals                      ", s.goals),
   ("rule applications          ", s.ruleApplications),
   ("rule runs                  ", s.ruleRuns),
   ("failed rule runs           ", s.failedRuleRuns),
   ("postponed safe rules       ", s.postponedSafeRules),
   ("normalization rounds       ", s.normRounds),
   ("goals proven by norm       ", s.goalsProvenByNorm),
   ("forced unprovable          ", s.forcedUnprovable),
   ("safe prefix applications   ", s.safePrefixRuleApplications)]

/-- The table of all counters under a heading. -/
def text (s : Stats) : String :=
  "\n".intercalate ("-------------- statistics -------------" ::
    s.rows.map fun row => row.1 ++ Text.alignRight 8 row.2.repr)

end Stats

end ProofSearch
