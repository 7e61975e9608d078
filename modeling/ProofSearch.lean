import ProofSearch.AndOr.Outline
import ProofSearch.Rule.Assumption
import ProofSearch.Rule.Clause
import ProofSearch.Search.Loop
import ProofSearch.Proofs.AndOr.Settling
import ProofSearch.Proofs.AndOr.Links
import ProofSearch.Proofs.Ends
import ProofSearch.Proofs.AndOr.Evaluation
import ProofSearch.Proofs.AndOr.Adding
import ProofSearch.Proofs.AndOr.Consistency
import ProofSearch.Proofs.AndOr.Relevance
import ProofSearch.Proofs.AndOr.Retaining
import ProofSearch.Proofs.AndOr.RuleRecords
import ProofSearch.Proofs.AndOr.Pruning
import ProofSearch.Proofs.Search.Moves
import ProofSearch.Proofs.Search.Progress
import ProofSearch.Proofs.Search.Pruning
import ProofSearch.Proofs.Search.Errors
import ProofSearch.Proofs.Search.Effects
import ProofSearch.Proofs.Search.Termination
import ProofSearch.Proofs.Metavar.Resolution
import ProofSearch.Proofs.Metavar.Cycles
import ProofSearch.Proofs.Metavar.Unification
import ProofSearch.Proofs.Derivation.Clauses
import ProofSearch.Proofs.Metavar.Operations
import ProofSearch.Proofs.Derivation.Ledger
import ProofSearch.Proofs.Derivation.Rules
import ProofSearch.Proofs.Derivation.Recorded
import ProofSearch.Proofs.Derivation.Runs
import ProofSearch.Proofs.Derivation.Assembly
import ProofSearch.Proofs.Derivation.Soundness
import ProofSearch.Proofs.Derivation.Extraction
import ProofSearch.Proofs.Derivation.Offers
import ProofSearch.Proofs.Derivation.Tidy
import ProofSearch.Proofs.Metavar.Matching
import ProofSearch.Proofs.Derivation.Reductions
import ProofSearch.Proofs.AndOr.Independent
import ProofSearch.Proofs.Derivation.Exploration
import ProofSearch.Proofs.Derivation.Expansion
import ProofSearch.Proofs.Derivation.Covering
import ProofSearch.Proofs.Derivation.Completeness
import ProofSearch.Proofs.Metavar.MostGeneral
import ProofSearch.Proofs.Metavar.Symmetry
import ProofSearch.Proofs.Search.ExpansionSteps
import ProofSearch.Proofs.Search.Stepwise
import ProofSearch.Proofs.Derivation.Additions
import ProofSearch.Proofs.Derivation.Charts
import ProofSearch.Proofs.Derivation.Copies
import ProofSearch.Proofs.Derivation.VarHistory
import ProofSearch.Proofs.Derivation.VarHistorySteps
import ProofSearch.Proofs.Derivation.Siblings
import ProofSearch.Proofs.Derivation.Sparing
import ProofSearch.Proofs.Derivation.Prefix
import ProofSearch.Proofs.Derivation.OpenGoals
import ProofSearch.Proofs.AndOr.Forest
import ProofSearch.Proofs.AndOr.Components
import ProofSearch.Proofs.Answer.Provenance
import ProofSearch.Proofs.Answer.Excerpt
import ProofSearch.Proofs.Metavar.Freshness
import ProofSearch.Proofs.Answer.Declarations
import ProofSearch.Proofs.Search.SearchSteps
import ProofSearch.Proofs.Search.CoarseSteps
import ProofSearch.Proofs.Search.Trials
import ProofSearch.Proofs.Search.Fairness
import ProofSearch.Proofs.AndOr.InPlace
import ProofSearch.Proofs.AndOr.Ancestry
import ProofSearch.Proofs.Search.Normalization
import ProofSearch.Proofs.Derivation.Visits
import ProofSearch.Proofs.Search.SafePrefix
import ProofSearch.Proofs.Derivation.CopyEffects
import ProofSearch.Proofs.Derivation.EarlyStop
import ProofSearch.Proofs.Derivation.Accounting
import ProofSearch.Proofs.Metavar.Commutation
import ProofSearch.Proofs.Search.QueueOrder
import ProofSearch.Proofs.Rule.Candidates
import ProofSearch.Proofs.Rule.Selection
import ProofSearch.Proofs.Answer.Nesting
import ProofSearch.Proofs.Answer.DepthLimit
import ProofSearch.Proofs.AndOr.Preorder
import ProofSearch.Proofs.Metavar.Stability
