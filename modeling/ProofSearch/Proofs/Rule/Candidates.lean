import ProofSearch.Proofs.Ends
import ProofSearch.Search.Expand

/-!
# Candidates

What a rule proposes is checked before it is used.

1. `Proposal.check_eq_ok`, `Rule.examine_applied`: the candidates of a rule and its proposals.
2. `Rule.checkNorm_eq_ok`, `Search.eagerCandidate?_eq_some`: what is asked of a candidate that
   normalizes a goal or is applied at once.
-/

namespace ProofSearch

theorem Proposal.check_eq_ok {p : Proposal} {rule : String} {pre : Snapshot} {b : Bool}
    {c : Candidate} (h : p.check rule pre b = .ok c) : c.post = p.post ∧
      c.goals = p.goals.filter (fun x => !p.post.context.isAssigned x) ∧
      c.assigned = p.post.context.assignedSince pre.context ∧
      c.introduced = p.post.context.declaredSince pre.context := by
  unfold Proposal.check at h
  dsimp only at h
  split at h
  · cases hi : checkEffect rule .introduced p.introduced
      (p.post.context.declaredSince pre.context) with
    | error e =>
      rw [hi] at h
      cases h
    | ok =>
      cases ha : checkEffect rule .assigned p.assigned
        (p.post.context.assignedSince pre.context) with
      | error e =>
        rw [hi, ha] at h
        cases h
      | ok =>
        rw [hi, ha] at h
        cases h
        exact ⟨rfl, rfl, rfl, rfl⟩
  · cases h
    exact ⟨rfl, rfl, rfl, rfl⟩

/-- A candidate that is recorded to assign none of `vars` leaves them open, but for those that were
not declared before. -/
theorem Proposal.open_of_disjoint {p : Proposal} {rule : String} {pre : Snapshot} {b : Bool}
    {c : Candidate} {vars : VarSet} {y : Var} (h : p.check rule pre b = .ok c)
    (hd : c.assigned.disjoint vars = true) (hy : y ∈ vars)
    (ha : c.post.context.isAssigned y = true) :
    pre.context.isAssigned y = true ∨ pre.context.isDeclared y = false := by
  obtain ⟨hpost, -, hassigned, -⟩ := Proposal.check_eq_ok h
  by_contra hnot
  obtain ⟨hopen, hdecl⟩ : pre.context.isAssigned y = false ∧ pre.context.isDeclared y = true := by
    simpa using hnot
  refine VarSet.disjoint_iff.1 hd y ?_ hy
  rw [hassigned, ← hpost]
  exact Context.mem_assignedSince.2 ⟨hdecl, hopen, ha⟩

/-- The candidates of a rule are its proposals, of which there is at least one. -/
theorem Rule.examine_applied {r : Rule} {pre : Snapshot} {b : Bool}
    {res : Except RuleError RuleOutput} {candidates : List Candidate} {value? : Option BranchValue}
    (h : r.examine pre b res = .ok (.applied candidates value?)) : ∃ out, res = .ok out ∧
      out.proposals ≠ [] ∧
      List.Forall₂ (fun p c => p.check r.name pre b = .ok c) out.proposals candidates := by
  unfold Rule.examine at h
  split at h
  · cases h
  · cases h
  · next proposals branch hne =>
    cases hps : proposals.mapM (·.check r.name pre b) with
    | error e =>
      rw [hps] at h
      cases h
    | ok cs =>
      rw [hps] at h
      cases h
      exact ⟨_, rfl, hne, forall₂_of_mapM hps⟩

/-- What a norm rule keeps to. -/
theorem Rule.checkNorm_eq_ok {r : Rule} {vars : VarSet} {candidates : List Candidate}
    {c : Candidate} (h : r.checkNorm vars candidates = .ok c) :
    candidates = [c] ∧ c.goals.length ≤ 1 ∧ c.assigned.disjoint vars = true := by
  unfold Rule.checkNorm at h
  split at h
  · split at h
    · cases h
    · next hlen =>
      split at h
      · cases h
      · next hdisjoint =>
        cases h
        exact ⟨rfl, Nat.le_of_not_lt hlen, by simpa using hdisjoint⟩
  · cases h

namespace Search

/-- A candidate that is applied at once is the only one. -/
theorem eagerCandidate?_eq_some {vars : VarSet} {candidates : List Candidate} {c : Candidate}
    (h : eagerCandidate? vars candidates = some c) :
    candidates = [c] ∧ c.assigned.disjoint vars = true := by
  unfold eagerCandidate? at h
  split at h
  · split at h
    · next hd =>
      cases h
      exact ⟨rfl, hd⟩
    · cases h
  · cases h

end Search

end ProofSearch
