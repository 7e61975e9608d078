import ProofSearch.Proofs.Derivation.Exploration
import ProofSearch.Proofs.Derivation.Sources

/-!
# Explored trees have closed proofs

1. `Explored.source`: the states that a proof is copied from are tidy.
2. `Explored.ordered`: the value of a proof variable mentions parameters and later proof variables
   only, so no variable leads back to itself.
3. `Grounded`: all proof variables in the values of a state belong to goals that contribute to the
   proof.
4. `Explored.covered`: nothing is missing from the proof.
-/

namespace ProofSearch

variable {P : Problem} {σ : Valuation} {rules : List RuleSpec} {exempt : GoalId → Rule → Prop}
  {t : Tree}

namespace Explored

theorem normPost_eq (h : Explored P σ rules exempt t) {g : GoalId} (hg : t.HasGoal g)
    {post : Snapshot} (hpost : (t.goal g).normPost? = some post) : post = t.preState g := by
  rcases (h.goal g hg).norm with hnorm | hnorm
  · simp [Goal.normPost?, hnorm] at hpost
  · simpa [Goal.normPost?, hnorm] using hpost.symm

/-- The states that a proof is copied from are tidy. -/
theorem source (h : Explored P σ rules exempt t) {m : Snapshot} (hm : t.Source m) :
    Tidy P σ m.context := by
  cases hm with
  | start => exact h.start
  | norm hg hpost =>
    have hg := hg.hasGoal h.linked.root
    rw [h.normPost_eq hg hpost]
    exact (h.state hg).1
  | applied hg _ hr =>
    have hr := (h.linked.applicationChild _ (hg.hasGoal h.linked.root) _
      (List.mem_of_find?_eq_some hr)).1
    obtain ⟨_, -, _, _, _, -, -, hreduces, -⟩ := (h.way _ hr).step
    exact hreduces.tidy

end Explored

/-! ## Order -/

/-- Parameters by their numbers, above them proof variables, the latest first. -/
def Valuation.rank (σ : Valuation) (x : Var) : Nat :=
  if (σ.value? x).isSome then x.index else 2 * σ.last + 1 - x.index

theorem Valuation.rank_param {x : Var} (h : (σ.value? x).isSome = true) :
    σ.rank x = x.index ∧ x.index ≤ σ.last := by
  obtain ⟨u, hu⟩ := Option.isSome_iff_exists.1 h
  exact ⟨if_pos h, σ.le_last x u hu⟩

theorem Valuation.rank_proof {x : Var} (h : σ.value? x = none) :
    σ.rank x = 2 * σ.last + 1 - x.index := by
  simp [rank, h]

theorem Valuation.le_rank {x : Var} (h : x.index ≤ σ.last) : x.index ≤ σ.rank x := by
  unfold rank
  split <;> omega

theorem Explored.ordered (h : Explored P σ rules exempt t) : t.Ordered P.Own := by
  refine ⟨σ.rank, ?_⟩
  rintro x y ho ⟨m, hm, ⟨v, hb, hy⟩ | ⟨d, hd, hy⟩⟩
  · obtain ⟨e, he⟩ := Context.exists_decl?_of_binding? hb
    have hle := (h.source hm).le_last ho (Context.isDeclared_of_decl? he)
    obtain ⟨hx, hy⟩ := (h.source hm).value_mentions ho hb hy
    rw [σ.rank_proof hx]
    rcases hy with hy | hy
    · obtain ⟨hrank, hlast⟩ := σ.rank_param hy.value
      omega
    · rw [σ.rank_proof hy.proof]
      have := hy.later
      omega
  · have hx := (h.source hm).decl x d ho hd
    obtain ⟨hy, hlt⟩ := hx.type y hy
    obtain ⟨hrank, -⟩ := σ.rank_param hy.value
    have hle := σ.le_rank hx.le_last
    omega

/-! ## Coverage -/

/-- All proof variables in the values of the state belong to goals that contribute to the proof. -/
def Grounded (P : Problem) (σ : Valuation) (t : Tree) (m : Context) : Prop :=
  ∀ x v y, P.Own x → σ.value? x = none → m.binding? x = some (.value v) → v.occurs y = true →
    σ.value? y = none → ∃ k, t.Contributes k ∧ (t.goal k).var = y

/-- The only goal of a cluster of a proven application is proven. -/
theorem Tree.Sound.child_proven (hs : t.Sound) (hl : t.Linked) {r : ApplicationId} {c : ClusterId}
    {k : GoalId} (hr : t.HasApplication r) (hp : (t.application r).state = .proven)
    (hc : c ∈ (t.application r).clusters) (hk : (t.cluster c).goals = [k]) :
    (t.goal k).state.isProven = true := by
  obtain ⟨j, hj, hjp⟩ := (hs.cluster c (hl.clusterChild r hr c hc).1).proven
    ((hs.application r hr).proven hp c hc)
  rw [hk] at hj
  rwa [← List.mem_singleton.1 hj]

namespace Explored

/-- The first proven application of a contributing goal brings in the variables of its subgoals, and
these contribute too. -/
theorem grounded_post (h : Explored P σ rules exempt t) (hs : t.Sound) {g : GoalId} {x : Var}
    {post : Snapshot} {r : ApplicationId} (hg : t.Contributes g)
    (hnorm : (t.goal g).norm = .normal x post)
    (hr : ((t.goal g).applications.find? fun r => (t.application r).state.isProven) = some r)
    (hpre : Grounded P σ t (t.preState g).context) :
    Grounded P σ t (t.application r).post.context := by
  obtain ⟨hhas, hparent⟩ := h.linked.applicationChild _ (hg.hasGoal h.linked.root) _
    (List.mem_of_find?_eq_some hr)
  obtain ⟨_, -, _, _, vars, -, -, hreduces, hchildren⟩ := (h.way r hhas).step
  rw [hparent] at hreduces
  intro z v y ho hz hb hy hproof
  by_cases hzg : z = (t.goal g).var
  · subst hzg
    obtain ⟨w, hw, hin⟩ := hreduces.value
    obtain rfl : w = v := by simpa using hw.symm.trans hb
    have hmem : y ∈ vars := (hin y hy).resolve_left (by simp [hproof])
    obtain ⟨c, hc, k, hk, hvar⟩ := exists_left_of_mem hchildren hmem
    refine ⟨k, hg.member hnorm hr hc ?_, hvar⟩
    have hproven := hs.child_proven h.linked hhas (by simpa using List.find?_some hr) hc hk
    simp [hk, hproven]
  · exact hpre z v y ho hz ((hreduces.others z ho hz hzg).symm.trans hb) hy hproof

theorem grounded_preState (h : Explored P σ rules exempt t) (hs : t.Sound) {g : GoalId}
    (hg : t.Contributes g) : Grounded P σ t (t.preState g).context := by
  induction hg with
  | root =>
    intro x v y ho _ hb
    rw [h.linked.preState_root, h.clear x ho] at hb
    cases hb
  | @member g k x post r c hg hnorm hr hc hk ih =>
    have hhas := (h.linked.applicationChild _ (hg.hasGoal h.linked.root) _
      (List.mem_of_find?_eq_some hr)).1
    rw [h.linked.preState_eq hhas hc (List.mem_of_find?_eq_some hk)]
    exact h.grounded_post hs hg hnorm hr ih

theorem grounded (h : Explored P σ rules exempt t) (hs : t.Sound) {m : Snapshot}
    (hm : t.Source m) : Grounded P σ t m.context := by
  cases hm with
  | start =>
    intro x v y ho _ hb
    rw [h.clear x ho] at hb
    cases hb
  | norm hg hpost =>
    rw [h.normPost_eq (hg.hasGoal h.linked.root) hpost]
    exact h.grounded_preState hs hg
  | applied hg hnorm hr => exact h.grounded_post hs hg hnorm hr (h.grounded_preState hs hg)

/-- All variables in the proof belong to the search. -/
theorem own_of_inProof (h : Explored P σ rules exempt t) {x : Var} (hx : t.InProof x) :
    P.Own x := by
  induction hx with
  | root => exact h.root.own
  | value _ hm hb hy ih =>
    exact ((h.source hm).value_mentions ih hb hy).2.elim (·.own) (·.own)

/-- Variables that are left open belong to goals whose proofs are copied. -/
theorem covered (h : Explored P σ rules exempt t) (hs : t.Sound) : t.Covered := by
  intro m x v y hx hm hb hy hopen
  have ho := h.own_of_inProof hx
  obtain ⟨hproof, hy' | hy'⟩ := (h.source hm).value_mentions ho hb hy
  · obtain ⟨u, hu⟩ := Option.isSome_iff_exists.1 hy'.value
    have hvalue := (h.source hm).param y u hy'.own hy'.declared hu
    rw [Context.isAssigned, hvalue] at hopen
    cases hopen
  · obtain ⟨k, hk, hvar⟩ := h.grounded hs hm x v y ho hproof hb hy hy'.proof
    exact ⟨k, hk, .inl hvar⟩

end Explored

end ProofSearch
