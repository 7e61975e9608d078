import ProofSearch.Proofs.Derivation.Soundness

/-!
# Extracting proven roots

A cluster counts as proven as soon as one of its goals is.  What the other goals would have assigned
is missing from the proof, unless the proven goal or something below it assigns it too.

1. `proven_extracts`: the proof of a proven root is extracted if the tree is covered and ordered;
   otherwise the error tells what is missing.
2. `Tree.isCovered`, `Tree.isRankedBy`: tests for a given tree.
3. `extraction_open`: a proven root without a closed proof.
-/

namespace ProofSearch

open Solver

namespace Search

section

variable {rules : List RuleSpec} {options : Options} {fuel : Nat} {s : Solver} {root : Var}
  {vars : VarSet} {run : Run}

/-- What can be missing from the proof of a root that a search has proven. -/
theorem Reached.yields_extractProof {saved : List Snapshot} {d : VarDecl}
    (hreached : Reached (ofRules rules options fuel)
      ((ofRules rules options fuel).start s (.ofGoal root vars s.state)) run)
    (hclauses : ∀ c ∈ RuleSpec.clauses rules, c.isClosed = true) (hs : Built s saved)
    (hd : s.context.decl? root = some d) (hopen : s.context.isAssigned root = false)
    (htype : d.type.hasVar = false) (hhyps : ∀ h ∈ d.hyps, h.type.hasVar = false)
    (hproven : (run.tree.goal Tree.root).state.isProven = true) :
    Yields (run.tree.extractProof 0) run.solver
      (fun e => (¬ run.tree.Covered ∧ ∃ term x count, e = .extraction (.openTerm term x count)) ∨
        ¬ run.tree.Ordered (fun x => x = root ∨ s.lastId < x.index) ∧
          ∃ x, e = .metavar (.alreadyAssigned x) ∨ e = .metavar (.occursCheck x))
      fun _ _ => True := by
  have hdecl := Context.isDeclared_of_decl? hd
  let P := Problem.ofGoal (RuleSpec.clauses rules) s root d hclauses (hs.numbered.1 root hdecl)
    htype hhyps
  have hbinding : s.context.binding? root = none := by
    simpa [Context.isAssigned] using hopen
  have hstart : Conforms P (.start P) s.context :=
    conforms_start hs.numbered.1 rfl hd hbinding rfl rfl
  have hsteady : Steady (ofRules rules options fuel) Tree.nowhere _ _ := steady_start s root vars
  obtain ⟨L, -, hkept⟩ := hreached.kept (lawful_ofRules rfl options fuel)
    (valid_start s root vars) (⟨rfl, recorded_ofGoal hstart hdecl⟩ : Kept P (.start P) _)
  have hbacked : run.tree.Backed := (hreached.steady hsteady).backed
    (hreached.normBacked hsteady (Tree.normBacked_ofGoal root vars s.state)) hproven
  exact ((ProofSearch.yields_extractProof hkept.tree).errors fun e he => (he hbacked rfl).symm).mono
    fun _ _ _ => trivial

end

/-- If the loop ends with a proven root the proof can be extracted, unless a variable is open that
no proven goal supplies, or a variable leads back to itself through states of different branches. -/
theorem proven_extracts (rules : List RuleSpec) (options : Options) (fuel : Nat) (s : Solver)
    (saved : List Snapshot) (root : Var) (d : VarDecl) (vars : VarSet) (spent : SearchError) (n : Nat)
    (final : Run) (hclauses : ∀ c ∈ RuleSpec.clauses rules, c.isClosed = true) (hs : Built s saved)
    (hd : s.context.decl? root = some d) (hopen : s.context.isAssigned root = false)
    (htype : d.type.hasVar = false) (hhyps : ∀ h ∈ d.hyps, h.type.hasVar = false)
    (hloop : Ends ((ofRules rules options fuel).loop spent n)
      ((ofRules rules options fuel).start s (.ofGoal root vars s.state)) none final) :
    (final.tree.Covered → final.tree.Ordered (fun x => x = root ∨ s.lastId < x.index) →
      ∃ proof s', Ends (final.tree.extractProof 0) final.solver proof s') ∧
    ∀ e s', (final.tree.extractProof 0).run.run final.solver = (.error e, s') →
      (¬ final.tree.Covered ∧ ∃ term x count, e = .extraction (.openTerm term x count)) ∨
      ¬ final.tree.Ordered (fun x => x = root ∨ s.lastId < x.index) ∧
        ∃ x, e = .metavar (.alreadyAssigned x) ∨ e = .metavar (.occursCheck x) := by
  obtain ⟨last, hreached, hlast⟩ := Reached.first.loop hloop
  obtain ⟨hverdict, rfl⟩ := hlast.resolve_right fun h => nomatch h.2.1
  have hyields := hreached.yields_extractProof hclauses hs hd hopen htype hhyps
    (verdict?_proven hverdict)
  rcases hyields.cases with ⟨proof, s', hends, -⟩ | ⟨e, s', hrun, he⟩
  · refine ⟨fun _ _ => ⟨proof, s', hends⟩, fun e v hv => ?_⟩
    cases hends.symm.trans hv
  · refine ⟨fun hcovered hordered => ?_, fun e' v hv => ?_⟩
    · rcases he with ⟨hno, -⟩ | ⟨hno, -⟩
      · exact (hno hcovered).elim
      · exact (hno hordered).elim
    · cases hrun.symm.trans hv
      exact he

end Search

/-! ## Tests -/

namespace Tree

variable {t : Tree}

/-- The goals that contribute to the proof of `g`, nested at most `fuel` times. -/
def contributing (t : Tree) : Nat → GoalId → List GoalId
  | 0, _ => []
  | fuel + 1, g => g :: match (t.goal g).norm with
    | .normal _ _ =>
      match (t.goal g).applications.find? fun r => (t.application r).state.isProven with
      | none => []
      | some r => (t.application r).clusters.flatMap fun c =>
        match (t.cluster c).goals.find? fun g => (t.goal g).state.isProven with
        | none => []
        | some k => t.contributing fuel k
    | _ => []

theorem contributes_of_mem {fuel : Nat} {g k : GoalId} (hg : t.Contributes g)
    (hk : k ∈ t.contributing fuel g) : t.Contributes k := by
  induction fuel generalizing g with
  | zero => cases hk
  | succ fuel ih =>
    unfold contributing at hk
    rcases List.mem_cons.1 hk with rfl | hk
    · exact hg
    · split at hk
      · next x post hnorm =>
        split at hk
        · cases hk
        · next r hr =>
          obtain ⟨c, hc, hk⟩ := List.mem_flatMap.1 hk
          split at hk
          · cases hk
          · next j hj => exact ih (hg.member hnorm hr hc hj) hk
      · cases hk

/-- The variables that the proof of a goal supplies. -/
def goalSupply (t : Tree) (g : GoalId) : List Var :=
  (t.goal g).var :: match (t.goal g).norm with
    | .normal _ _ =>
      match (t.goal g).applications.find? fun r => (t.application r).state.isProven with
      | none => []
      | some r => (t.application r).assigned.toList
    | _ => []

theorem goalSupplies_of_mem {g : GoalId} {y : Var} (h : y ∈ t.goalSupply g) :
    t.GoalSupplies g y := by
  unfold goalSupply at h
  rcases List.mem_cons.1 h with rfl | h
  · exact .inl rfl
  · split at h
    · next x post hnorm =>
      split at h
      · cases h
      · next r hr => exact .inr ⟨x, post, r, hnorm, hr, VarSet.mem_toList.1 h⟩
    · cases h

/-- All variables that contributing goals supply. -/
def supply (t : Tree) : List Var :=
  (t.contributing (t.goals.size + 1) Tree.root).flatMap t.goalSupply

/-- A test for coverage that looks at all recorded states and all assigned terms. -/
def isCovered (t : Tree) : Bool :=
  t.snapshots.all fun m => m.context.vars.all fun x => match m.context.binding? x with
    | some (.value v) => v.occurrences.all fun y => m.context.isAssigned y || t.supply.contains y
    | _ => true

theorem covered_of_isCovered (h : t.isCovered = true) : t.Covered := by
  intro m x v y _ hm hb hy hopen
  have hx := List.all_eq_true.1 (List.all_eq_true.1 h m hm.mem_snapshots) x
    (Context.mem_vars_of_isAssigned (by rw [Context.isAssigned, hb]; rfl))
  rw [hb] at hx
  have hsupply := List.all_eq_true.1 hx y (Term.mem_occurrences.2 hy)
  rw [hopen, Bool.false_or, List.contains_iff_mem] at hsupply
  obtain ⟨g, hg, hy⟩ := List.mem_flatMap.1 hsupply
  exact ⟨g, contributes_of_mem .root hg, goalSupplies_of_mem hy⟩

/-- A test that looks at all recorded states: no value and no type mentions a variable of the same
rank or above. -/
def isRankedBy (t : Tree) (rank : Var → Nat) : Bool :=
  t.snapshots.all fun m => m.context.vars.all fun x =>
    (match m.context.binding? x with
      | some (.value v) => v.occurrences.all fun y => rank y < rank x
      | _ => true) &&
    match m.context.decl? x with
    | some d => d.type.occurrences.all fun y => rank y < rank x
    | none => true

theorem ordered_of_isRankedBy {rank : Var → Nat} (h : t.isRankedBy rank = true)
    (own : Var → Prop) : t.Ordered own := by
  refine ⟨rank, ?_⟩
  rintro x y - ⟨m, hm, hxy⟩
  have hall := List.all_eq_true.1 h m hm.mem_snapshots
  rcases hxy with ⟨v, hb, hy⟩ | ⟨d, hd, hy⟩
  · have hx := List.all_eq_true.1 hall x
      (Context.mem_vars_of_isAssigned (by rw [Context.isAssigned, hb]; rfl))
    rw [hb, Bool.and_eq_true] at hx
    exact of_decide_eq_true (List.all_eq_true.1 hx.1 y (Term.mem_occurrences.2 hy))
  · have hx := List.all_eq_true.1 hall x
      (Context.mem_vars_of_isDeclared (Context.isDeclared_of_decl? hd))
    rw [hd, Bool.and_eq_true] at hx
    exact of_decide_eq_true (List.all_eq_true.1 hx.2 y (Term.mem_occurrences.2 hy))

end Tree

/-! ## Goals that need one witness -/

namespace Search

def witnessSplit : Clause where
  name := "c"
  params := [("x", .const "X")]
  premises := [.app "P" [.hyp "x"], .app "Q" [.hyp "x"]]
  conclusion := .const "Root"

/-- The goals `P(x)` and `Q(x)` share a variable, and only `a` is known to satisfy `Q`. -/
def witnessRules (lemmaP : Clause) : List RuleSpec :=
  [tentativeClause "Root" witnessSplit, tentativeClause "P" lemmaP,
    tentativeClause "Q" ⟨"q", [], [], .app "Q" [.const "a"]⟩]

/-- `P` holds of `a`.  Its proof tells what `x` is. -/
def lemmaOne : Clause := ⟨"p", [], [], .app "P" [.const "a"]⟩

/-- `P` holds of everything.  Its proof leaves `x` open. -/
def lemmaAll : Clause := ⟨"l", [("y", .const "X")], [], .app "P" [.hyp "y"]⟩

def witnessSearch (lemmaP : Clause) : Search :=
  ofRules (witnessRules lemmaP) { strategy := .depthFirst } 100

def witnessStart (lemmaP : Clause) : Run :=
  (witnessSearch lemmaP).start rootSolver (.ofGoal ⟨1⟩ ∅ rootSolver.state)

/-- Types are below what has them, and copies of goals are below the goals. -/
def witnessRank (x : Var) : Nat := [0, 4, 0, 2, 3, 1].getD x.index 0

theorem proven_extracts_witness : ∃ final,
    Ends ((witnessSearch lemmaOne).loop .outOfFuel 10) (witnessStart lemmaOne) none final ∧
    final.tree.Covered ∧
    final.tree.Ordered (fun x => x = ⟨1⟩ ∨ rootSolver.lastId < x.index) ∧
    ∃ proof s', Ends (final.tree.extractProof 0) final.solver proof s' := by
  obtain ⟨verdict, final, hloop, htest⟩ := exists_ends
    (x := (witnessSearch lemmaOne).loop .outOfFuel 10) (s := witnessStart lemmaOne)
    (fun verdict final => verdict.isNone && final.tree.isCovered && final.tree.isRankedBy witnessRank)
    (by decide +kernel)
  simp only [Bool.and_eq_true, Option.isNone_iff_eq_none] at htest
  obtain ⟨⟨rfl, hcovered⟩, hranked⟩ := htest
  have hcovered := Tree.covered_of_isCovered hcovered
  have hordered := Tree.ordered_of_isRankedBy hranked fun x => x = ⟨1⟩ ∨ rootSolver.lastId < x.index
  have hextracts := proven_extracts (witnessRules lemmaOne) { strategy := .depthFirst } 100 rootSolver
    [] ⟨1⟩ ⟨.const "Root", [], none⟩ ∅ .outOfFuel 10 final (by decide) (.perform _ .empty) (by decide)
    (by decide) (by decide) (by decide) hloop
  exact ⟨final, hloop, hcovered, hordered, hextracts.1 hcovered hordered⟩

/-- The proof of `P(x)` proves the root, `Q(x)` is dropped, and `c(x, l(x), …)` stays open. -/
theorem extraction_open : ∃ final term x count s',
    Ends ((witnessSearch lemmaAll).loop .outOfFuel 10) (witnessStart lemmaAll) none final ∧
    (final.tree.extractProof 0).run.run final.solver =
      (.error (.extraction (.openTerm term x count)), s') := by
  obtain ⟨verdict, final, hloop, htest⟩ := exists_ends
    (x := (witnessSearch lemmaAll).loop .outOfFuel 10) (s := witnessStart lemmaAll)
    (fun verdict final => verdict.isNone && match (final.tree.extractProof 0).run.run final.solver with
      | (.error (.extraction (.openTerm _ _ _)), _) => true
      | _ => false)
    (by decide +kernel)
  simp only [Bool.and_eq_true, Option.isNone_iff_eq_none] at htest
  obtain ⟨rfl, hopen⟩ := htest
  split at hopen
  · next term x count s' hrun => exact ⟨final, term, x, count, s', hloop, hrun⟩
  · cases hopen

end Search

end ProofSearch
