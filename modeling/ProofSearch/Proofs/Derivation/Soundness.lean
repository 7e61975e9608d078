import ProofSearch.Proofs.Derivation.Assembly
import ProofSearch.Proofs.Derivation.Runs

/-!
# Soundness of proofs

A proof is put together from states that were recorded on different branches.  Each state makes its
own steps fit, but one state may give a variable another value than the next, and the proof keeps
the first one.

1. `Coherent`: the final state agrees with the sources of a proof on the arguments of its clauses.
2. `Assembled.derives`: a coherent proof is a derivation.
3. `proved_derives`: what a search returns is closed, is the value of its goal in the final state,
   and is a derivation if it is coherent.
4. `proved_not_derives`: without coherence it may be none.
-/

namespace ProofSearch

open Solver

/-! ## Coherence -/

section

variable (clauses : List Clause) (f : Context) (root : Var)

/-- The variables that stand for the parts of the proof that `f` gives to `root`. -/
inductive ProofVar : Var → Prop
  | root : ProofVar root
  | copy {x y : Var} : ProofVar x → f.binding? x = some (.value (.var y)) → ProofVar y
  | premise {c : Clause} {x y : Var} {xs ys : List Var} : ProofVar x → c ∈ clauses →
      xs.length = c.params.length →
      f.binding? x = some (.value (.apply c.name ((xs ++ ys).map .var))) → y ∈ ys → ProofVar y

/-- The variable is the argument for a parameter of a clause in the proof. -/
def IsArgument (z : Var) : Prop :=
  ∃ x, ProofVar clauses f root x ∧ ∃ c ∈ clauses, ∃ xs ys : List Var,
    xs.length = c.params.length ∧
    f.binding? x = some (.value (.apply c.name ((xs ++ ys).map .var))) ∧ z ∈ xs

/-- The state `f` agrees with every source of the proof on the arguments of its clauses. -/
def Coherent (t : Tree) : Prop :=
  ∀ z, IsArgument clauses f root z → ∀ m, t.Source m →
    f.instantiate (m.context.instantiate (.var z)) = f.instantiate (.var z)

end

/-- All states that a tree has recorded. -/
def Tree.snapshots (t : Tree) : List Snapshot :=
  t.rootState :: t.goals.toList.filterMap Goal.normPost? ++ t.applications.toList.map (·.post)

/-- The variables that are arguments for parameters of clauses in assigned terms. -/
def Context.arguments (clauses : List Clause) (m : Context) : List Var :=
  m.vars.flatMap fun x => match m.binding? x with
    | some (.value (.app head ts)) => (clauses.filter (·.name = head)).flatMap fun c =>
        (ts.take c.params.length).flatMap Term.occurrences
    | _ => []

/-- A test for coherence that looks at all recorded states and all assigned terms. -/
def Context.agreesWith (clauses : List Clause) (f : Context) (t : Tree) : Bool :=
  (f.arguments clauses).all fun z => t.snapshots.all fun m =>
    f.instantiate (m.context.instantiate (.var z)) = f.instantiate (.var z)

variable {P : Problem} {L : Ledger} {t : Tree} {f : Context}

theorem Tree.normPost_mem_snapshots {g : GoalId} {post : Snapshot}
    (h : (t.goal g).normPost? = some post) : post ∈ t.snapshots := by
  refine List.mem_append_left _ (List.mem_cons_of_mem _ (List.mem_filterMap.2 ⟨t.goal g, ?_, h⟩))
  by_cases hg : t.HasGoal g
  · exact by simp [Tree.goal, Array.getD, show g.index < t.goals.size from hg]
  · rw [Tree.goal_of_not_has hg] at h
    cases h

theorem Tree.post_mem_snapshots {r : ApplicationId} (hr : t.HasApplication r) :
    (t.application r).post ∈ t.snapshots := by
  refine List.mem_append_right _ (List.mem_map.2 ⟨t.application r, ?_, rfl⟩)
  simp [Tree.application, Array.getD, show r.index < t.applications.size from hr]

theorem Tree.Source.mem_snapshots {m : Snapshot} (h : t.Source m) : m ∈ t.snapshots := by
  cases h with
  | start => exact List.mem_cons_self
  | norm _ hpost => exact Tree.normPost_mem_snapshots hpost
  | @applied g x post r _ _ hr =>
    by_cases ha : t.HasApplication r
    · exact Tree.post_mem_snapshots ha
    · have hproven := List.find?_some hr
      rw [Tree.application_of_not_has ha] at hproven
      cases hproven

theorem IsArgument.mem_arguments {clauses : List Clause} {root z : Var}
    (h : IsArgument clauses f root z) : z ∈ f.arguments clauses := by
  obtain ⟨x, -, c, hc, xs, ys, hlen, hb, hz⟩ := h
  refine List.mem_flatMap.2 ⟨x, Context.mem_vars_of_isAssigned (by simp [Context.isAssigned, hb]), ?_⟩
  obtain ⟨y, rest, rfl⟩ := List.exists_cons_of_ne_nil (List.ne_nil_of_mem hz)
  simp only [hb, List.cons_append, List.map_cons, Term.apply]
  refine List.mem_flatMap.2 ⟨c, by simpa using hc, List.mem_flatMap.2 ⟨.var z, ?_, ?_⟩⟩
  · rw [← List.map_cons, ← List.map_take, ← List.cons_append, ← hlen, List.take_left]
    exact List.mem_map_of_mem hz
  · exact Term.mem_occurrences.2 (by simp [Term.occurs])

theorem coherent_of_agreesWith {clauses : List Clause} {root : Var}
    (h : f.agreesWith clauses t = true) : Coherent clauses f root t := by
  intro z hz m hm
  have hall := List.all_eq_true.1 (List.all_eq_true.1 h z hz.mem_arguments) m hm.mem_snapshots
  exact of_decide_eq_true hall

theorem Coherent.instantiate_eq (h : Coherent P.clauses f P.root t) {A : Term}
    (hA : ∀ z, A.occurs z = true → IsArgument P.clauses f P.root z) {m : Snapshot}
    (hm : t.Source m) : f.instantiate (m.context.instantiate A) = f.instantiate A := by
  rw [Context.instantiate_instantiate]
  exact Term.subst_congr fun z hz => h z (hA z hz) m hm

/-- The parts of a closed value are closed. -/
theorem closed_of_occurs {t : Term} (h : (f.instantiate t).hasVar = false) {y : Var}
    (hy : t.occurs y = true) : (f.instantiate (.var y)).hasVar = false := by
  refine Term.hasVar_eq_false.2 fun z => ?_
  by_contra hz
  have := Term.hasVar_eq_false.1 h z
  rw [Context.occurs_instantiate.2 ⟨y, hy, by simpa using hz⟩] at this
  cases this

/-- In a coherent state the value of a proof variable derives what the ledger says. -/
theorem Assembled.derives (ha : Assembled P t.Source f) (hr : Recorded P L t)
    (hco : Coherent P.clauses f P.root t) {x : Var} {A : Term} (ho : P.Own x)
    (hx : ProofVar P.clauses f P.root x) (hclaim : L.claim? x = some A)
    (hA : ∀ z, A.occurs z = true → IsArgument P.clauses f P.root z)
    (hclosed : (f.instantiate (.var x)).hasVar = false) :
    Derives P.clauses P.hyps (f.instantiate (.var x)) (f.instantiate A) := by
  induction ha.plain x ho generalizing A with
  | @unbound x hb =>
    rw [Context.instantiate_open hb] at hclosed
    cases hclosed
  | @value x v hb hall ih =>
    have heq := (Context.Plain.value hb hall).instantiate_eq hb
    rw [heq] at hclosed ⊢
    -- The binding was recorded in a source, where it is a step of a derivation.
    obtain ⟨m, hm, hbm⟩ := ha.binding x _ ho hb
    obtain ⟨v', hv, hfit⟩ := (hr.source hm).value x _ ho hbm
    cases hv
    have hstep := hfit.inProofs A hclaim
    cases hstep with
    | @hyp h hh hAm =>
      rw [← hco.instantiate_eq hA hm, hAm, Context.instantiate_closed (P.hyps_closed h hh)]
      exact .hyp hh
    | @clause c xs ys hc hlen hxs hconcl hys =>
      obtain ⟨-, hpremises, hcclosed⟩ := Clause.isClosed_iff.1 (P.clauses_closed c hc)
      have harg (z : Var) (hz : z ∈ xs) : IsArgument P.clauses f P.root z :=
        ⟨x, hx, c, hc, xs, ys, hlen, hb, hz⟩
      have htype : f.instantiate A = c.fill (xs.map fun z => f.instantiate (.var z)) c.conclusion := by
        calc f.instantiate A
          _ = f.instantiate (m.context.instantiate A) := (hco.instantiate_eq hA hm).symm
          _ = f.instantiate (m.context.instantiate (c.fill (xs.map .var) c.conclusion)) := by
            rw [hconcl]
          _ = f.instantiate (c.fill (xs.map .var) c.conclusion) :=
            hco.instantiate_eq (fun z hz => harg z (Clause.occurs_fill hcclosed hz)) hm
          _ = c.fill (xs.map fun z => f.instantiate (.var z)) c.conclusion :=
            Clause.instantiate_fill hcclosed f xs
      have hterm : f.instantiate (.apply c.name ((xs ++ ys).map .var)) = .apply c.name
          (xs.map (fun z => f.instantiate (.var z)) ++ ys.map fun y => f.instantiate (.var y)) := by
        rw [Context.instantiate_eq_subst, Term.subst_apply]
        simp only [List.map_map, List.map_append]
        rfl
      rw [htype, hterm]
      refine .clause hc (by simpa using hlen) (by simpa using hys.length_eq) fun q premise hq => ?_
      rw [List.zip_map_left, List.mem_map] at hq
      obtain ⟨⟨y, premise'⟩, hmem, he⟩ := hq
      cases he
      have hy := (List.forall₂_iff_zip.1 hys).2 hmem
      have hyx : (Term.apply c.name ((xs ++ ys).map .var)).occurs y = true :=
        Term.occurs_apply.2 ⟨.var y, List.mem_map_of_mem
          (List.mem_append_right xs (List.of_mem_zip hmem).1), by simp [Term.occurs]⟩
      have hpc := hpremises premise' (List.of_mem_zip hmem).2
      have hderives := ih y hyx hy.own (.premise hx hc hlen hb (List.of_mem_zip hmem).1) hy.entry
        (fun z hz => harg z (Clause.occurs_fill hpc hz)) (closed_of_occurs hclosed hyx)
      rw [Clause.instantiate_fill hpc] at hderives
      exact hderives
    | @copy y hy =>
      exact ih y (by simp [Term.occurs]) hy.own (.copy hx hb) hy.entry hA hclosed

/-! ## The start of a search -/

namespace Problem

/-- The problem of proving a closed goal of a solver. -/
def ofGoal (clauses : List Clause) (s : Solver) (root : Var) (d : VarDecl)
    (hc : ∀ c ∈ clauses, c.isClosed = true) (hroot : root.index ≤ s.lastId)
    (htype : d.type.hasVar = false) (hhyps : ∀ h ∈ d.hyps, h.type.hasVar = false) : Problem where
  clauses := clauses
  root := root
  type := d.type
  hyps := d.hyps
  base := s.lastId
  root_le := hroot
  type_closed := htype
  hyps_closed := hhyps
  clauses_closed := hc

end Problem

/-- The ledger in which only the root stands for a proof. -/
def Ledger.start (P : Problem) : Ledger where
  claim? x := if x = P.root then some P.type else none
  last := P.base

theorem conforms_start {s : Solver} {d : VarDecl} (hn : NumberedTo s.lastId s.context)
    (hbase : P.base = s.lastId) (hd : s.context.decl? P.root = some d)
    (hb : s.context.binding? P.root = none) (htype : d.type = P.type) (hhyps : d.hyps = P.hyps) :
    Conforms P (.start P) s.context := by
  have hroot {x : Var} (ho : P.Own x) (hx : s.context.isDeclared x = true) : x = P.root :=
    ho.resolve_right (by have := hn x hx; omega)
  refine ⟨le_rfl, fun x _ hx => (hn x hx).trans_eq hbase.symm, fun x e ho he => ?_,
    fun x b ho hx => ?_, fun x ho => ?_⟩
  · obtain rfl := hroot ho (Context.isDeclared_of_decl? he)
    obtain rfl : d = e := Option.some.inj (hd.symm.trans he)
    refine ⟨hhyps, htype ▸ overTypes_closed P.type_closed, fun A hA => ?_⟩
    obtain rfl : P.type = A := by simpa [Ledger.start] using hA
    exact ⟨overTypes_closed P.type_closed, by rw [htype]⟩
  · obtain ⟨e, he⟩ := Context.exists_decl?_of_binding? hx
    obtain rfl := hroot ho (Context.isDeclared_of_decl? he)
    exact nomatch hb.symm.trans hx
  · refine .unbound ?_
    cases hx : s.context.binding? x with
    | none => rfl
    | some b =>
      obtain ⟨e, he⟩ := Context.exists_decl?_of_binding? hx
      obtain rfl := hroot ho (Context.isDeclared_of_decl? he)
      exact nomatch hb.symm.trans hx

theorem recorded_ofGoal {state : Snapshot} {vars : VarSet} (h : Conforms P L state.context)
    (hd : state.context.isDeclared P.root = true) : Recorded P L (.ofGoal P.root vars state) := by
  have hgoal (g : GoalId) : ((Tree.ofGoal P.root vars state).goal g).norm = .notNormal ∧
      ((Tree.ofGoal P.root vars state).goal g).applications = [] := by
    by_cases hg : (Tree.ofGoal P.root vars state).HasGoal g
    · rw [Tree.hasGoal_ofGoal.1 hg]
      exact ⟨rfl, rfl⟩
    · rw [Tree.goal_of_not_has hg]
      exact ⟨rfl, rfl⟩
  have happ (r : ApplicationId) : (Tree.ofGoal P.root vars state).application r = default :=
    Tree.application_of_not_has Tree.not_hasApplication_ofGoal
  refine ⟨h, Tree.hasGoal_ofGoal.2 rfl, rfl,
    fun g => goalKept_fresh (hgoal g).1, fun g hg => ?_, fun g hg => ?_, fun g _ => (hgoal g).2,
    fun r => ?_, fun g x hx => ?_, fun r x hx => ?_⟩
  · rw [Tree.hasGoal_ofGoal.1 hg]
    exact .inl rfl
  · rw [Tree.hasGoal_ofGoal.1 hg]
    exact hd
  · rw [happ]
    exact conforms_empty h.base_le
  · rw [Goal.normVar?, (hgoal g).1] at hx
    cases hx
  · rw [happ] at hx
    exact (VarSet.not_mem_empty x hx).elim

/-! ## The rules of a search -/

namespace RuleSet

theorem mem_add {rs : RuleSet} {r q : Rule} (h : q ∈ (rs.add r).toList) :
    q = r ∨ q ∈ rs.toList := by
  have hins {le : Rule → Rule → Bool} {qs : List Rule} (hq : q ∈ sortOrdered le (qs ++ [r])) :
      q = r ∨ q ∈ qs := by
    simpa [or_comm] using (sortOrdered_perm le (qs ++ [r])).mem_iff.1 hq
  unfold add at h
  split at h <;> simp only [toList, List.mem_append] at h ⊢
  · rcases h with (h | h) | h
    · exact (hins h).imp_right fun h => .inl (.inl h)
    · exact .inr (.inl (.inr h))
    · exact .inr (.inr h)
  · rcases h with (h | h) | h
    · exact .inr (.inl (.inl h))
    · exact (hins h).imp_right fun h => .inl (.inr h)
    · exact .inr (.inr h)
  · rcases h with (h | h) | h
    · exact .inr (.inl (.inl h))
    · exact .inr (.inl (.inr h))
    · exact (hins h).imp_right .inr

theorem mem_of_mem_ofList {rules : List Rule} {q : Rule} (h : q ∈ (ofList rules).toList) :
    q ∈ rules := by
  have hfold (rs : RuleSet) (hq : q ∈ (rules.foldl add rs).toList) : q ∈ rules ∨ q ∈ rs.toList := by
    clear h
    induction rules generalizing rs with
    | nil => exact .inr hq
    | cons r rules ih =>
      rcases ih (rs.add r) hq with hq | hq
      · exact .inl (List.mem_cons_of_mem r hq)
      · rcases mem_add hq with rfl | hq
        · exact .inl List.mem_cons_self
        · exact .inr hq
  exact (hfold empty h).resolve_right (by simp [toList, empty])

end RuleSet

theorem mem_of_mem_selectRules {rules : List Rule} {target : Term} {hyps : LocalContext}
    {m : IndexMatch} (h : m ∈ selectRules rules target hyps) : m.rule ∈ rules := by
  obtain ⟨r, hr, hm⟩ := List.mem_filterMap.1 h
  obtain ⟨locations, -, rfl⟩ := Option.map_eq_some_iff.1 hm
  exact hr

namespace Search

open SearchM

/-- The search with the given rules and without a simplifier. -/
def ofRules (rules : List RuleSpec) (options : Options) (fuel : Nat) : Search where
  rules := (RuleSet.ofList (rules.map RuleSpec.rule)).query
  simplifier := .none
  options := options
  fuel := fuel

theorem exists_spec_of_knows {rules : List RuleSpec} {options : Options} {fuel : Nat} {q : Rule}
    (h : (ofRules rules options fuel).Knows q) : ∃ r ∈ rules, r.rule = q := by
  have hmem : q ∈ (RuleSet.ofList (rules.map RuleSpec.rule)).toList := by
    obtain ⟨target, hyps, m, rfl, hm | hm | hm⟩ := h <;>
      simp only [RuleSet.toList, List.mem_append]
    · exact .inl (.inl (mem_of_mem_selectRules hm))
    · exact .inl (.inr (mem_of_mem_selectRules hm))
    · exact .inr (mem_of_mem_selectRules hm)
  exact List.mem_map.1 (RuleSet.mem_of_mem_ofList hmem)

theorem regular_ofRules (rules : List RuleSpec) (options : Options) (fuel : Nat) :
    (ofRules rules options fuel).Regular := by
  refine ⟨rfl, fun q hq input => ?_⟩
  obtain ⟨r, -, rfl⟩ := exists_spec_of_knows hq
  exact r.ages_rule input

theorem lawful_ofRules {rules : List RuleSpec} (h : RuleSpec.clauses rules = P.clauses)
    (options : Options) (fuel : Nat) : (ofRules rules options fuel).Lawful P := by
  refine ⟨rfl, fun q hq => ?_⟩
  obtain ⟨r, hr, rfl⟩ := exists_spec_of_knows hq
  exact obeys_rule fun c hc => h ▸ RuleSpec.mem_clauses hr hc

/-! ## Results -/

/-- A returned proof is extracted from the last tree that the loop reached. -/
theorem runAll_proved {search : Search} {first last : Run} {proof : Proof} {stats : Stats}
    (h : Ends search.runAll first (.proved proof stats) last) :
    ∃ run, Reached search first run ∧ last.tree = run.tree ∧
      Ends (run.tree.extractProof search.options.maxRecursionDepth) run.solver proof
        last.solver := by
  rw [runAll_eq, ends_bind] at h
  obtain ⟨verdict, u, hloop, hfinish⟩ := h
  cases verdict with
  | some reason =>
    simp only [finish, ends_bind] at hfinish
    obtain ⟨v, w, -, h⟩ := hfinish
    split at h
    · exact (ends_throw h).elim
    · simp only [ends_bind, ends_pure] at h
      obtain ⟨_, _, -, _, _, -, _, _, -, _, _, -, hr, -⟩ := h
      cases hr
  | none =>
    obtain ⟨run, hrun, ⟨-, rfl⟩ | ⟨-, hv, -⟩⟩ := Reached.first.loop hloop
    · simp only [finish, ends_bind, ends_getTree, ends_onSolverM, ends_get, ends_pure] at hfinish
      obtain ⟨t, _, ⟨rfl, rfl⟩, proof', v, ⟨s, hs, rfl⟩, w, _, ⟨rfl, rfl⟩, hr, rfl⟩ := hfinish
      cases hr
      exact ⟨_, hrun, rfl, hs⟩
    · cases hv

/-- The state in which a search ends, with its tree. -/
def finalRun (search : Search) (s : Solver) (goal : Var) : Run :=
  match s.context.dependencies goal with
  | .error _ => search.start s (.ofGoal goal ∅ s.state)
  | .ok vars => (search.runAll.run.run (search.start s (.ofGoal goal vars s.state))).2

/-- A search returns a result if it ends with it. -/
theorem run_of_ends {search : Search} {s : Solver} {goal : Var} {vars : VarSet}
    {result : SearchResult} {final : Run} (hvars : s.context.dependencies goal = .ok vars)
    (h : Ends search.runAll (search.start s (.ofGoal goal vars s.state)) result final) :
    (search.run s goal).result = .ok result ∧ search.finalRun s goal = final ∧
      (search.run s goal).solver = final.solver := by
  have h : search.runAll.run.run (search.start s (.ofGoal goal vars s.state)) =
    (.ok result, final) := h
  rw [search.run_eq hvars, finalRun, hvars]
  dsimp only
  rw [h]
  exact ⟨rfl, rfl, rfl⟩

theorem run_ends {search : Search} {s : Solver} {goal : Var} {vars : VarSet}
    {result : SearchResult} (hvars : s.context.dependencies goal = .ok vars)
    (h : (search.run s goal).result = .ok result) :
    Ends search.runAll (search.start s (.ofGoal goal vars s.state)) result
        (search.finalRun s goal) ∧
      (search.run s goal).solver = (search.finalRun s goal).solver := by
  cases hres : search.runAll.run.run (search.start s (.ofGoal goal vars s.state)) with
  | mk outcome final =>
    cases outcome with
    | ok r =>
      obtain ⟨hr, rfl, hsolver⟩ := run_of_ends hvars hres
      cases hr.symm.trans h
      exact ⟨hres, hsolver⟩
    | error e =>
      rw [search.run_eq hvars, hres] at h
      cases h

/-- A returned proof has no variable and is the value of the root in the final state.  If the final
state is coherent with what was recorded along the proof, it is a derivation. -/
theorem proved_derives (rules : List RuleSpec) (options : Options) (fuel : Nat) (s : Solver)
    (saved : List Snapshot) (root : Var) (d : VarDecl) (proof : Proof) (stats : Stats)
    (hclauses : ∀ c ∈ RuleSpec.clauses rules, c.isClosed = true) (hs : Built s saved)
    (hd : s.context.decl? root = some d) (hopen : s.context.isAssigned root = false)
    (htype : d.type.hasVar = false) (hhyps : ∀ h ∈ d.hyps, h.type.hasVar = false)
    (hproved : ((ofRules rules options fuel).run s root).result = .ok (.proved proof stats)) :
    proof.term.hasVar = false ∧
      proof.term = ((ofRules rules options fuel).run s root).solver.context.instantiate (.var root) ∧
      (Coherent (RuleSpec.clauses rules) ((ofRules rules options fuel).run s root).solver.context root
          ((ofRules rules options fuel).finalRun s root).tree →
        Derives (RuleSpec.clauses rules) d.hyps proof.term d.type) := by
  have hdecl := Context.isDeclared_of_decl? hd
  let P := Problem.ofGoal (RuleSpec.clauses rules) s root d hclauses (hs.numbered.1 root hdecl)
    htype hhyps
  obtain ⟨vars, hvars⟩ := Context.exists_dependencies hdecl
  obtain ⟨hends, hsolver⟩ := run_ends hvars hproved
  obtain ⟨run, hreached, htree, hextract⟩ := runAll_proved hends
  have hbinding : s.context.binding? root = none := by
    simpa [Context.isAssigned] using hopen
  have hstart : Conforms P (.start P) s.context :=
    conforms_start hs.numbered.1 rfl hd hbinding rfl rfl
  obtain ⟨L, hgrows, hkept⟩ := hreached.kept (lawful_ofRules rfl options fuel)
    (valid_start s root vars) (⟨rfl, recorded_ofGoal hstart hdecl⟩ : Kept P (.start P) _)
  obtain ⟨hclosed, hvalue, hassembled⟩ := extractProof_assembled hkept.tree hextract
  rw [hsolver, htree]
  refine ⟨hclosed, hvalue, fun hco => ?_⟩
  have hclaim : L.claim? root = some d.type :=
    (hgrows.claim root (hs.numbered.1 root hdecl)).trans (if_pos rfl)
  have hderives := hassembled.derives hkept.tree hco (.inl rfl) .root hclaim
    (fun z hz => by simp [Term.hasVar_eq_false.1 htype z] at hz) (hvalue ▸ hclosed)
  rwa [Context.instantiate_closed htype, ← hvalue] at hderives

/-- A search whose proof and final state pass a test returns the proof. -/
theorem exists_proved (search : Search) (s : Solver) (goal : Var) (vars : VarSet)
    (p : Proof → Run → Bool) (hvars : s.context.dependencies goal = .ok vars)
    (h : (match search.runAll.run.run (search.start s (.ofGoal goal vars s.state)) with
      | (.ok (.proved proof _), final) => p proof final
      | _ => false) = true) :
    ∃ proof stats, (search.run s goal).result = .ok (.proved proof stats) ∧
      (search.run s goal).solver = (search.finalRun s goal).solver ∧
      p proof (search.finalRun s goal) = true := by
  split at h
  · next proof stats final hends =>
    obtain ⟨hresult, hfinal, hsolver⟩ := run_of_ends hvars hends
    rw [hfinal]
    exact ⟨proof, stats, hresult, hsolver, h⟩
  · cases h

/-! ## Two goals that share their variables -/

/-- A rule that applies a clause to the goals with the given head symbol. -/
def tentativeClause (head : String) (c : Clause) : RuleSpec :=
  ⟨c.name, .tentative .hundred, [.target head], .clause c⟩

def sharedSplit : Clause where
  name := "c"
  params := [("x", .const "X"), ("y", .const "Y")]
  premises := [.app "G" [.hyp "x", .hyp "y"], .app "S" [.hyp "x", .hyp "y"]]
  conclusion := .const "Root"

def sharedPair : Clause where
  name := "g"
  params := [("x", .const "X"), ("y", .const "Y")]
  premises := [.app "A" [.hyp "x"], .app "B" [.hyp "y"]]
  conclusion := .app "G" [.hyp "x", .hyp "y"]

/-- The goals `G` and `S` share two variables.  The proof of `G` has a part for each of them, and a
copy of `S` goes below either part. -/
def sharedRules (facts : List Clause) : List RuleSpec :=
  [tentativeClause "Root" sharedSplit, tentativeClause "G" sharedPair,
    tentativeClause "A" ⟨"a", [], [], .app "A" [.const "a"]⟩,
    tentativeClause "B" ⟨"b", [], [], .app "B" [.const "b"]⟩] ++ facts.map (tentativeClause "S")

/-- One fact that both copies of `S` use. -/
def agreeingFacts : List Clause := [⟨"s", [], [], .app "S" [.const "a", .const "b"]⟩]

/-- Facts that fit one copy of `S` each. -/
def clashingFacts : List Clause :=
  [⟨"s", [], [], .app "S" [.const "a", .const "c"]⟩,
    ⟨"t", [], [], .app "S" [.const "d", .const "b"]⟩]

def rootSolver : Solver := (Operation.mkGoal (.const "Root") []).perform .empty

theorem proved_derives_agreeing : ∃ proof stats,
    ((ofRules (sharedRules agreeingFacts) {} 100).run rootSolver ⟨1⟩).result =
      .ok (.proved proof stats) ∧
    proof.term.hasVar = false ∧
    Coherent (RuleSpec.clauses (sharedRules agreeingFacts))
      ((ofRules (sharedRules agreeingFacts) {} 100).run rootSolver ⟨1⟩).solver.context ⟨1⟩
      ((ofRules (sharedRules agreeingFacts) {} 100).finalRun rootSolver ⟨1⟩).tree ∧
    Derives (RuleSpec.clauses (sharedRules agreeingFacts)) [] proof.term (.const "Root") := by
  obtain ⟨proof, stats, hresult, hsolver, htest⟩ := exists_proved
    (ofRules (sharedRules agreeingFacts) {} 100) rootSolver ⟨1⟩ ∅
    (fun _ final => final.solver.context.agreesWith
      (RuleSpec.clauses (sharedRules agreeingFacts)) final.tree) rfl (by decide +kernel)
  have hco := @coherent_of_agreesWith _ _ _ ⟨1⟩ htest
  rw [← hsolver] at hco
  obtain ⟨hclosed, -, hderives⟩ := proved_derives (sharedRules agreeingFacts) {} 100 rootSolver []
    ⟨1⟩ ⟨.const "Root", [], none⟩ proof stats (by decide) (.perform _ .empty) (by decide)
    (by decide) (by decide) (by decide) hresult
  exact ⟨proof, stats, hresult, hclosed, hco, hderives hco⟩

/-- The search returns `c(a, c, g(a, c, a, b), s)`: the values of the variables come from the copy
of `S` below `A`, and `b` is no proof of `B(c)`. -/
theorem proved_not_derives : ∃ proof stats,
    ((ofRules (sharedRules clashingFacts) {} 100).run rootSolver ⟨1⟩).result =
      .ok (.proved proof stats) ∧
    ¬ Derives (RuleSpec.clauses (sharedRules clashingFacts)) [] proof.term (.const "Root") := by
  obtain ⟨proof, stats, hresult, -, hterm⟩ := exists_proved
    (ofRules (sharedRules clashingFacts) {} 100) rootSolver ⟨1⟩ ∅
    (fun proof _ => decide (proof.term = .apply "c" ([.const "a", .const "c"] ++
      [.apply "g" ([.const "a", .const "c"] ++ [.const "a", .apply "b" ([] ++ [])]), .const "s"])))
    rfl (by decide +kernel)
  refine ⟨proof, stats, hresult, fun h => ?_⟩
  rw [of_decide_eq_true hterm] at h
  obtain ⟨-, hpremises⟩ := Derives.of_clause (c := sharedSplit) h (by decide) rfl
  obtain ⟨-, hparts⟩ := Derives.of_clause (c := sharedPair)
    (hpremises _ _ List.mem_cons_self) (by decide) rfl
  obtain ⟨hB, -⟩ := Derives.of_clause (c := ⟨"b", [], [], .app "B" [.const "b"]⟩)
    (hparts _ _ (List.mem_cons_of_mem _ List.mem_cons_self)) (by decide) rfl
  exact absurd hB (by decide)

end Search

end ProofSearch
