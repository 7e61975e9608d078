import ProofSearch.Proofs.Answer.Excerpt
import ProofSearch.Proofs.Derivation.Additions
import ProofSearch.Proofs.Metavar.Freshness
import ProofSearch.Proofs.Metavar.MostGeneral

/-!
# Accounting for open variables

A rule that reduces a goal leaves open variables in the value of the goal.  Each of them should be a
subgoal, or else be none of the rule's business.  No problem and no search is needed to say this:
the rules are run on any goal of any solver that is in order.

1. `Solver.Ready`: a solver that is in order.
2. `Clause.Accounts`: what a clause proposes.  `Clause.Applied.accounts`: it does so from every
   solver that is in order.
3. `Assumption.Closes.equal`: a hypothesis that is used has the type of the goal.
   `Solver.Ready.unify_iff`: the hypotheses that are not used cannot have it.
4. `Solver.Ready.rules_account`: all of this for the two procedures.
-/

namespace ProofSearch

open Solver

namespace Context

variable {m n k : Context}

/-- Terms that have been unified stay equal. -/
theorem instantiate_eq_of_unify {l r : Term} (hu : m.unify l r = some n) (hm : ∀ y, m.Plain y)
    (he : n.Extends k) (hk : ∀ y, k.Plain y) : k.instantiate l = k.instantiate r := by
  have hlater (t : Term) : k.instantiate (n.instantiate t) = k.instantiate t :=
    PlainTerm.instantiate_extends (fun y _ => hk y) he
  rw [← hlater l, ← hlater r, unify_equal hu (fun y _ => hm y) fun y _ => hm y]

end Context

/-! ## Solvers in order -/

/-- No variable is delayed and none refers back to itself, whatever is mentioned is declared, and
the numbers above the latest one are new. -/
structure Solver.Ready (s : Solver) : Prop where
  undelayed : s.context.Undelayed
  acyclic : s.context.Acyclic
  declared : ∀ x y, s.context.Links x y → s.context.isDeclared y = true
  numbered : NumberedTo s.lastId s.context

namespace Solver.Ready

variable {s : Solver} {x y : Var} {d : VarDecl} {t : Term}

theorem plain (hs : s.Ready) (y : Var) : s.context.Plain y :=
  hs.undelayed.plain (hs.acyclic.grounded y)

theorem plainTerm (hs : s.Ready) (t : Term) : s.context.PlainTerm t := fun y _ => hs.plain y

theorem declared_of_reaches (hs : s.Ready) (hx : s.context.isDeclared x = true)
    (hr : s.context.Reaches x y) : s.context.isDeclared y = true := by
  induction hr with
  | refl => exact hx
  | tail _ hyz _ => exact hs.declared _ _ (.inl hyz)

/-- Instantiation does not bring in variables that are not declared. -/
theorem declared_of_occurs (hs : s.Ready)
    (ht : ∀ x, t.occurs x = true → s.context.isDeclared x = true)
    (hy : (s.context.instantiate t).occurs y = true) : s.context.isDeclared y = true := by
  obtain ⟨x, hx, hxy⟩ := Context.occurs_instantiate.1 hy
  exact hs.declared_of_reaches (ht x hx) ((hs.acyclic.grounded x).of_occurs hxy).1

theorem declared_of_mentions (hs : s.Ready) (hd : s.context.decl? x = some d) (hy : d.Mentions y) :
    s.context.isDeclared y = true := hs.declared x y (.inr ⟨d, hd, hy⟩)

theorem declared_target (hs : s.Ready) (hd : s.context.decl? x = some d) (y : Var)
    (hy : (s.context.instantiate d.type).occurs y = true) : s.context.isDeclared y = true :=
  hs.declared_of_occurs (fun _ hz => hs.declared_of_mentions hd (.inl hz)) hy

theorem declared_hyp (hs : s.Ready) (hd : s.context.decl? x = some d) {h : Hypothesis}
    (hh : h ∈ d.hyps.mapTypes s.context.instantiate) (y : Var) (hy : h.type.occurs y = true) :
    s.context.isDeclared y = true := by
  obtain ⟨h, hmem, rfl⟩ := List.mem_map.1 hh
  exact hs.declared_of_occurs (fun _ hz => hs.declared_of_mentions hd (.inr ⟨h, hmem, hz⟩)) hy

theorem open_target (hs : s.Ready) (y : Var)
    (hy : (s.context.instantiate t).occurs y = true) : s.context.binding? y = none :=
  (hs.plainTerm t).binding_of_occurs hy

end Solver.Ready

/-! ## Clauses -/

/-- The proposal applies the clause to the goal `x`, which is declared as `d` in `s`, with the new
variables `params` and `premises` as arguments. -/
structure Clause.Accounts (c : Clause) (s : Solver) (x : Var) (d : VarDecl)
    (params premises : List Var) (p : Proposal) : Prop where
  length_params : params.length = c.params.length
  length_premises : premises.length = c.premises.length
  nodup : (premises ++ params).Nodup
  fresh : ∀ y, y ∈ params ∨ y ∈ premises → s.context.isDeclared y = false ∧ s.lastId < y.index
  /-- The goal is assigned to the clause applied to the new variables. -/
  value : p.post.context.binding? x =
    some (.value (.apply c.name ((params ++ premises).map .var)))
  /-- The conclusion is what was to be proved. -/
  equal : p.post.context.instantiate (c.fill (params.map .var) c.conclusion) =
    p.post.context.instantiate d.type
  /-- In the type of a parameter the earlier ones are filled in. -/
  param : ∀ (i : Nat) q y, c.params[i]? = some q → params[i]? = some y →
    p.post.context.decl? y = some
      { type := (c.takeParams i).fill (params.map .var) q.2,
        hyps := d.hyps.mapTypes s.context.instantiate }
  premise : ∀ (i : Nat) t y, c.premises[i]? = some t → premises[i]? = some y →
    p.post.context.decl? y = some
      { type := c.fill (params.map .var) t, hyps := d.hyps.mapTypes s.context.instantiate }
  goals : p.goals = premises ++ params.filter fun y => !p.post.context.isAssigned y
  unassigned : ∀ y ∈ p.goals, p.post.context.isAssigned y = false
  /-- A variable in the value or in the type of the goal is a subgoal, or it was there before and
  open, in the type of the goal. -/
  accounted : ∀ y, (p.post.context.instantiate (.var x)).occurs y = true ∨
      (p.post.context.instantiate d.type).occurs y = true →
    p.post.context.isAssigned y = false ∧ (y ∈ p.goals ∨ s.context.isDeclared y = true ∧
      s.context.isAssigned y = false ∧ (s.context.instantiate d.type).occurs y = true)

namespace Clause.Applied

variable {c : Clause} {s u w : Solver} {x y : Var} {d : VarDecl} {xs ys : List Var}
  {n k : Context}

theorem plain_params (h : c.Applied s x d xs ys u n w k) (hs : s.Ready) (y : Var) :
    u.context.Plain y := (hs.plain y).congr h.binding?_params

theorem extension_value (h : c.Applied s x d xs ys u n w k) : n.Extends k := fun y b hb =>
  Context.extends_assign h.assign y b ((h.binding?_premises y).trans hb)

section

variable (h : c.Applied s x d xs ys u n w k) (hs : s.Ready) (hc : c.isClosed = true)

include h hs hc

theorem extension_unifier : s.context.Extends n := fun y b hb =>
  (h.binds hs.numbered hc hs.open_target).extension y b ((h.binding?_params y).trans hb)

theorem plain_unifier (y : Var) : n.Plain y :=
  (h.binds hs.numbered hc hs.open_target).plain y (h.plain_params hs y)

theorem plain_value (y : Var) : k.Plain y :=
  Context.plain_assign h.assign
    (fun z => (h.plain_unifier hs hc z).congr h.binding?_premises) y

theorem instantiate_type : k.instantiate (s.context.instantiate d.type) = k.instantiate d.type :=
  Context.PlainTerm.instantiate_extends (fun y _ => h.plain_value hs hc y)
    ((h.extension_unifier hs hc).trans h.extension_value)

theorem instantiate_conclusion :
    k.instantiate (c.fill (xs.map .var) c.conclusion) = k.instantiate d.type :=
  (Context.instantiate_eq_of_unify h.unify (h.plain_params hs) h.extension_value
    (h.plain_value hs hc)).trans (h.instantiate_type hs hc)

/-- What the value and the type of the goal mention is a parameter, a premise or a variable in the
old type of the goal. -/
theorem mem_of_occurs (hy : (k.instantiate (.var x)).occurs y = true ∨
    (k.instantiate d.type).occurs y = true) :
    y ∈ xs ∨ y ∈ ys ∨ (s.context.instantiate d.type).occurs y = true := by
  have hclosed := (h.unfolds hs.numbered hc hs.open_target).closed h.assign
    (fun y => Clause.occurs_value.1) hs.open_target
  have hmem {z : Var} (hz : z ∈ xs ∨ z ∈ ys ∨ (s.context.instantiate d.type).occurs z = true) :=
    (h.plain_value hs hc z).mem_of_occurs hclosed hz (z := y)
  rcases hy with hy | hy
  · rw [(h.plain_value hs hc x).instantiate_eq (Context.binding?_of_assign h.assign).2] at hy
    obtain ⟨z, hz, hzy⟩ := Context.occurs_instantiate.1 hy
    exact hmem ((Clause.occurs_value.1 hz).imp_right .inl) hzy
  · rw [← h.instantiate_type hs hc] at hy
    obtain ⟨z, hz, hzy⟩ := Context.occurs_instantiate.1 hy
    exact hmem (.inr (.inr hz)) hzy

end

theorem ne_goal (h : c.Applied s x d xs ys u n w k) (hs : s.Ready) (hy : y ∈ ys) : y ≠ x := by
  rintro rfl
  exact nomatch (h.fresh hs.numbered (.inr hy)).symm.trans (Context.isDeclared_of_decl? h.decl)

theorem decl?_param (h : c.Applied s x d xs ys u n w k) (hs : s.Ready) (hc : c.isClosed = true)
    {i : Nat} {q : String × Term} (hq : c.params[i]? = some q) (hy : xs[i]? = some y) :
    k.decl? y = some { type := (c.takeParams i).fill (xs.map .var) q.2,
                       hyps := d.hyps.mapTypes s.context.instantiate } := by
  have hnot : y ∉ ys := fun hmem => h.not_mem_params hmem (List.mem_of_getElem? hy)
  rw [(Context.assign_frame h.assign y).1,
    h.decl?_of_not_mem_premises hs.numbered hc hs.open_target hnot, h.decl?_param_unifier hq hy]

theorem decl?_premise (h : c.Applied s x d xs ys u n w k) {i : Nat} {t : Term}
    (ht : c.premises[i]? = some t) (hy : ys[i]? = some y) :
    k.decl? y = some { type := c.fill (xs.map .var) t,
                       hyps := d.hyps.mapTypes s.context.instantiate } := by
  rw [(Context.assign_frame h.assign y).1, h.decl?_premise_value ht hy]

/-- Premises stay open: they come after the unifier. -/
theorem isAssigned_premise (h : c.Applied s x d xs ys u n w k) (hs : s.Ready)
    (hc : c.isClosed = true) (hy : y ∈ ys) : k.isAssigned y = false := by
  have hdecl : n.decl? y = s.context.decl? y := by
    rw [(h.binds hs.numbered hc hs.open_target).decl, Context.decl?,
      h.get?_of_not_mem_params (h.not_mem_params hy)]
    rfl
  have hfresh : n.isDeclared y = false :=
    (Context.isDeclared_congr hdecl).trans (h.fresh hs.numbered (.inr hy))
  rw [Context.isAssigned, (Context.assign_frame h.assign y).2 (h.ne_goal hs hy),
    h.binding?_premises, Context.binding?_of_not_declared hfresh]
  rfl

theorem accounts (h : c.Applied s x d xs ys u n w k) (hs : s.Ready) (hc : c.isClosed = true) :
    c.Accounts s x d xs ys (.capture s.state (w.withContext k)
      (ys ++ xs.filter fun y => !k.isAssigned y)) where
  length_params := by rw [h.params, length_freshVars]
  length_premises := by rw [h.premises, length_freshVars]
  nodup := h.nodup
  fresh y hy := ⟨h.fresh hs.numbered hy, h.lt_index hy⟩
  value := (Context.binding?_of_assign h.assign).2
  equal := h.instantiate_conclusion hs hc
  param _ _ _ hq hy := h.decl?_param hs hc hq hy
  premise _ _ _ ht hy := h.decl?_premise ht hy
  goals := rfl
  unassigned y hy := by
    rcases List.mem_append.1 hy with hy | hy
    · exact h.isAssigned_premise hs hc hy
    · show k.isAssigned y = false
      simpa using (List.mem_filter.1 hy).2
  accounted y hy := by
    have hopen : k.isAssigned y = false := by
      have hplain (t : Term) : k.PlainTerm t := fun z _ => h.plain_value hs hc z
      have hnone : k.binding? y = none :=
        hy.elim (hplain (.var x)).binding_of_occurs (hplain d.type).binding_of_occurs
      rw [Context.isAssigned, hnone]
      rfl
    refine ⟨hopen, ?_⟩
    rcases h.mem_of_occurs hs hc hy with hy | hy | hy
    · exact .inl (List.mem_append_right _ (List.mem_filter.2 ⟨hy, by rw [hopen]; rfl⟩))
    · exact .inl (List.mem_append_left _ hy)
    · refine .inr ⟨hs.declared_target h.decl y hy, ?_, hy⟩
      rw [Context.isAssigned, hs.open_target y hy]
      rfl

end Clause.Applied

/-! ## Hypotheses -/

namespace Assumption.Closes

variable {s : Solver} {x : Var} {d : VarDecl} {h : Hypothesis} {p : Proposal}

/-- No variable is left in the value of the goal. -/
theorem value {pre : Snapshot} {target : Term} (hp : Closes pre x target h p) :
    p.post.context.binding? x = some (.value (.hyp h.name)) := by
  obtain ⟨n, -, ha⟩ := hp.unified
  exact (Context.binding?_of_assign ha).2

theorem equal (hp : Closes s.state x (s.context.instantiate d.type) h p) (hs : s.Ready) :
    p.post.context.instantiate d.type = p.post.context.instantiate h.type := by
  obtain ⟨n, hn, ha⟩ := hp.unified
  have hb := Context.binds_unify hn (hs.plainTerm _) (hs.plainTerm _)
  have hpost := Context.plain_assign ha fun y => hb.plain y (hs.plain y)
  have hlater := Context.extends_assign ha
  calc p.post.context.instantiate d.type
    _ = p.post.context.instantiate (s.context.instantiate d.type) :=
      (Context.PlainTerm.instantiate_extends (fun y _ => hpost y)
        (hb.extension.trans hlater)).symm
    _ = p.post.context.instantiate h.type :=
      Context.instantiate_eq_of_unify hn hs.plain hlater hpost

end Assumption.Closes

/-- Unification succeeds exactly if the values of the variables leave room for the two terms to be
equal. -/
theorem Solver.Ready.unify_iff {s : Solver} (hs : s.Ready) {l r : Term}
    (hdecl : ∀ y, l.occurs y = true ∨ r.occurs y = true → s.context.isDeclared y = true) :
    (s.context.unify l r).isSome = true ↔
      ∃ σ, s.context.Respects σ ∧ l.subst σ = r.subst σ := by
  have hrespects (σ : Var → Term) := Context.respects_unify (σ := σ) (hs.plainTerm l)
    (hs.plainTerm r) fun y hy => hy.elim
      (hs.declared_of_occurs fun z hz => hdecl z (.inl hz))
      (hs.declared_of_occurs fun z hz => hdecl z (.inr hz))
  constructor
  · intro hsome
    obtain ⟨n, hn⟩ := Option.isSome_iff_exists.1 hsome
    have hb := Context.binds_unify hn (hs.plainTerm l) (hs.plainTerm r)
    refine ⟨_, (hrespects fun y => n.instantiate (.var y)).1 ⟨n, hn, fun y t hy => ?_⟩⟩
    exact (hb.plain y (hs.plain y)).instantiate_eq hy
  · rintro ⟨σ, hσ⟩
    obtain ⟨n, hn, -⟩ := (hrespects σ).2 hσ
    rw [hn]
    rfl

/-! ## Both rules -/

/-- The rules are run on a goal that is declared as `d` in a solver that is in order.  If a closed
clause applies, it makes one proposal, which accounts for every variable that the goal leaves open.
If hypotheses apply, each of those that can have the type of the goal makes one proposal, the latest
first; all of them start from the same state, and none leaves a variable in the value of the
goal. -/
theorem Solver.Ready.rules_account (s : Solver) (hs : s.Ready) (input : RuleInput) (d : VarDecl)
    (hd : s.context.decl? input.goal = some d) :
    (∀ c : Clause, c.isClosed = true → ∀ out s', Ends (c.procedure input) s out s' →
      ∃ p params premises, out.proposals = [p] ∧ c.Accounts s input.goal d params premises p) ∧
    (∀ all out s', Ends (Assumption.procedure all input) s out s' →
      List.Forall₂ (fun h p =>
          Assumption.Closes s.state input.goal (s.context.instantiate d.type) h p ∧
            p.post.context.binding? input.goal = some (.value (.hyp h.name)) ∧
            p.post.context.instantiate d.type = p.post.context.instantiate h.type)
        (Assumption.matching s.context (s.context.instantiate d.type) all
          (d.hyps.mapTypes s.context.instantiate).reverse) out.proposals) ∧
    ∀ h ∈ d.hyps.mapTypes s.context.instantiate,
      (h ∈ Assumption.matching s.context (s.context.instantiate d.type) true
          (d.hyps.mapTypes s.context.instantiate).reverse ↔
        ∃ σ, s.context.Respects σ ∧ (s.context.instantiate d.type).subst σ = h.type.subst σ) := by
  refine ⟨fun c hc out s' he => ?_, fun all out s' he => ?_, fun h hh => ?_⟩
  · obtain ⟨d', xs, ys, u, n, w, k, ha, hout⟩ := Clause.ends_procedure he
    cases hd.symm.trans ha.decl
    exact ⟨_, xs, ys, hout, ha.accounts hs hc⟩
  · obtain ⟨d', hd', -, hall⟩ := Assumption.ends_procedure he
    cases hd.symm.trans hd'
    exact hall.imp fun h p hp => ⟨hp, hp.value, hp.equal hs⟩
  · rw [← hs.unify_iff fun y hy => hy.elim (hs.declared_target hd y) (hs.declared_hyp hd hh y)]
    exact List.mem_filter.trans (and_iff_right (List.mem_reverse.2 hh))

/-- A goal of type `R(?m2, ?m3)`. -/
def VarDecl.partlyKnown : VarDecl where
  type := .app "R" [.var ⟨2⟩, .var ⟨3⟩]
  hyps := [⟨"h", .app "R" [.app "f" [.const "a"], .const "b"]⟩, ⟨"k", .const "Q"⟩,
    ⟨"l", .app "R" [.var ⟨2⟩, .const "c"]⟩]

/-- The goal is `?m1`, and `?m2` holds `f(?m4)`. -/
def Solver.partlyKnown : Solver :=
  let decl : VarDecl := { type := .const "T", hyps := [] }
  let unassigned := [2, 3, 4].foldl (fun m i => m.declareFresh ⟨i⟩ decl)
    (Context.empty.declareFresh ⟨1⟩ VarDecl.partlyKnown)
  { state := ⟨unassigned.bind ⟨2⟩ decl (.value (.app "f" [.var ⟨4⟩])), .empty⟩, lastId := 4 }

theorem Solver.ready_partlyKnown : partlyKnown.Ready where
  undelayed x p := by
    have hempty : Context.empty.binding? x = none := rfl
    simp only [partlyKnown, context, Context.binding?_bind, List.foldl_cons, List.foldl_nil,
      Context.binding?_declareFresh, hempty]
    split <;> simp
  acyclic x hx := (Context.wellLinked_of_rank (fun x => 4 - x.index) (by decide +kernel)).acyclic x
    (Relation.TransGen.mono (fun _ _ => .inl) _ _ hx)
  declared := (Context.wellLinked_of_rank (fun x => 4 - x.index) (by decide +kernel)).declared
  numbered := numberedTo_of_vars (by decide +kernel)

/-- A clause with two parameters of the same name, of which the later one counts. -/
def Clause.repeated : Clause where
  name := "lem"
  params := [("x", .const "T"), ("x", .app "S" [.hyp "x"]), ("y", .const "T"),
    ("z", .app "S" [.hyp "x"])]
  premises := [.app "Q" [.hyp "x", .hyp "y"]]
  conclusion := .app "R" [.hyp "y", .hyp "x"]

/-- The first and the last parameter stay open, and the others get their values from the type of the
goal.  Of the hypotheses the first and the last one can be used. -/
theorem Solver.Ready.rules_account_partlyKnown :
    let s := Solver.partlyKnown
    let d := VarDecl.partlyKnown
    let input : RuleInput := ⟨⟨1⟩, .empty, [], none⟩
    s.Ready ∧ s.context.decl? ⟨1⟩ = some d ∧ Clause.repeated.isClosed = true ∧
      (∃ out s' p params premises, Ends (Clause.repeated.procedure input) s out s' ∧
        out.proposals = [p] ∧ Clause.repeated.Accounts s ⟨1⟩ d params premises p ∧
        p.goals = [⟨9⟩, ⟨5⟩, ⟨8⟩] ∧ p.post.context.instantiate (.var ⟨1⟩) =
          .app "lem" [.var ⟨5⟩, .var ⟨3⟩, .app "f" [.var ⟨4⟩], .var ⟨8⟩, .var ⟨9⟩]) ∧
      ∃ out s', Ends (Assumption.procedure true input) s out s' ∧
        List.Forall₂ (fun (h : Hypothesis) (p : Proposal) =>
            p.post.context.instantiate d.type = p.post.context.instantiate h.type)
          [⟨"l", .app "R" [.app "f" [.var ⟨4⟩], .const "c"]⟩,
            ⟨"h", .app "R" [.app "f" [.const "a"], .const "b"]⟩] out.proposals := by
  intro s d input
  have hd : s.context.decl? input.goal = some d := by decide +kernel
  obtain ⟨hclause, hassumption, -⟩ := rules_account s ready_partlyKnown input d hd
  refine ⟨ready_partlyKnown, hd, by decide, ?_, ?_⟩
  · obtain ⟨out, s', he, hout⟩ := exists_ends (x := Clause.repeated.procedure input) (s := s)
      (fun out _ => out.proposals.all fun p => p.goals = [⟨9⟩, ⟨5⟩, ⟨8⟩] ∧
        p.post.context.instantiate (.var ⟨1⟩) = .app "lem"
          [.var ⟨5⟩, .var ⟨3⟩, .app "f" [.var ⟨4⟩], .var ⟨8⟩, .var ⟨9⟩]) (by decide +kernel)
    obtain ⟨p, params, premises, hp, haccounts⟩ := hclause Clause.repeated (by decide) out s' he
    rw [hp] at hout
    exact ⟨out, s', p, params, premises, he, hp, haccounts, by simpa using hout⟩
  · obtain ⟨out, s', he, -⟩ := exists_ends (x := Assumption.procedure true input) (s := s)
      (fun _ _ => true) (by decide +kernel)
    have hall := (hassumption true out s' he).imp fun h p hp => hp.2.2
    have hmatching : Assumption.matching s.context (s.context.instantiate d.type) true
        (d.hyps.mapTypes s.context.instantiate).reverse =
        [⟨"l", .app "R" [.app "f" [.var ⟨4⟩], .const "c"]⟩,
          ⟨"h", .app "R" [.app "f" [.const "a"], .const "b"]⟩] := by decide +kernel
    rw [hmatching] at hall
    exact ⟨out, s', he, hall⟩

end ProofSearch
