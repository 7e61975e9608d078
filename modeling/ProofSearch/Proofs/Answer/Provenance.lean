import ProofSearch.Proofs.Derivation.Prefix

/-!
# Where extracted states come from

A proof and a safe prefix are put together in the state in which the search began, from states that
were recorded on many branches of the tree.

1. `Fact`, `Snapshot.Adds`: a state keeps the facts of another one and takes all others from
   recorded states.
2. `AddsOnly`: computations whose results are of this kind.  `addsOnly_copyNested` and
   `addsOnly_mergeEnv` say so of copying from one recorded state.
3. `Tree.PrefixRecord`: the states that a safe prefix is copied from.
4. `Tree.extraction_adds`: an extracted state adds recorded facts to the first state and loses
   none.
-/

namespace ProofSearch

open Solver

/-! ## Facts -/

/-- What a state says of one variable or one global name. -/
inductive Fact where
  | decl (x : Var) (d : VarDecl)
  | value (x : Var) (t : Term)
  | delayed (x pending : Var)
  | global (name : String) (value : Term)
deriving DecidableEq, Repr

namespace Snapshot

def Records (s : Snapshot) : Fact → Prop
  | .decl x d => s.context.decl? x = some d
  | .value x t => s.context.binding? x = some (.value t)
  | .delayed x pending => s.context.binding? x = some (.delayed pending)
  | .global name value => s.env.get? name = some value

instance (s : Snapshot) : (φ : Fact) → Decidable (s.Records φ)
  | .decl .. | .value .. | .delayed .. | .global .. => inferInstanceAs (Decidable (_ = _))

/-- All facts of `a` are facts of `b`, and every other fact of `b` is one of a state in `S`. -/
structure Adds (S : Snapshot → Prop) (a b : Snapshot) : Prop where
  keeps : ∀ φ, a.Records φ → b.Records φ
  source : ∀ φ, b.Records φ → a.Records φ ∨ ∃ m, S m ∧ m.Records φ

/-- What `b` says of the binding of a variable is said by one and the same state, which is `a` or a
state in `S`. -/
def BindsAsOne (S : Snapshot → Prop) (a b : Snapshot) : Prop := ∀ x, ∃ m, (m = a ∨ S m) ∧
  (∀ t, b.Records (.value x t) → m.Records (.value x t)) ∧
  ∀ pending, b.Records (.delayed x pending) → m.Records (.delayed x pending)

namespace Adds

variable {S : Snapshot → Prop} {a b c m : Snapshot} {x : Var}

theorem refl (a : Snapshot) : Adds S a a := ⟨fun _ => id, fun _ => .inl⟩

theorem trans (h : Adds S a b) (h' : Adds S b c) : Adds S a c where
  keeps φ hφ := h'.keeps φ (h.keeps φ hφ)
  source φ hφ := (h'.source φ hφ).elim (h.source φ) .inr

theorem bindsAsOne (h : Adds S a b) : BindsAsOne S a b := by
  intro x
  have hsource (φ : Fact) (hφ : b.Records φ) : ∃ m, (m = a ∨ S m) ∧ m.Records φ := by
    rcases h.source φ hφ with ha | ⟨m, hm, hmφ⟩
    · exact ⟨a, .inl rfl, ha⟩
    · exact ⟨m, .inr hm, hmφ⟩
  obtain ⟨m, hm, hbound⟩ : ∃ m, (m = a ∨ S m) ∧
      ∀ c, b.context.binding? x = some c → m.context.binding? x = some c := by
    cases hb : b.context.binding? x with
    | none => exact ⟨a, .inl rfl, by simp⟩
    | some c =>
      obtain ⟨m, hm, hmc⟩ : ∃ m, (m = a ∨ S m) ∧ m.context.binding? x = some c := by
        cases c with
        | value t => exact hsource (.value x t) hb
        | delayed pending => exact hsource (.delayed x pending) hb
      exact ⟨m, hm, fun _ h => hmc.trans h⟩
  exact ⟨m, hm, fun _ => hbound _, fun _ => hbound _⟩

/-- A variable that was not declared is declared as in a state in `S`. -/
theorem declareFresh {d : VarDecl} (hm : S m) (hd : m.context.decl? x = some d)
    (hx : a.context.isDeclared x = false) : Adds S a ⟨a.context.declareFresh x d, a.env⟩ := by
  have hbinding := fun y => Context.binding?_declareFresh a.context x y d
  refine ⟨fun φ hφ => ?_, fun φ hφ => ?_⟩
  · cases φ with
    | decl y e => exact Context.decl?_declareFresh_of_undeclared d hx hφ
    | value y t => exact (hbinding y).trans hφ
    | delayed y p => exact (hbinding y).trans hφ
    | global name value => exact hφ
  · cases φ with
    | decl y e =>
      have hy : (a.context.declareFresh x d).decl? y = some e := hφ
      rw [Context.decl?_declareFresh] at hy
      split at hy
      · next he =>
        subst he
        cases hy
        exact .inr ⟨m, hm, hd⟩
      · exact .inl hy
    | value y t => exact .inl ((hbinding y).symm.trans hφ)
    | delayed y p => exact .inl ((hbinding y).symm.trans hφ)
    | global name value => exact .inl hφ

/-- An open variable gets its binding in a state in `S`. -/
theorem bind {d : VarDecl} {b : Binding} (hm : S m) (hb : m.context.binding? x = some b)
    (hx : a.context.assignable x = .ok d) : Adds S a ⟨a.context.bind x d b, a.env⟩ := by
  obtain ⟨hd, hopen⟩ := Context.assignable_iff_open.1 hx
  have hdecl := Context.decl?_bind_of_decl? hd b
  have hbound {y : Var} {c : Binding} (hy : (a.context.bind x d b).binding? y = some c) :
      a.context.binding? y = some c ∨ m.context.binding? y = some c := by
    rw [Context.binding?_bind] at hy
    split at hy
    · next he =>
      cases hy
      exact .inr (he ▸ hb)
    · exact .inl hy
  refine ⟨fun φ hφ => ?_, fun φ hφ => ?_⟩
  · cases φ with
    | decl y e => exact (hdecl y).trans hφ
    | value y t => exact Context.extends_bind hopen d b y _ hφ
    | delayed y p => exact Context.extends_bind hopen d b y _ hφ
    | global name value => exact hφ
  · cases φ with
    | decl y e => exact .inl ((hdecl y).symm.trans hφ)
    | value y t => exact (hbound hφ).imp_right fun h => ⟨m, hm, h⟩
    | delayed y p => exact (hbound hφ).imp_right fun h => ⟨m, hm, h⟩
    | global name value => exact .inl hφ

/-- A name that had no global declaration gets one of a state in `S`. -/
theorem addGlobal {name : String} {value : Term} (hm : S m) (hv : m.env.get? name = some value)
    (hname : a.env.contains name = false) : Adds S a ⟨a.context, a.env.add name value⟩ := by
  have hnone : a.env.get? name = none := by simpa [Environment.contains] using hname
  refine ⟨fun φ hφ => ?_, fun φ hφ => ?_⟩
  · cases φ with
    | global other v =>
      refine (Environment.get?_add ..).trans ?_
      rw [if_neg]
      · exact hφ
      · rintro rfl
        exact nomatch hnone.symm.trans hφ
    | _ => exact hφ
  · cases φ with
    | global other v =>
      have hother : (a.env.add name value).get? other = some v := hφ
      rw [Environment.get?_add] at hother
      split at hother
      · next he =>
        subst he
        cases hother
        exact .inr ⟨m, hm, hv⟩
      · exact .inl hother
    | _ => exact .inl hφ

end Adds

end Snapshot

/-! ## Computations that only add -/

/-- A computation that ends has added facts of states in `S` and lost none. -/
def AddsOnly {ε α : Type} (S : Snapshot → Prop) (c : SolverM ε α) : Prop :=
  ∀ s a u, Ends c s a u → Snapshot.Adds S s.state u.state

section

variable {ε α β : Type} {S : Snapshot → Prop}

theorem addsOnly_pure (a : α) : AddsOnly S (pure a : SolverM ε α) := by
  intro s b u h
  obtain ⟨-, rfl⟩ := ends_pure.1 h
  exact .refl _

theorem addsOnly_throw (e : ε) : AddsOnly S (throw e : SolverM ε α) :=
  fun _ _ _ h => (ends_throw h).elim

theorem addsOnly_get : AddsOnly S (get : SolverM ε Solver) := by
  intro s b u h
  obtain ⟨-, rfl⟩ := ends_get.1 h
  exact .refl _

theorem addsOnly_orThrow (e : Except ε α) : AddsOnly S (SolverM.orThrow e) := by
  intro s b u h
  obtain ⟨-, rfl⟩ := ends_solver_orThrow.1 h
  exact .refl _

theorem addsOnly_bind {c : SolverM ε α} {f : α → SolverM ε β} (hc : AddsOnly S c)
    (hf : ∀ a, AddsOnly S (f a)) : AddsOnly S (c >>= f) := by
  intro s b v h
  obtain ⟨a, u, hu, hv⟩ := ends_bind.1 h
  exact (hc s a u hu).trans (hf a u b v hv)

theorem addsOnly_forM {f : α → SolverM ε PUnit} {as : List α} (hf : ∀ a ∈ as, AddsOnly S (f a)) :
    AddsOnly S (as.forM f) := by
  induction as with
  | nil => exact addsOnly_pure _
  | cons a as ih =>
    exact addsOnly_bind (hf a List.mem_cons_self) fun _ =>
      ih fun b hb => hf b (List.mem_cons_of_mem a hb)

theorem addsOnly_foldlM {f : β → α → SolverM ε β} {as : List α}
    (hf : ∀ a ∈ as, ∀ b, AddsOnly S (f b a)) (b : β) : AddsOnly S (as.foldlM f b) := by
  induction as generalizing b with
  | nil => exact addsOnly_pure _
  | cons a as ih =>
    rw [List.foldlM_cons]
    exact addsOnly_bind (hf a List.mem_cons_self b) fun b' =>
      ih (fun c hc => hf c (List.mem_cons_of_mem a hc)) b'

end

/-! ## Copying from one state -/

theorem run_addMissing (d : String × Term) (s : Solver) :
    ((do if !(← get).env.contains d.1 then addDeclaration d.1 d.2 : StateM Solver Unit).run s).2 =
      if s.env.contains d.1 then s else { s with state := ⟨s.context, s.env.add d.1 d.2⟩ } := by
  show ((if !s.env.contains d.1 then addDeclaration d.1 d.2 else pure () :
    StateM Solver Unit).run s).2 = _
  cases s.env.contains d.1 <;> rfl

section

variable {S : Snapshot → Prop} {m : Snapshot} (hm : S m)

include hm

theorem addsOnly_declare {x : Var} {d : VarDecl} (hd : m.context.decl? x = some d) :
    AddsOnly S ((Solver.declare x d).adapt SearchError.metavar) := by
  intro s a u h
  obtain ⟨hx, rfl⟩ := ends_declare.1 (ends_adapt.1 h)
  exact .declareFresh hm hd hx

theorem addsOnly_assign {x : Var} {t : Term} (hb : m.context.binding? x = some (.value t)) :
    AddsOnly S ((Solver.assign x t).adapt SearchError.metavar) := by
  intro s a u h
  obtain ⟨n, hn, rfl⟩ := ends_assign.1 (ends_adapt.1 h)
  obtain ⟨d, hx, -, rfl⟩ := Context.assign_eq_ok_iff.1 hn
  exact .bind hm hb hx

theorem addsOnly_assignDelayed {x p : Var} (hb : m.context.binding? x = some (.delayed p)) :
    AddsOnly S ((Solver.assignDelayed x p).adapt SearchError.metavar) := by
  intro s a u h
  obtain ⟨n, hn, rfl⟩ := ends_assignDelayed.1 (ends_adapt.1 h)
  obtain ⟨d, hx, -, -, -, rfl⟩ := Context.assignDelayed_eq_ok_iff.1 hn
  exact .bind hm hb hx

theorem addsOnly_copyDeclWith {copy : DepthGuard → Var → SolverM SearchError Unit}
    (hcopy : ∀ guard x, AddsOnly S (copy guard x)) (guard : DepthGuard) (x : Var) :
    AddsOnly S (Transplant.copyDeclWith m.context copy guard x) := by
  unfold Transplant.copyDeclWith
  refine addsOnly_bind addsOnly_get fun s => ?_
  split
  · exact addsOnly_pure ()
  · cases hd : m.context.decl? x with
    | none => exact addsOnly_throw _
    | some d =>
      refine addsOnly_bind (addsOnly_declare hm hd) fun _ => ?_
      refine addsOnly_bind (addsOnly_orThrow _) fun inner => ?_
      exact addsOnly_bind (addsOnly_forM fun y _ => hcopy inner y) fun _ =>
        addsOnly_forM fun h _ => addsOnly_forM fun y _ => hcopy inner y

theorem addsOnly_copyNested (fuel : Nat) (guard : DepthGuard) (x : Var) :
    AddsOnly S (Transplant.copyNested m.context fuel guard x) := by
  induction fuel generalizing guard x with
  | zero => exact addsOnly_throw _
  | succ fuel ih =>
    unfold Transplant.copyNested
    refine addsOnly_bind (addsOnly_copyDeclWith hm ih guard x) fun _ => ?_
    refine addsOnly_bind addsOnly_get fun s => ?_
    split
    · exact addsOnly_pure ()
    · cases hb : m.context.binding? x with
      | none => exact addsOnly_pure ()
      | some b =>
        cases b with
        | value t =>
          refine addsOnly_bind (addsOnly_orThrow _) fun inner => ?_
          exact addsOnly_bind (addsOnly_forM fun y _ => ih inner y) fun _ => addsOnly_assign hm hb
        | delayed p =>
          refine addsOnly_bind (addsOnly_orThrow _) fun inner => ?_
          exact addsOnly_bind (ih inner p) fun _ => addsOnly_assignDelayed hm hb

theorem adds_addMissing {decls : List (String × Term)}
    (hdecls : ∀ d ∈ decls, m.env.get? d.1 = some d.2) (s : Solver) :
    Snapshot.Adds S s.state ((decls.forM fun d => do
      if !(← get).env.contains d.1 then addDeclaration d.1 d.2 : StateM Solver Unit).run s).2.state := by
  induction decls generalizing s with
  | nil => exact .refl _
  | cons d decls ih =>
    have hstep : Snapshot.Adds S s.state ((do
        if !(← get).env.contains d.1 then addDeclaration d.1 d.2 :
          StateM Solver Unit).run s).2.state := by
      rw [run_addMissing]
      split
      · exact .refl _
      · next hnew => exact .addGlobal hm (hdecls d List.mem_cons_self) (Bool.eq_false_iff.2 hnew)
    exact hstep.trans (ih (fun e he => hdecls e (List.mem_cons_of_mem d he)) _)

theorem addsOnly_mergeEnv (earlier : Environment) : AddsOnly S
    (liftM (Transplant.mergeEnv m.env earlier) : SolverM SearchError Unit) := by
  intro s a u h
  rw [ends_lift] at h
  rw [show u = ((Transplant.mergeEnv m.env earlier).run s).2 by rw [h]]
  refine adds_addMissing hm (fun d hd => ?_) s
  exact (SortedMap.lookup_eq_some_iff m.env.decls.increasing).2 (List.mem_filter.1 hd).1

theorem addsOnly_copyBinding (guard : DepthGuard) (x : Var) :
    AddsOnly S (Transplant.copyBinding m.context guard x) := by
  rw [Transplant.copyBinding_eq]
  exact addsOnly_copyNested hm _ guard x

theorem addsOnly_leaveOpen (guard : DepthGuard) (x : Var) (found : List Var) :
    AddsOnly S (Tree.leaveOpen m guard x found) := by
  unfold Tree.leaveOpen
  refine addsOnly_bind (addsOnly_copyDeclWith hm (addsOnly_copyBinding hm) guard x) fun _ => ?_
  refine addsOnly_bind addsOnly_get fun s => ?_
  split <;> exact addsOnly_pure _

end

/-! ## Traversals -/

namespace Tree

variable {S : Snapshot → Prop} {t : Tree}

theorem addsOnly_copyNormalization {post : Snapshot} (hp : S post) (guard : DepthGuard)
    (g : GoalId) : AddsOnly S (t.copyNormalization guard g post) :=
  addsOnly_bind (addsOnly_copyBinding hp guard _) fun _ => addsOnly_mergeEnv hp _

theorem addsOnly_copyApplication {r : ApplicationId} (hr : S (t.application r).post)
    (guard : DepthGuard) (previous : Snapshot) (x : Var) :
    AddsOnly S (t.copyApplication guard r previous x) :=
  addsOnly_bind (addsOnly_copyBinding hr guard x) fun _ =>
    addsOnly_bind (addsOnly_forM fun y _ => addsOnly_copyBinding hr guard y) fun _ =>
      addsOnly_mergeEnv hr _

theorem addsOnly_extractGoal {g : GoalId} (hg : t.Contributes g) (fuel : Nat)
    (guard : DepthGuard) : AddsOnly t.Source (t.extractGoal fuel guard g) := by
  induction fuel generalizing g guard with
  | zero => exact addsOnly_throw _
  | succ fuel ih =>
    unfold extractGoal
    split
    · exact addsOnly_throw _
    · next post hn =>
      exact addsOnly_copyNormalization (.norm hg (by rw [Goal.normPost?, hn])) guard g
    · next x post hn =>
      refine addsOnly_bind
        (addsOnly_copyNormalization (.norm hg (by rw [Goal.normPost?, hn])) guard g) fun _ => ?_
      split
      · exact addsOnly_throw _
      · next r hr =>
        refine addsOnly_bind (addsOnly_copyApplication (.applied hg hn hr) guard post x) fun _ => ?_
        refine addsOnly_forM fun c hc => ?_
        split
        · exact addsOnly_throw _
        · next k hk =>
          exact addsOnly_bind (addsOnly_orThrow _) fun inner => ih (.member hg hn hr hc hk) inner

/-- The states that the safe prefix is copied from: what normalization and the first safe
application of its goals have recorded, and what a goal without a normal form began with. -/
inductive PrefixRecord (t : Tree) : Snapshot → Prop
  | pre {g : GoalId} : t.InPrefix g → (t.goal g).norm = .notNormal → t.PrefixRecord (t.preState g)
  | norm {g : GoalId} {post : Snapshot} : t.InPrefix g → (t.goal g).normPost? = some post →
      t.PrefixRecord post
  | applied {g : GoalId} {x : Var} {post : Snapshot} {r : ApplicationId} : t.InPrefix g →
      (t.goal g).norm = .normal x post → t.safeApplication? g = some r →
      t.PrefixRecord (t.application r).post

theorem addsOnly_prefixGoal {g : GoalId} (hg : t.InPrefix g) (fuel : Nat) (guard : DepthGuard)
    (found : List Var) : AddsOnly t.PrefixRecord (t.prefixGoal fuel guard g found) := by
  induction fuel generalizing g guard found with
  | zero => exact addsOnly_throw _
  | succ fuel ih =>
    unfold prefixGoal
    split
    · next hn => exact addsOnly_leaveOpen (.pre hg hn) guard _ found
    · next post hn =>
      exact addsOnly_bind
        (addsOnly_copyNormalization (.norm hg (by rw [Goal.normPost?, hn])) guard g) fun _ =>
          addsOnly_pure found
    · next x post hn =>
      have hpost : t.PrefixRecord post := .norm hg (by rw [Goal.normPost?, hn])
      refine addsOnly_bind (addsOnly_copyNormalization hpost guard g) fun _ => ?_
      split
      · exact addsOnly_leaveOpen hpost guard x found
      · next r hr =>
        refine addsOnly_bind (addsOnly_copyApplication (.applied hg hn hr) guard post x) fun _ => ?_
        refine addsOnly_foldlM (fun k hk found => ?_) found
        exact addsOnly_bind (addsOnly_orThrow _) fun inner =>
          ih (hg.tail ⟨x, post, r, hn, hr, hk⟩) inner found

/-- The state of an extracted proof or safe prefix has all facts of the state in which the search
began, and every other fact of it was recorded by a goal or an application that was passed on the
way.  A variable of it is bound as in one of these states, so it is bound in two ways only if it was
so in a recorded state. -/
theorem extraction_adds (t : Tree) (limit : Nat) (s s' : Solver) :
    (∀ proof, Ends (t.extractProof limit) s proof s' →
      Snapshot.Adds t.Source t.rootState proof.state ∧
      Snapshot.BindsAsOne t.Source t.rootState proof.state) ∧
    (∀ found, Ends (t.extractSafePrefix limit) s found s' →
      Snapshot.Adds t.PrefixRecord t.rootState found.state ∧
      Snapshot.BindsAsOne t.PrefixRecord t.rootState found.state) := by
  have hproof (proof : Proof) (h : Ends (t.extractProof limit) s proof s') :
      Snapshot.Adds t.Source t.rootState proof.state := by
    simp only [extractProof_eq, ends_bind, ends_restore, ends_get] at h
    obtain ⟨_, _, rfl, _, v, hv, _, _, ⟨rfl, rfl⟩, hend⟩ := h
    split at hend
    · obtain ⟨rfl, rfl⟩ := ends_pure.1 hend
      exact addsOnly_extractGoal .root _ _ _ _ _ hv
    · exact (ends_throw hend).elim
  have hfound (found : SafePrefix) (h : Ends (t.extractSafePrefix limit) s found s') :
      Snapshot.Adds t.PrefixRecord t.rootState found.state := by
    simp only [extractSafePrefix_eq, ends_bind, ends_restore, ends_get, ends_pure] at h
    obtain ⟨_, _, rfl, goals, v, hv, _, _, ⟨rfl, rfl⟩, rfl, rfl⟩ := h
    exact addsOnly_prefixGoal .refl _ _ _ _ _ _ hv
  exact ⟨fun proof h => ⟨hproof proof h, (hproof proof h).bindsAsOne⟩,
    fun found h => ⟨hfound found h, (hfound found h).bindsAsOne⟩⟩

/-- Normalization turns the goal 1 into the goal 2.  An application delays 2 until 3 has a value,
which is a lemma that it declares. -/
def auxiliaryLemma : Tree :=
  let start := [.mkGoal (.const "Root") [], .addDeclaration "base" (.const "Base")].foldl
    Operation.perform .empty
  let normal := [.mkGoal (.const "Root") [], .assign ⟨1⟩ (.app "n" [.var ⟨2⟩])].foldl
    Operation.perform start
  let applied := [.mkGoal (.const "Root") [], .assignDelayed ⟨2⟩ ⟨3⟩, .assign ⟨3⟩ (.const "aux"),
    .addDeclaration "aux" (.const "Root")].foldl Operation.perform normal
  { ofGoal ⟨1⟩ ∅ start.state with
    goals := #[{ Goal.new rootCluster ⟨1⟩ ∅ with
      norm := .normal ⟨2⟩ normal.state
      applications := [⟨0⟩] }]
    applications := #[{ (default : Application) with
      state := .proven
      post := applied.state }] }

theorem extraction_adds_auxiliaryLemma : ∃ proof found s₁ s₂,
    Ends (auxiliaryLemma.extractProof 0) .empty proof s₁ ∧
    Ends (auxiliaryLemma.extractSafePrefix 0) .empty found s₂ ∧
    (proof.state.Records (.delayed ⟨2⟩ ⟨3⟩) ∧ proof.state.Records (.global "aux" (.const "Root"))) ∧
    (Snapshot.Adds auxiliaryLemma.Source auxiliaryLemma.rootState proof.state ∧
      Snapshot.BindsAsOne auxiliaryLemma.Source auxiliaryLemma.rootState proof.state) ∧
    (Snapshot.Adds auxiliaryLemma.PrefixRecord auxiliaryLemma.rootState found.state ∧
      Snapshot.BindsAsOne auxiliaryLemma.PrefixRecord auxiliaryLemma.rootState found.state) := by
  obtain ⟨proof, s₁, hproof, hfacts⟩ := exists_ends (x := auxiliaryLemma.extractProof 0) (s := .empty)
    (fun proof _ => decide (proof.state.Records (.delayed ⟨2⟩ ⟨3⟩) ∧
      proof.state.Records (.global "aux" (.const "Root")))) (by decide +kernel)
  obtain ⟨found, s₂, hfound, -⟩ := exists_ends (x := auxiliaryLemma.extractSafePrefix 0) (s := .empty)
    (fun _ _ => true) (by decide +kernel)
  exact ⟨proof, found, s₁, s₂, hproof, hfound, of_decide_eq_true hfacts,
    (extraction_adds auxiliaryLemma 0 .empty s₁).1 proof hproof,
    (extraction_adds auxiliaryLemma 0 .empty s₂).2 found hfound⟩

end Tree

end ProofSearch
