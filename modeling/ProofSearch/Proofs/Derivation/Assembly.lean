import ProofSearch.Proofs.Answer.Nesting
import ProofSearch.Proofs.Derivation.Sources
import ProofSearch.Proofs.Metavar.Operations
import ProofSearch.Proofs.Search.Closing

/-!
# Putting a proof together

Extraction copies variables from the sources into one context.  It keeps what the context has, so a
variable gets its value from the first source that brings one.

1. `Context.copyCost`: how deep the copying of a variable can be nested.
2. `Copied`: what copying does to a context, and `Blocked`: the errors that it may end with.
3. `yields_copyNested`: copying a variable with all that it mentions.
4. `yields_extractGoal`, `yields_extractProof`: copying the proof of a goal, and of the root.
5. `extractProof_assembled`: what is known of a finished proof.
-/

namespace ProofSearch

open Solver

/-! ## The depth of copying -/

namespace Context

variable {m f n : Context} {x y : Var}

theorem mem_vars_of_isDeclared (h : m.isDeclared x = true) : x ∈ m.vars := by
  obtain ⟨e, he⟩ := Option.isSome_iff_exists.1 h
  exact List.mem_map.2 ⟨(x, e), (SortedMap.lookup_eq_some_iff m.entries.increasing).1 he, rfl⟩

/-- The number of variables of `m` that `f` does not declare. -/
def missing (m f : Context) : Nat := m.vars.countP fun y => !f.isDeclared y

theorem missing_le_size (m f : Context) : m.missing f ≤ m.size :=
  (List.countP_le_length ..).trans_eq (List.length_map ..)

theorem countP_undeclared_mono (h : ∀ y, f.isDeclared y = true → n.isDeclared y = true)
    (ys : List Var) :
    (ys.countP fun y => !n.isDeclared y) ≤ ys.countP fun y => !f.isDeclared y := by
  refine List.countP_mono_left fun y _ hy => ?_
  by_contra hf
  rw [h y (by simpa using hf)] at hy
  cases hy

theorem missing_mono (h : ∀ y, f.isDeclared y = true → n.isDeclared y = true) :
    m.missing n ≤ m.missing f := countP_undeclared_mono h m.vars

theorem missing_lt (h : ∀ y, f.isDeclared y = true → n.isDeclared y = true)
    (hm : m.isDeclared x = true) (hf : f.isDeclared x = false) (hn : n.isDeclared x = true) :
    m.missing n < m.missing f := by
  obtain ⟨before, after, hsplit⟩ := List.append_of_mem (mem_vars_of_isDeclared hm)
  have hbefore := countP_undeclared_mono h before
  have hafter := countP_undeclared_mono h after
  simp only [missing, hsplit, List.countP_append, List.countP_cons, hf, hn, Bool.not_false,
    Bool.not_true, if_true, Bool.false_eq_true, if_false]
  omega

/-- How deep copying `x` from `m` can be nested: every declaration starts a chain of references
anew, and no chain is longer than the context. -/
noncomputable def copyCost (m f : Context) (x : Var) : Nat :=
  m.missing f * (m.size + 2) + (m.reach x).card

theorem copyCost_lt_nestingBound (m f : Context) (x : Var) :
    m.copyCost f x < Transplant.nestingBound m := by
  have hmul := Nat.mul_le_mul_right (m.size + 2) (missing_le_size m f)
  have hcard : (m.reach x).card ≤ m.size := card_reach_le
  rw [copyCost, Transplant.nestingBound, Nat.succ_mul]
  omega

theorem copyCost_lt_of_missing (h : m.missing n < m.missing f) :
    m.copyCost n y < m.copyCost f x := by
  have hmul := Nat.mul_le_mul_right (m.size + 2) (Nat.succ_le_of_lt h)
  have hcard : (m.reach y).card ≤ m.size := card_reach_le
  rw [Nat.succ_mul] at hmul
  rw [copyCost, copyCost]
  omega

theorem copyCost_lt_of_refers (h : m.missing n ≤ m.missing f) (hx : m.Grounded x)
    (hr : m.Refers x y) : m.copyCost n y < m.copyCost f x :=
  Nat.add_lt_add_of_le_of_lt (Nat.mul_le_mul_right _ h) (hx.card_reach_lt hr)

end Context

variable {P : Problem} {L : Ledger} {S : Snapshot → Prop} {t : Tree}

/-! ## What copying does -/

/-- Nothing is lost, and variables whose rank reaches the bound stay as they are. -/
structure Copying (P : Problem) (S : Snapshot → Prop) (bound : (Var → Nat) → Nat) (f n : Context) :
    Prop where
  declared : ∀ y, f.isDeclared y = true → n.isDeclared y = true
  extension : f.Extends n
  spares : ∀ rank, Ranked S P.Own rank → ∀ z, bound rank ≤ rank z → n.binding? z = f.binding? z

namespace Copying

variable {bound bound' : (Var → Nat) → Nat} {f n k : Context}

theorem refl (f : Context) : Copying P S bound f f :=
  ⟨fun _ => id, .refl f, fun _ _ _ _ => rfl⟩

theorem trans (h : Copying P S bound f n) (h' : Copying P S bound n k) :
    Copying P S bound f k :=
  ⟨fun y hy => h'.declared y (h.declared y hy), h.extension.trans h'.extension,
    fun rank hr z hz => (h'.spares rank hr z hz).trans (h.spares rank hr z hz)⟩

theorem mono (h : Copying P S bound f n)
    (hb : ∀ rank, Ranked S P.Own rank → bound rank ≤ bound' rank) : Copying P S bound' f n :=
  { h with spares := fun rank hr z hz => h.spares rank hr z ((hb rank hr).trans hz) }

theorem isAssigned (h : Copying P S bound f n) {y : Var} (hy : f.isAssigned y = true) :
    n.isAssigned y = true := by
  obtain ⟨b, hb⟩ := Option.isSome_iff_exists.1 hy
  exact Option.isSome_iff_exists.2 ⟨b, h.extension y b hb⟩

/-- A new declaration changes no binding. -/
theorem declareFresh (x : Var) (d : VarDecl) : Copying P S bound f (f.declareFresh x d) := by
  have hb := fun y => Context.binding?_declareFresh f x y d
  refine ⟨fun y hy => ?_, fun y b h => (hb y).trans h, fun _ _ z _ => hb z⟩
  rw [Context.isDeclared, Context.get?_declareFresh]
  split
  · rfl
  · exact hy

/-- A new binding changes one variable. -/
theorem assign {x : Var} {v : Term} (h : f.assign x v = .ok n)
    (hb : ∀ rank, Ranked S P.Own rank → rank x < bound rank) : Copying P S bound f n := by
  have hd := isDeclared_assign h
  obtain ⟨d, hd', -, rfl⟩ := Context.assign_eq_ok_iff.1 h
  have hopen := (Context.assignable_iff_open.1 hd').2
  refine ⟨fun y hy => (hd y).trans hy, Context.extends_bind hopen d _, fun rank hr z hz => ?_⟩
  rw [Context.binding?_bind, if_neg]
  rintro rfl
  exact absurd (hb rank hr) (not_lt.2 hz)

end Copying

/-- Copying from `m` brings the variables in `ys` with their bindings. -/
structure Copied (P : Problem) (S : Snapshot → Prop) (m : Context) (bound : (Var → Nat) → Nat)
    (ys : Var → Prop) (f n : Context) : Prop extends Copying P S bound f n where
  assembled : Assembled P S n
  brings : ∀ y, ys y → m.isAssigned y = true → n.isAssigned y = true

theorem Copied.mono {m f n : Context} {bound bound' : (Var → Nat) → Nat} {ys : Var → Prop}
    (h : Copied P S m bound ys f n)
    (hb : ∀ rank, Ranked S P.Own rank → bound rank ≤ bound' rank) : Copied P S m bound' ys f n :=
  ⟨h.toCopying.mono hb, h.assembled, h.brings⟩

/-- The errors that copying may end with.  If the nesting is not limited, they show that some
variable leads back to itself. -/
def Blocked (P : Problem) (S : Snapshot → Prop) (limit : Nat) (e : SearchError) : Prop :=
  limit = 0 → ¬ (∃ rank, Ranked S P.Own rank) ∧
    ∃ x, e = .metavar (.alreadyAssigned x) ∨ e = .metavar (.occursCheck x)

theorem yields_enter {guard : DepthGuard} {s : Solver} {E : SearchError → Prop}
    {Q : DepthGuard → Solver → Prop} (he : ∀ e, guard.limit ≠ 0 → E e)
    (h : ∀ inner, inner.limit = guard.limit → Q inner s) :
    Yields (SolverM.orThrow guard.enter) s E Q := by
  unfold DepthGuard.enter
  split
  · next hlimit => exact he _ hlimit.1
  · exact h _ rfl

theorem yields_updateContext {change : Context → Except MetavarError Context} {s : Solver}
    {E : MetavarError → Prop} {Q : Unit → Solver → Prop}
    (he : ∀ e, change s.context = .error e → E e)
    (h : ∀ n, change s.context = .ok n → Q () (s.withContext n)) :
    Yields (updateContext change) s E Q := by
  cases hc : change s.context with
  | error e =>
    have hrun : (updateContext change).run.run s = (.error e, s) := by
      show updateContext change s = _
      rw [updateContext, hc]
    rw [Yields, hrun]
    exact he e hc
  | ok n =>
    have hrun : (updateContext change).run.run s = (.ok (), s.withContext n) := by
      show updateContext change s = _
      rw [updateContext, hc]
    rw [Yields, hrun]
    exact h n hc

/-! ## Copying variables -/

section

variable {m : Snapshot} {s : Solver} {guard : DepthGuard}

/-- Copying all variables of a term, if each of them can be copied. -/
theorem yields_copyVarsWith (m : Snapshot) (bound : (Var → Nat) → Nat)
    {copy : Var → SolverM SearchError Unit} {v : Term} (hs : Assembled P S s.context)
    (hcopy : ∀ y, v.occurs y = true → ∀ u : Solver, Assembled P S u.context →
      Copying P S bound s.context u.context → Yields (copy y) u (Blocked P S guard.limit)
        fun _ w => Copied P S m.context bound (· = y) u.context w.context) :
    Yields (Transplant.copyVarsWith copy v) s (Blocked P S guard.limit)
      fun _ w => Copied P S m.context bound (fun y => v.occurs y = true) s.context w.context := by
  refine (yields_forM (I := fun u => Assembled P S u.context)
    (G := fun u w => Copying P S bound u.context w.context)
    (R := fun y u => m.context.isAssigned y = true → u.context.isAssigned y = true)
    (fun _ => .refl _) (fun _ _ _ => Copying.trans) (fun _ _ _ h hy hm => h.isAssigned (hy hm)) hs
    fun y hy u hu hsu => ?_).mono fun _ w ⟨hw, hsw, hall⟩ => ?_
  · refine (hcopy y (Term.mem_vars.1 (VarSet.mem_toList.1 hy)) u hu hsu).mono fun _ w hw => ?_
    exact ⟨hw.assembled, hw.toCopying, hw.brings y rfl⟩
  · exact ⟨hsw, hw, fun y hy => hall y (VarSet.mem_toList.2 (Term.mem_vars.2 hy))⟩

/-- Types without variables need no copying. -/
theorem yields_copyHyps {copy : Var → SolverM SearchError Unit} {hyps : LocalContext}
    {E : SearchError → Prop} (h : ∀ k ∈ hyps, k.type.hasVar = false) :
    Yields (hyps.forM fun k => Transplant.copyVarsWith copy k.type) s E fun _ w => w = s := by
  refine (yields_forM (I := fun k => k = s) (G := fun k k' => k' = k) (R := fun _ _ => True)
    (fun _ => rfl) (fun _ _ _ h h' => h'.trans h) (fun _ _ _ _ _ => trivial) rfl
    fun k hk u hu _ => ?_).mono fun _ w hw => hw.1
  have hvars : k.type.vars.toList = [] := by
    refine List.eq_nil_iff_forall_not_mem.2 fun y hy => ?_
    have hy := Term.mem_vars.1 (VarSet.mem_toList.1 hy)
    rw [Term.hasVar_eq_false.1 (h k hk) y] at hy
    cases hy
  rw [Transplant.copyVarsWith, hvars]
  exact yields_pure ⟨hu, rfl, trivial⟩

variable (hS : ∀ m, S m → Conforms P L m.context) (hm : S m) {x : Var} (ho : P.Own x)
  (hd : m.context.isDeclared x = true) (hs : Assembled P S s.context)

include hS hm ho hd hs

/-- Declaring a variable as its source does.  The types of the search mention variables of lower
rank. -/
theorem yields_copyDeclWith {copy : DepthGuard → Var → SolverM SearchError Unit}
    (hcopy : ∀ inner : DepthGuard, inner.limit = guard.limit → ∀ y, P.Own y →
      m.context.isDeclared y = true → ∀ u : Solver, Assembled P S u.context →
      m.context.missing u.context < m.context.missing s.context →
      Yields (copy inner y) u (Blocked P S inner.limit)
        fun _ w => Copied P S m.context (fun rank => rank y + 1) (· = y) u.context w.context) :
    Yields (Transplant.copyDeclWith m.context copy guard x) s (Blocked P S guard.limit)
      fun _ w => Copying P S (fun rank => rank x) s.context w.context ∧
        Assembled P S w.context ∧ w.context.isDeclared x = true := by
  unfold Transplant.copyDeclWith
  refine yields_bind (yields_get (Q := fun a u => s = a ∧ s = u) ⟨rfl, rfl⟩) ?_
  rintro _ _ ⟨rfl, rfl⟩
  split
  · next hx => exact yields_pure ⟨.refl _, hs, hx⟩
  · next hx =>
    have hx : s.context.isDeclared x = false := by simpa using hx
    obtain ⟨d, hd'⟩ := Context.exists_decl? hd
    have hdecl := (hS m hm).decl x d ho hd'
    simp only [hd']
    -- the declaration
    have hfresh : Copying P S (fun rank => rank x) s.context (s.context.declareFresh x d) :=
      .declareFresh x d
    have hbinding := fun y => Context.binding?_declareFresh s.context x y d
    have hdeclared : (s.context.declareFresh x d).isDeclared x = true := by
      rw [Context.isDeclared, Context.get?_declareFresh, if_pos rfl]
      rfl
    have hmissing : m.context.missing (s.context.declareFresh x d) <
        m.context.missing s.context :=
      Context.missing_lt hfresh.declared hd hx hdeclared
    have hends : Ends ((Solver.declare x d).adapt SearchError.metavar) s ()
        ⟨⟨s.context.declareFresh x d, s.env⟩, max s.lastId x.index⟩ :=
      ends_adapt.2 (ends_declare.2 ⟨hx, rfl⟩)
    refine yields_bind (Q := fun _ u => u.context = s.context.declareFresh x d) ?_ ?_
    · unfold Yields
      rw [show ((Solver.declare x d).adapt SearchError.metavar).run.run s = _ from hends]
      rfl
    · rintro _ u hu
      refine yields_bind (yields_enter (Q := fun inner w => inner.limit = guard.limit ∧ u = w)
        (fun _ hne h0 => absurd h0 hne) fun inner hinner => ⟨hinner, rfl⟩) ?_
      rintro inner _ ⟨hinner, rfl⟩
      rw [← hu] at hfresh hdeclared hmissing hbinding
      -- the type, and hypotheses without variables
      refine yields_bind (yields_copyVarsWith m (fun rank => rank x)
        (hs.congr hbinding) fun y hy w hw hcw => ?_) fun _ w hw => ?_
      · have hy' := hdecl.type y hy
        rw [← hinner]
        refine (hcopy inner hinner y hy'.own hy'.declared w hw
          ((Context.missing_mono hcw.declared).trans_lt hmissing)).mono fun _ k hk => ?_
        exact hk.mono fun rank hrank => hrank m x y hm ho (.inr ⟨d, hd', hy⟩)
      · refine (yields_copyHyps (hdecl.hyps ▸ P.hyps_closed)).mono ?_
        rintro _ _ rfl
        exact ⟨hfresh.trans hw.toCopying, hw.assembled, hw.declared x hdeclared⟩

omit hd hs in
/-- A value is assigned once all that it mentions is copied.  If that is not possible, some variable
leads back to itself. -/
theorem yields_copyValue {v : Term} {u : Solver} (hb : m.context.binding? x = some (.value v))
    (hopen : s.context.binding? x = none) (hdeclared : s.context.isDeclared x = true)
    (hu : Copied P S m.context (fun rank => rank x) (fun y => v.occurs y = true) s.context
      u.context) :
    Yields ((Solver.assign x v).adapt SearchError.metavar) u (Blocked P S guard.limit)
      fun _ w => Copied P S m.context (fun rank => rank x + 1) (· = x) s.context w.context := by
  have hfit : ∀ y, v.occurs y = true → P.Own y := by
    obtain ⟨v', hv, hfit⟩ := (hS m hm).value x _ ho hb
    cases hv
    exact fun y => hfit.own
  refine yields_adapt (yields_updateContext (fun e he _ => ?_) fun n hn => ?_)
  · obtain ⟨d, hd⟩ := Context.exists_decl? (hu.declared x hdeclared)
    rw [Context.assign, Context.assignable] at he
    rw [Context.decl?, Option.map_eq_some_iff] at hd
    obtain ⟨⟨d', b⟩, hget, -⟩ := hd
    rw [hget] at he
    cases b with
    | some b =>
      cases he
      refine ⟨?_, x, .inl rfl⟩
      rintro ⟨rank, hrank⟩
      have hspared := hu.spares rank hrank x le_rfl
      rw [hopen, Context.binding?, hget] at hspared
      cases hspared
    | none =>
      dsimp only at he
      split at he
      · next hoccurs =>
        cases he
        refine ⟨?_, x, .inr rfl⟩
        rintro ⟨rank, hrank⟩
        obtain ⟨y, hy, hyx⟩ := Context.occurs_instantiate.1 hoccurs
        have hle := hu.assembled.rank_le hS hrank (hfit y hy) hyx
        exact absurd (hrank m x y hm ho (.inl ⟨v, hb, hy⟩)) (not_lt.2 hle)
      · cases he
  · have hassign : Copying P S (fun rank => rank x + 1) u.context n :=
      .assign hn fun _ _ => Nat.lt_succ_self _
    refine ⟨(hu.toCopying.mono fun _ _ => Nat.le_succ _).trans hassign,
      hu.assembled.assign hm (hS m hm) ho hb hu.brings hn, ?_⟩
    rintro y rfl -
    rw [context_withContext, Context.isAssigned, (Context.binding?_of_assign hn).2]
    rfl

/-- Copying a variable from a source with all that it mentions. -/
theorem yields_copyNested {fuel : Nat} (hfuel : m.context.copyCost s.context x < fuel) :
    Yields (Transplant.copyNested m.context fuel guard x) s (Blocked P S guard.limit)
      fun _ w => Copied P S m.context (fun rank => rank x + 1) (· = x) s.context w.context := by
  induction fuel generalizing guard x s with
  | zero => exact absurd hfuel (Nat.not_lt_zero _)
  | succ fuel ih =>
    unfold Transplant.copyNested
    refine yields_bind (yields_copyDeclWith hS hm ho hd hs fun inner _ y hy hyd u hu hmiss =>
      ih hy hyd hu ((Context.copyCost_lt_of_missing hmiss).trans_le (Nat.le_of_lt_succ hfuel))) ?_
    rintro - u ⟨hsu, hu, hdeclared⟩
    refine yields_bind (yields_get (Q := fun a w => u = a ∧ u = w) ⟨rfl, rfl⟩) ?_
    rintro _ _ ⟨rfl, rfl⟩
    have hkeep : Copying P S (fun rank => rank x + 1) s.context u.context :=
      hsu.mono fun _ _ => Nat.le_succ _
    split
    · next hassigned =>
      refine yields_pure ⟨hkeep, hu, ?_⟩
      rintro y rfl -
      exact hassigned
    · next hopen =>
      have hopen : u.context.binding? x = none := by
        simpa [Solver.isAssigned, Context.isAssigned] using hopen
      cases hb : m.context.binding? x with
      | none =>
        refine yields_pure ⟨hkeep, hu, ?_⟩
        rintro y rfl hy
        rw [Context.isAssigned, hb] at hy
        cases hy
      | some b =>
        obtain ⟨v, rfl, hfit⟩ := (hS m hm).value x b ho hb
        refine yields_bind (yields_enter (Q := fun inner w => inner.limit = guard.limit ∧ u = w)
          (fun _ hne h0 => absurd h0 hne) fun inner hinner => ⟨hinner, rfl⟩) ?_
        rintro inner _ ⟨hinner, rfl⟩
        refine yields_bind (yields_copyVarsWith m (fun rank => rank x) hu
          fun y hy w hw huw => ?_) fun _ w hw => ?_
        · obtain ⟨hown, hyd⟩ := hfit.own_declared hy
          have hmissing := Context.missing_mono (m := m.context) fun z hz =>
            huw.declared z (hsu.declared z hz)
          have hcost := Context.copyCost_lt_of_refers hmissing ((hS m hm).plain x ho).grounded
            (.inl ⟨v, hb, hy⟩)
          rw [← hinner]
          refine (ih hown hyd hw (hcost.trans_le (Nat.le_of_lt_succ hfuel))).mono fun _ k hk => ?_
          exact hk.mono fun rank hrank => hrank m x y hm ho (.inl ⟨v, hb, hy⟩)
        · refine (yields_copyValue hS hm ho hb hopen hdeclared hw).mono fun _ k hk => ?_
          exact { hk with toCopying := hkeep.trans hk.toCopying }

end

/-! ## Copying proofs -/

/-- What was declared and assigned stays so, the context stays assembled, and the variables in `ys`
are assigned afterwards. -/
structure Gathers (P : Problem) (S : Snapshot → Prop) (ys : Var → Prop) (f n : Context) : Prop where
  declares : ∀ y, f.isDeclared y = true → n.isDeclared y = true
  keeps : ∀ y, f.isAssigned y = true → n.isAssigned y = true
  assembled : Assembled P S n
  assigned : ∀ y, ys y → n.isAssigned y = true

namespace Gathers

variable {ys zs : Var → Prop} {f n k : Context}

theorem mono (h : Gathers P S ys f n) (hz : ∀ y, zs y → ys y) : Gathers P S zs f n :=
  ⟨h.declares, h.keeps, h.assembled, fun y hy => h.assigned y (hz y hy)⟩

theorem trans (h : Gathers P S ys f n) (h' : Gathers P S zs n k) :
    Gathers P S (fun y => ys y ∨ zs y) f k :=
  ⟨fun y hy => h'.declares y (h.declares y hy), fun y hy => h'.keeps y (h.keeps y hy), h'.assembled,
    fun y hy => hy.elim (fun hy => h'.keeps y (h.assigned y hy)) (h'.assigned y)⟩

end Gathers

/-- What each computation of a list gathers, the whole list gathers. -/
theorem yields_gather {α : Type} {f : α → SolverM SearchError PUnit} {as : List α}
    (ys : α → Var → Prop) {E : SearchError → Prop} {s : Solver} (hs : Assembled P S s.context)
    (hf : ∀ a ∈ as, ∀ u : Solver, Assembled P S u.context →
      Yields (f a) u E fun _ w => Gathers P S (ys a) u.context w.context) :
    Yields (as.forM f) s E fun _ u =>
      Gathers P S (fun y => ∃ a ∈ as, ys a y) s.context u.context := by
  let keeps (u w : Solver) : Prop :=
    (∀ y, u.context.isDeclared y = true → w.context.isDeclared y = true) ∧
      ∀ y, u.context.isAssigned y = true → w.context.isAssigned y = true
  refine (yields_forM (I := fun u => Assembled P S u.context) (G := keeps)
    (R := fun a u => ∀ y, ys a y → u.context.isAssigned y = true) (fun _ => ⟨fun _ => id, fun _ => id⟩)
    (fun _ _ _ h h' => ⟨fun y hy => h'.1 y (h.1 y hy), fun y hy => h'.2 y (h.2 y hy)⟩)
    (fun _ _ _ h ha y hy => h.2 y (ha y hy)) hs
    fun a ha u hu _ => (hf a ha u hu).mono fun _ w hw =>
      ⟨hw.assembled, ⟨hw.declares, hw.keeps⟩, hw.assigned⟩).mono ?_
  rintro _ u ⟨hu, hkeeps, hall⟩
  exact ⟨hkeeps.1, hkeeps.2, hu, fun y ⟨a, ha, hy⟩ => hall a ha y hy⟩

/-- Global declarations do not matter. -/
theorem context_mergeEnv (env earlier : Environment) (s : Solver) :
    ((Transplant.mergeEnv env earlier).run s).2.context = s.context := by
  unfold Transplant.mergeEnv
  generalize env.addedSince earlier = decls
  induction decls generalizing s with
  | nil => rfl
  | cons d decls ih =>
    refine (ih _).trans ?_
    cases s.env.contains d.1 <;> rfl

theorem yields_mergeEnv {env earlier : Environment} {s : Solver} {E : SearchError → Prop}
    {Q : Context → Prop} (h : Q s.context) :
    Yields (liftM (Transplant.mergeEnv env earlier) : SolverM SearchError Unit) s E
      fun _ u => Q u.context :=
  yields_lift (show Q _ from (context_mergeEnv env earlier s).symm ▸ h)

section

variable {s : Solver} {guard : DepthGuard} (hS : ∀ m, S m → Conforms P L m.context)
  (hs : Assembled P S s.context)

include hS hs

theorem yields_copyBinding {m : Snapshot} {x : Var} (hm : S m) (ho : P.Own x)
    (hd : m.context.isDeclared x = true) :
    Yields (Transplant.copyBinding m.context guard x) s (Blocked P S guard.limit) fun _ u =>
      Gathers P S (fun y => y = x ∧ m.context.isAssigned x = true) s.context u.context := by
  rw [Transplant.copyBinding_eq]
  refine (yields_copyNested hS hm ho hd hs
    (Context.copyCost_lt_nestingBound _ _ _)).mono fun _ u hu => ?_
  refine ⟨hu.declared, fun y hy => hu.isAssigned hy, hu.assembled, ?_⟩
  rintro y ⟨rfl, hy⟩
  exact hu.brings y rfl hy

variable {g : GoalId} {x : Var} {post : Snapshot} {r : ApplicationId} (hr : Recorded P L t)

include hr

theorem yields_copyNormalization (hm : S post) (hg : t.HasGoal g)
    (hd : post.context.isDeclared (t.goal g).var = true) :
    Yields (t.copyNormalization guard g post) s (Blocked P S guard.limit) fun _ u =>
      Gathers P S (fun y => y = (t.goal g).var ∧ post.context.isAssigned (t.goal g).var = true)
        s.context u.context := by
  unfold Tree.copyNormalization
  exact yields_bind (yields_copyBinding hS hs hm (hr.own g hg) hd) fun _ u hu => yields_mergeEnv hu

theorem yields_copyApplication (hm : S (t.application r).post)
    (hnorm : (t.goal g).norm = .normal x post) (happ : r ∈ (t.goal g).applications) :
    Yields (t.copyApplication guard r post x) s (Blocked P S guard.limit) fun _ u =>
      Gathers P S (fun y => y = x ∨ y ∈ (t.application r).assigned) s.context u.context := by
  have hvar : (t.goal g).normVar? = some x := by rw [Goal.normVar?, hnorm]
  have hassigned := hr.applied g x hvar r happ
  unfold Tree.copyApplication
  refine yields_bind (yields_copyBinding hS hs hm ((hr.goal g).var x hvar)
    (Context.isDeclared_of_isAssigned hassigned)) fun _ u hu => ?_
  refine yields_bind (yields_gather (fun y z => z = y) hu.assembled fun y hy w hw => ?_)
    fun _ w hw => yields_mergeEnv ?_
  · obtain ⟨hown, hya⟩ := hr.assigned r y (VarSet.mem_toList.1 hy)
    exact (yields_copyBinding hS hw hm hown (Context.isDeclared_of_isAssigned hya)).mono
      fun _ k hk => hk.mono fun z hz => ⟨hz, hya⟩
  · refine (hu.trans hw).mono fun y hy => ?_
    rcases hy with rfl | hy
    · exact .inl ⟨rfl, hassigned⟩
    · exact .inr ⟨y, VarSet.mem_toList.2 hy, rfl⟩

end

namespace Tree

/-- The proof of `g` needs the proof of `k`, the first proven goal of a cluster. -/
def Next (t : Tree) (g k : GoalId) : Prop := ∃ x post r c, (t.goal g).norm = .normal x post ∧
  ((t.goal g).applications.find? fun r => (t.application r).state.isProven) = some r ∧
  c ∈ (t.application r).clusters ∧
  ((t.cluster c).goals.find? fun g => (t.goal g).state.isProven) = some k

theorem Contributes.chain {g : GoalId} (h : t.Contributes g) :
    Relation.ReflTransGen t.Next Tree.root g := by
  induction h with
  | root => exact .refl
  | member _ hnorm hfind hc hk ih => exact ih.tail ⟨_, _, _, _, hnorm, hfind, hc, hk⟩

theorem Contributes.isProven {g : GoalId} (h : t.Contributes g)
    (hroot : (t.goal Tree.root).state.isProven = true) : (t.goal g).state.isProven = true := by
  cases h with
  | root => exact hroot
  | member _ _ _ _ hk =>
    have hproven := List.find?_some hk
    exact hproven

/-- Some goal that the proof of `g` needs supplies `y`. -/
def SuppliesBelow (t : Tree) (g : GoalId) (y : Var) : Prop :=
  ∃ k, Relation.ReflTransGen t.Next g k ∧ t.GoalSupplies k y

namespace SuppliesBelow

variable {g : GoalId} {x y : Var} {post : Snapshot} {r : ApplicationId}

/-- Nothing is below a goal that normalization closed. -/
theorem eq_var (h : t.SuppliesBelow g y) (hnorm : (t.goal g).norm = .proven post) :
    y = (t.goal g).var := by
  obtain ⟨k, hk, hy⟩ := h
  rcases Relation.ReflTransGen.cases_head hk with rfl | ⟨j, ⟨_, _, _, _, hn, -⟩, -⟩
  · rcases hy with hy | ⟨_, _, _, hn, -⟩
    · exact hy.symm
    · exact nomatch hnorm.symm.trans hn
  · exact nomatch hnorm.symm.trans hn

theorem cases (h : t.SuppliesBelow g y)
    (hfind : ((t.goal g).applications.find? fun r => (t.application r).state.isProven) = some r) :
    y = (t.goal g).var ∨ y ∈ (t.application r).assigned ∨ ∃ c ∈ (t.application r).clusters,
      ∃ k, ((t.cluster c).goals.find? fun g => (t.goal g).state.isProven) = some k ∧
        t.SuppliesBelow k y := by
  obtain ⟨k, hk, hy⟩ := h
  rcases Relation.ReflTransGen.cases_head hk with rfl | ⟨j, ⟨_, _, _, c, -, hf, hc, hj⟩, hjk⟩
  · rcases hy with hy | ⟨_, _, _, -, hf, hy⟩
    · exact .inl hy.symm
    · obtain rfl := Option.some.inj (hfind.symm.trans hf)
      exact .inr (.inl hy)
  · obtain rfl := Option.some.inj (hfind.symm.trans hf)
    exact .inr (.inr ⟨c, hc, j, hj, k, hjk, hy⟩)

end SuppliesBelow

namespace Backed

variable {g : GoalId} {r : ApplicationId} {c : ClusterId}

/-- The goals of a goal's application are younger than the goal. -/
theorem index_lt (h : t.Backed) {k : GoalId} (hg : t.HasGoal g) (hr : r ∈ (t.goal g).applications)
    (hc : c ∈ (t.application r).clusters) (hk : k ∈ (t.cluster c).goals) : g.index < k.index := by
  obtain ⟨hhas, hparent⟩ := h.linked.applicationChild g hg r hr
  obtain ⟨hcluster, hup⟩ := h.linked.clusterChild r hhas c hc
  obtain ⟨hkhas, hhome⟩ := h.linked.member c hcluster k hk
  have hlt := h.linked.earlier k r hkhas (by rw [Tree.parentApplication?, hhome, hup])
  rwa [hparent] at hlt

theorem normalized (h : t.Backed) (hg : t.Contributes g) (hhas : t.HasGoal g) :
    (t.goal g).norm ≠ .notNormal := by
  intro hnorm
  rcases h.norm g hhas (hg.isProven h.root) with ⟨post, hpost⟩ | ⟨⟨x, post, hpost⟩, -⟩
  · exact nomatch hnorm.symm.trans hpost
  · exact nomatch hnorm.symm.trans hpost

theorem find?_application (h : t.Backed) (hg : t.Contributes g) (hhas : t.HasGoal g) {x : Var}
    {post : Snapshot} (hnorm : (t.goal g).norm = .normal x post) :
    ((t.goal g).applications.find? fun r => (t.application r).state.isProven) ≠ none := by
  intro hfind
  rcases h.norm g hhas (hg.isProven h.root) with ⟨post, hpost⟩ | ⟨-, r, hr, hproven⟩
  · exact nomatch hnorm.symm.trans hpost
  · have hnot := List.find?_eq_none.1 hfind r hr
    rw [hproven] at hnot
    exact hnot rfl

theorem find?_member (h : t.Backed) (hhas : t.HasGoal g)
    (hfind : ((t.goal g).applications.find? fun r => (t.application r).state.isProven) = some r)
    (hc : c ∈ (t.application r).clusters) :
    ((t.cluster c).goals.find? fun g => (t.goal g).state.isProven) ≠ none := by
  intro hk
  have hr := (h.linked.applicationChild g hhas r (List.mem_of_find?_eq_some hfind)).1
  have hfound := List.find?_some hfind
  have hcluster := (h.sound.application r hr).proven (NodeState.isProven_iff.1 hfound) c hc
  obtain ⟨k, hkm, hkp⟩ := (h.sound.cluster c (h.linked.clusterChild r hr c hc).1).proven hcluster
  exact List.find?_eq_none.1 hk k hkm hkp

end Backed

end Tree

/-- Copying the proof of a contributing goal assigns all that its part of the tree supplies. -/
theorem yields_extractGoal {s : Solver} {guard : DepthGuard} {fuel : Nat} {g : GoalId}
    (hr : Recorded P L t) (hs : Assembled P t.Source s.context) (hg : t.Contributes g)
    (hfuel : t.Backed → t.goals.size < g.index + fuel) :
    Yields (t.extractGoal fuel guard g) s (fun e => t.Backed → Blocked P t.Source guard.limit e)
      fun _ u => Gathers P t.Source (t.SuppliesBelow g) s.context u.context := by
  have hhas := hg.hasGoal hr.hasRoot
  have hS (m : Snapshot) : t.Source m → Conforms P L m.context := hr.source
  induction fuel generalizing guard g s with
  | zero => exact yields_throw fun hb => absurd (hfuel hb) (not_lt.2 (Nat.le_of_lt hhas))
  | succ fuel ih =>
    unfold Tree.extractGoal
    have hkept := hr.goal g
    cases hnorm : (t.goal g).norm with
    | notNormal => exact yields_throw fun hb => (hb.normalized hg hhas hnorm).elim
    | proven post =>
      have hpost : (t.goal g).normPost? = some post := by rw [Goal.normPost?, hnorm]
      have hclosed := hkept.closed post hnorm
      refine ((yields_copyNormalization hS hs hr (.norm hg hpost) hhas
        (Context.isDeclared_of_isAssigned hclosed)).errors fun e he _ => he).mono fun _ u hu => ?_
      exact hu.mono fun y hy => ⟨hy.eq_var hnorm, hclosed⟩
    | normal x post =>
      have hpost : (t.goal g).normPost? = some post := by rw [Goal.normPost?, hnorm]
      obtain ⟨hdeclared, hvar⟩ := hkept.normal x post hnorm
      refine yields_bind ((yields_copyNormalization hS hs hr (.norm hg hpost) hhas hdeclared).errors
        fun e he _ => he) fun _ u hu => ?_
      cases hfind : (t.goal g).applications.find? fun r => (t.application r).state.isProven with
      | none => exact yields_throw fun hb => (hb.find?_application hg hhas hnorm hfind).elim
      | some r =>
        refine yields_bind ((yields_copyApplication hS hu.assembled hr
          (.applied hg hnorm hfind) hnorm (List.mem_of_find?_eq_some hfind)).errors
          fun e he _ => he) fun _ w hw => ?_
        -- one goal of each cluster
        refine (yields_gather (fun c y => ∃ k, ((t.cluster c).goals.find? fun g =>
          (t.goal g).state.isProven) = some k ∧ t.SuppliesBelow k y) hw.assembled
          fun c hc v hv => ?_).mono fun _ v hv => ((hu.trans hw).trans hv).mono fun y hy => ?_
        · cases hk : (t.cluster c).goals.find? fun g => (t.goal g).state.isProven with
          | none => exact yields_throw fun hb => (hb.find?_member hhas hfind hc hk).elim
          | some k =>
            refine yields_bind (yields_enter
              (Q := fun inner w => inner.limit = guard.limit ∧ v = w)
              (fun _ hne _ h0 => absurd h0 hne) fun inner hinner => ⟨hinner, rfl⟩) ?_
            rintro inner _ ⟨hinner, rfl⟩
            have hkg := hg.member hnorm hfind hc hk
            rw [← hinner]
            refine (ih hv hkg (fun hb => ?_) (hkg.hasGoal hr.hasRoot)).mono fun _ z hz =>
              hz.mono fun y hy => ?_
            · have hlt := hb.index_lt hhas (List.mem_of_find?_eq_some hfind) hc
                (List.mem_of_find?_eq_some hk)
              have := hfuel hb
              omega
            · obtain ⟨k', hk', hy⟩ := hy
              cases hk'
              exact hy
        · rcases hy.cases hfind with rfl | hy | hy
          · rcases hvar with hvar | hvar
            · exact .inl (.inr (.inl hvar))
            · exact .inl (.inl ⟨rfl, hvar⟩)
          · exact .inl (.inr (.inr hy))
          · exact .inr hy

/-- Putting together the proof of the root.  Without a bound on the nesting it fails only if the
tree is not ordered or not covered. -/
theorem yields_extractProof {s : Solver} {limit : Nat} (hr : Recorded P L t) :
    Yields (t.extractProof limit) s (fun e => t.Backed → limit = 0 →
      (¬ t.Ordered P.Own ∧
        ∃ x, e = .metavar (.alreadyAssigned x) ∨ e = .metavar (.occursCheck x)) ∨
      ¬ t.Covered ∧ ∃ term x count, e = .extraction (.openTerm term x count))
      fun proof u => proof.term.hasVar = false ∧
        proof.term = u.context.instantiate (.var P.root) ∧ Assembled P t.Source u.context := by
  rw [Tree.extractProof_eq]
  refine yields_bind (Q := fun _ u => u.context = t.rootState.context) (yields_lift rfl)
    fun _ u hu => ?_
  have hstart : Assembled P t.Source u.context := by
    rw [hu]
    exact .of_conforms hr.root .start
  refine yields_bind ((yields_extractGoal hr hstart .root fun _ => by
    show t.goals.size < 0 + (t.goals.size + 1)
    omega).errors fun e he hb h0 => .inl ((he hb h0).imp_left fun hno ⟨rank, hrank⟩ =>
      hno ⟨rank, Tree.ranks_iff.1 hrank⟩)) fun _ w hw => ?_
  refine yields_bind (yields_get (Q := fun a k => w = a ∧ w = k) ⟨rfl, rfl⟩) ?_
  rintro _ _ ⟨rfl, rfl⟩
  have hroot : (t.goal Tree.root).var = P.root := hr.rootVar
  rw [hroot]
  dsimp only
  split
  · next hvars =>
    refine yields_pure ⟨Term.hasVar_eq_false.2 fun x => ?_, rfl, hw.assembled⟩
    by_contra hx
    have hmem := VarSet.mem_toList.2 (Term.mem_vars.2 (by simpa using hx))
    rw [hvars] at hmem
    cases hmem
  · next x xs hvars =>
    refine yields_throw fun hb _ => .inr ⟨fun hcov => ?_, _, _, _, rfl⟩
    have hclosed := hw.assembled.closed hr hcov fun y ⟨g, hg, hy⟩ => hw.assigned y ⟨g, hg.chain, hy⟩
    have hx : (w.context.instantiate (.var P.root)).occurs x = true := by
      refine Term.mem_vars.1 (VarSet.mem_toList.1 ?_)
      rw [hvars]
      exact List.mem_cons_self
    rw [Term.hasVar_eq_false.1 hclosed x] at hx
    cases hx

/-- The finished proof is closed, is the value of the root in the final state, and is put together
from sources. -/
theorem extractProof_assembled {limit : Nat} {s s' : Solver} {proof : Proof}
    (hr : Recorded P L t) (he : Ends (t.extractProof limit) s proof s') :
    proof.term.hasVar = false ∧ proof.term = s'.context.instantiate (.var P.root) ∧
      Assembled P t.Source s'.context :=
  (yields_extractProof hr).of_ends he

end ProofSearch
