import ProofSearch.Proofs.Derivation.Assembly
import ProofSearch.Proofs.Metavar.Instantiation

/-!
# Transplanting from one context

Copying a variable passes through types, hypotheses, values and pending variables, and stops
wherever the running context has a declaration or a binding already.

1. `Context.WellLinked`: contexts in which whatever is mentioned is declared and nothing leads back
   to itself.
2. `Context.Excerpt`: parts of a context in which no binding misses what it mentions.
   `Excerpt.instantiate_eq` says that they give their variables the same values.
3. `Growth`: what copying adds to a context, and which bindings it does not touch.
4. `transplants_copyNested`: copying a variable into an excerpt.
5. `Context.copyBinding_reproduces`: the copied variable has its recorded value.
-/

namespace ProofSearch

open Solver

/-- The variables that an entry mentions. -/
def Entry.mentioned (e : Entry) : List Var :=
  e.decl.type.vars.toList ++ e.decl.hyps.flatMap (·.type.vars.toList) ++
    (e.binding.map (·.term.vars.toList)).getD []

namespace Context

variable {m f n k : Context} {x y : Var}

/-! ## Links -/

/-- The binding or the declaration of `x` mentions `y`. -/
def Links (m : Context) (x y : Var) : Prop :=
  m.Refers x y ∨ ∃ d, m.decl? x = some d ∧ d.Mentions y

/-- Whatever is mentioned is declared, and no chain of links leads back to its start. -/
structure WellLinked (m : Context) : Prop where
  declared : ∀ x y, m.Links x y → m.isDeclared y = true
  acyclic : ∀ x, ¬ Relation.TransGen m.Links x x

/-- The variables that can be reached from `x` by one or more links. -/
abbrev Below (m : Context) (x : Var) : Var → Prop := Relation.TransGen m.Links x

/-- The variable `x` and those below it. -/
abbrev Within (m : Context) (x : Var) : Var → Prop := Relation.ReflTransGen m.Links x

theorem Links.exists_entry (h : m.Links x y) : ∃ e, m.get? x = some e ∧ y ∈ e.mentioned := by
  obtain h | ⟨d, hd, h⟩ := h
  · obtain ⟨b, hb⟩ := Option.isSome_iff_exists.1 h.isAssigned
    obtain ⟨e, he, heb⟩ := Option.bind_eq_some_iff.1 hb
    refine ⟨e, he, List.mem_append_right _ ?_⟩
    simpa [heb, VarSet.mem_toList, Term.mem_vars] using (refers_iff_of_binding hb).1 h
  · obtain ⟨e, he, rfl⟩ := Option.map_eq_some_iff.1 hd
    refine ⟨e, he, List.mem_append_left _ ?_⟩
    simpa [VarDecl.Mentions, VarSet.mem_toList, Term.mem_vars] using h

/-- A context is well linked if numbers go down along its links. -/
theorem wellLinked_of_rank (rank : Var → Nat) (h : ∀ p ∈ m.entries.entries, ∀ y ∈ p.2.mentioned,
    m.isDeclared y = true ∧ rank y < rank p.1) : m.WellLinked := by
  have hstep {x y : Var} (hxy : m.Links x y) : m.isDeclared y = true ∧ rank y < rank x := by
    obtain ⟨e, he, hy⟩ := hxy.exists_entry
    exact h (x, e) ((SortedMap.lookup_eq_some_iff m.entries.increasing).1 he) y hy
  have hbelow {x y : Var} (hxy : Relation.TransGen m.Links x y) : rank y < rank x := by
    induction hxy with
    | single hxy => exact (hstep hxy).2
    | tail _ hyz ih => exact (hstep hyz).2.trans ih
  exact ⟨fun x y hxy => (hstep hxy).1, fun x hx => (hbelow hx).false⟩

theorem WellLinked.acyclic_refers (hm : m.WellLinked) : m.Acyclic :=
  fun x hx => hm.acyclic x (Relation.TransGen.mono (fun _ _ => .inl) _ _ hx)

theorem WellLinked.grounded (hm : m.WellLinked) (x : Var) : m.Grounded x :=
  hm.acyclic_refers.grounded x

/-! ## Parts and excerpts -/

/-- The declarations and bindings of `f` are some of those of `m`. -/
structure PartOf (f m : Context) : Prop where
  decl : ∀ x d, f.decl? x = some d → m.decl? x = some d
  binding : f.Extends m

namespace PartOf

theorem refl (f : Context) : f.PartOf f := ⟨fun _ _ => id, .refl f⟩

theorem trans (h : f.PartOf n) (h' : n.PartOf k) : f.PartOf k :=
  ⟨fun x d hd => h'.decl x d (h.decl x d hd), h.binding.trans h'.binding⟩

theorem isDeclared (h : f.PartOf n) (hx : f.isDeclared x = true) : n.isDeclared x = true := by
  obtain ⟨d, hd⟩ := exists_decl? hx
  exact isDeclared_of_decl? (h.decl x d hd)

theorem isAssigned (h : f.PartOf n) (hx : f.isAssigned x = true) : n.isAssigned x = true := by
  obtain ⟨b, hb⟩ := Option.isSome_iff_exists.1 hx
  exact Option.isSome_iff_exists.2 ⟨b, h.binding x b hb⟩

end PartOf

/-- A part of `m` in which every variable that a binding mentions is assigned if `m` assigns it. -/
structure Excerpt (f m : Context) : Prop extends PartOf f m where
  saturated : ∀ x y, f.Refers x y → m.isAssigned y = true → f.isAssigned y = true

/-- What `m` says of `x` is also said in `n`. -/
structure Supplied (m n : Context) (x : Var) : Prop where
  declared : n.isDeclared x = true
  assigned : m.isAssigned x = true → n.isAssigned x = true

theorem Supplied.of_part (h : m.Supplied f x) (hn : f.PartOf n) : m.Supplied n x :=
  ⟨hn.isDeclared h.declared, fun hx => hn.isAssigned (h.assigned hx)⟩

theorem PartOf.binding?_eq (h : f.PartOf m) (hx : m.isAssigned x = true → f.isAssigned x = true) :
    f.binding? x = m.binding? x := by
  cases hb : m.binding? x with
  | none =>
    cases hf : f.binding? x with
    | none => rfl
    | some b => exact nomatch hb.symm.trans (h.binding x b hf)
  | some b =>
    obtain ⟨c, hc⟩ := Option.isSome_iff_exists.1 (hx (Option.isSome_iff_exists.2 ⟨b, hb⟩))
    rw [hc, ← hb]
    exact (h.binding x c hc).symm

/-- An excerpt gives a variable that it assigns, or that has no binding, its value in the whole
context. -/
theorem Excerpt.instantiate_eq (h : f.Excerpt m) (hx : m.Grounded x)
    (ha : m.isAssigned x = true → f.isAssigned x = true) :
    f.instantiate (.var x) = m.instantiate (.var x) := by
  induction hx with
  | intro x hacc ih =>
    have hm : m.Grounded x := .intro x hacc
    have hf : f.Grounded x := hm.of_extends h.binding
    have hsame := h.binding?_eq ha
    have hnext {y : Var} (hy : m.Refers x y) : f.instantiate (.var y) = m.instantiate (.var y) := by
      refine ih y hy (h.saturated x y ?_)
      rwa [Refers, hsame]
    cases hb : m.binding? x with
    | none => rw [instantiate_open hb, instantiate_open (hsame.trans hb)]
    | some b =>
      cases b with
      | value t =>
        rw [instantiate_value hm hb, instantiate_value hf (hsame.trans hb), instantiate_eq_subst,
          instantiate_eq_subst]
        exact Term.subst_congr fun y hy => hnext (.inl ⟨t, hb, hy⟩)
      | delayed p =>
        rw [instantiate_delayed hm hb, instantiate_delayed hf (hsame.trans hb), hnext (.inr hb)]

/-! ## Growth -/

/-- Copying from `m` turns `f` into `n`.  Bindings outside `scope` stay as they are, and new
variables are assigned as in `m` unless they are in `owed`. -/
structure Growth (m : Context) (scope owed : Var → Prop) (f n : Context) : Prop where
  part : f.PartOf n
  spares : ∀ z, ¬ scope z → n.binding? z = f.binding? z
  whole : ∀ z, ¬ owed z → f.isDeclared z = false → n.isDeclared z = true → m.Supplied n z

namespace Growth

variable {scope scope' owed owed' : Var → Prop}

theorem refl (f : Context) : Growth m scope owed f f :=
  ⟨.refl f, fun _ _ => rfl, fun _ _ hf hn => nomatch hf.symm.trans hn⟩

theorem trans (h : Growth m scope owed f n) (h' : Growth m scope owed n k) :
    Growth m scope owed f k := by
  refine ⟨h.part.trans h'.part, fun z hz => (h'.spares z hz).trans (h.spares z hz),
    fun z ho hf hk => ?_⟩
  cases hn : n.isDeclared z with
  | true => exact (h.whole z ho hf hn).of_part h'.part
  | false => exact h'.whole z ho hn hk

theorem mono (h : Growth m scope owed f n) (hs : ∀ z, scope z → scope' z)
    (ho : ∀ z, owed z → owed' z) : Growth m scope' owed' f n :=
  ⟨h.part, fun z hz => h.spares z (mt (hs z) hz), fun z hz => h.whole z (mt (ho z) hz)⟩

/-- A variable is not owed any more once it is supplied. -/
theorem settle (h : Growth m scope (· = x) f n) (hx : m.Supplied n x) :
    Growth m scope (fun _ => False) f n := by
  refine ⟨h.part, h.spares, fun z _ hf hn => ?_⟩
  by_cases hz : z = x
  · exact hz ▸ hx
  · exact h.whole z hz hf hn

end Growth

/-- A new declaration touches no binding, and the binding of its variable is owed. -/
theorem Excerpt.declareFresh {d : VarDecl} (h : f.Excerpt m) (hd : m.decl? x = some d)
    (hx : f.isDeclared x = false) : (f.declareFresh x d).Excerpt m ∧
      Growth m (fun _ => False) (· = x) f (f.declareFresh x d) := by
  have hbinding := fun y => binding?_declareFresh f x y d
  have hrefers (y z : Var) : (f.declareFresh x d).Refers y z ↔ f.Refers y z := by
    rw [Refers, hbinding, Refers]
  refine ⟨⟨⟨fun y e hy => ?_, fun y b hb => ?_⟩, fun y z hyz hz => ?_⟩,
    ⟨fun y e => decl?_declareFresh_of_undeclared d hx, fun y b hb => (hbinding y).trans hb⟩,
    fun z _ => hbinding z, fun z hz hf hn => ?_⟩
  · rw [decl?_declareFresh] at hy
    split at hy
    · next he => rwa [he, hd]
    · exact h.decl y e hy
  · exact h.binding y b ((hbinding y).symm.trans hb)
  · rw [Context.isAssigned, hbinding]
    exact h.saturated y z ((hrefers y z).1 hyz) hz
  · rw [Context.isDeclared, get?_declareFresh, if_neg hz] at hn
    cases hf.symm.trans hn

/-- An open variable gets its binding once everything that the binding mentions is supplied. -/
theorem Excerpt.bind {b : Binding} (h : f.Excerpt m) (hx : f.isDeclared x = true)
    (hopen : f.binding? x = none) (hb : m.binding? x = some b)
    (hall : ∀ y, b.term.occurs y = true → m.Supplied f y) :
    ∃ d, f.assignable x = .ok d ∧ (f.bind x d b).Excerpt m ∧
      Growth m (· = x) (fun _ => False) f (f.bind x d b) ∧ m.Supplied (f.bind x d b) x := by
  obtain ⟨d, hd⟩ := exists_decl? hx
  have hdecl := decl?_bind_of_decl? hd b
  have hpart : f.PartOf (f.bind x d b) :=
    ⟨fun y e hy => (hdecl y).trans hy, extends_bind hopen d b⟩
  have hself : (f.bind x d b).binding? x = some b := by rw [binding?_bind, if_pos rfl]
  refine ⟨d, assignable_iff_open.2 ⟨hd, hopen⟩,
    ⟨⟨fun y e hy => h.decl y e ((hdecl y).symm.trans hy), fun y c hc => ?_⟩, fun y z hyz hz => ?_⟩,
    ⟨hpart, fun z hz => ?_, fun z _ hf hn => ?_⟩, hpart.isDeclared hx,
    fun _ => Option.isSome_iff_exists.2 ⟨b, hself⟩⟩
  · rw [binding?_bind] at hc
    split at hc
    · next he => rw [he, hb, hc]
    · exact h.binding y c hc
  · rcases refers_bind.1 hyz with ⟨-, hocc⟩ | ⟨-, hyz⟩
    · exact hpart.isAssigned ((hall z hocc).assigned hz)
    · exact hpart.isAssigned (h.saturated y z hyz hz)
  · rw [binding?_bind, if_neg hz]
  · rw [isDeclared_congr (hdecl z)] at hn
    exact nomatch hf.symm.trans hn

/-- In a part of a context a variable does not occur in what it links to. -/
theorem WellLinked.occurs_instantiate {t : Term} (hm : m.WellLinked) (h : f.PartOf m)
    (ht : ∀ y, t.occurs y = true → m.Links x y) : (f.instantiate t).occurs x = false := by
  refine (Bool.not_eq_true _).mp fun hx => ?_
  obtain ⟨y, hy, hyx⟩ := Context.occurs_instantiate.1 hx
  have hreach := (((hm.grounded y).of_extends h.binding).of_occurs hyx).1
  exact hm.acyclic x (.head' (ht y hy)
    (Relation.ReflTransGen.mono (fun _ _ hr => .inl (hr.extends h.binding)) _ _ hreach))

/-- The last step of copying `x`: in `n` everything that its binding mentions is there, and nothing
has touched `x` since it was declared in `k`. -/
theorem WellLinked.exists_bind {b : Binding} (hm : m.WellLinked)
    (hk : Growth m (m.Within x) (· = x) f k) (hx : k.isDeclared x = true)
    (hopen : k.binding? x = none) (hn : n.Excerpt m)
    (hkn : Growth m (m.Below x) (fun _ => False) k n) (hb : m.binding? x = some b)
    (hall : ∀ y, b.term.occurs y = true → m.Supplied n y) :
    ∃ d, n.assignable x = .ok d ∧ (n.instantiate b.term).occurs x = false ∧
      (n.bind x d b).Excerpt m ∧ Growth m (m.Within x) (fun _ => False) f (n.bind x d b) ∧
      m.Supplied (n.bind x d b) x := by
  obtain ⟨d, hd, hexcerpt, hbind, hsupplied⟩ :=
    hn.bind (hkn.part.isDeclared hx) ((hkn.spares x (hm.acyclic x)).trans hopen) hb hall
  refine ⟨d, hd, hm.occurs_instantiate hn.toPartOf fun y hy => .inl ((refers_iff_of_binding hb).2 hy),
    hexcerpt, Growth.settle ((hk.trans (hkn.mono ?_ ?_)).trans (hbind.mono ?_ ?_)) hsupplied, hsupplied⟩
  · exact fun _ => Relation.TransGen.to_reflTransGen
  · exact fun _ => False.elim
  · rintro z rfl
    exact .refl
  · exact fun _ => False.elim

end Context

/-! ## Copying into an excerpt -/

section

variable {m : Context} {scope scope' owed owed' : Var → Prop} {R R' : Context → Prop} {s : Solver}
  {c : SolverM SearchError Unit}

/-- The computation ends in an excerpt of `m` that has grown within `scope` and satisfies `R`. -/
def Transplants (m : Context) (scope owed : Var → Prop) (R : Context → Prop) (s : Solver)
    (c : SolverM SearchError Unit) : Prop :=
  Yields c s (fun _ => False) fun _ w =>
    w.context.Excerpt m ∧ Context.Growth m scope owed s.context w.context ∧ R w.context

theorem Transplants.mono (h : Transplants m scope owed R s c) (hs : ∀ z, scope z → scope' z)
    (ho : ∀ z, owed z → owed' z) (hR : ∀ n, R n → R' n) : Transplants m scope' owed' R' s c :=
  Yields.mono h fun _ _ ⟨hw, hgrowth, hr⟩ => ⟨hw, hgrowth.mono hs ho, hR _ hr⟩

/-- Each computation of a list works in what the earlier ones have left. -/
theorem transplants_forM {α : Type} {copy : α → SolverM SearchError Unit} {as : List α}
    (ys : α → Var → Prop) (hs : s.context.Excerpt m)
    (hcopy : ∀ a ∈ as, ∀ u : Solver, u.context.Excerpt m → s.context.PartOf u.context →
      Transplants m scope owed (fun n => ∀ y, ys a y → m.Supplied n y) u (copy a)) :
    Transplants m scope owed (fun n => ∀ a ∈ as, ∀ y, ys a y → m.Supplied n y) s
      (as.forM copy) := by
  refine yields_forM (I := fun u : Solver => u.context.Excerpt m)
    (G := fun u w : Solver => Context.Growth m scope owed u.context w.context)
    (R := fun a (u : Solver) => ∀ y, ys a y → m.Supplied u.context y) (fun _ => .refl _)
    (fun _ _ _ => .trans) (fun _ _ _ h ha y hy => (ha y hy).of_part h.part) hs
    fun a ha u hu hsu => ?_
  exact hcopy a ha u hu hsu.part

theorem transplants_copyVarsWith {copy : Var → SolverM SearchError Unit} {v : Term}
    (hs : s.context.Excerpt m)
    (hcopy : ∀ y, v.occurs y = true → ∀ u : Solver, u.context.Excerpt m →
      s.context.PartOf u.context → Transplants m scope owed (m.Supplied · y) u (copy y)) :
    Transplants m scope owed (fun n => ∀ y, v.occurs y = true → m.Supplied n y) s
      (Transplant.copyVarsWith copy v) := by
  refine (transplants_forM (fun y z => z = y) hs fun y hy u hu hsu => ?_).mono (fun _ => id)
    (fun _ => id) fun n hn y hy => hn y (VarSet.mem_toList.2 (Term.mem_vars.2 hy)) y rfl
  exact (hcopy y (Term.mem_vars.1 (VarSet.mem_toList.1 hy)) u hu hsu).mono (fun _ => id)
    (fun _ => id) fun n hn z hz => hz ▸ hn

variable {x : Var} {guard : DepthGuard} (hguard : guard.limit = 0)

include hguard

theorem exists_enter : ∃ inner : DepthGuard, inner.limit = 0 ∧ guard.enter = .ok inner :=
  ⟨{ guard with depth := guard.depth + 1 }, hguard, by simp [DepthGuard.enter, hguard]⟩

/-- Declaring a variable brings all that its type and hypotheses mention.  Bindings are made below
it only, and its own is owed. -/
theorem transplants_copyDeclWith {copy : DepthGuard → Var → SolverM SearchError Unit}
    (hx : m.isDeclared x = true) (hs : s.context.Excerpt m)
    (hcopy : ∀ inner : DepthGuard, inner.limit = 0 → ∀ y, m.Links x y → ∀ u : Solver,
      u.context.Excerpt m → m.missing u.context < m.missing s.context →
      Transplants m (m.Within y) (fun _ => False) (m.Supplied · y) u (copy inner y)) :
    Transplants m (m.Below x) (· = x) (·.isDeclared x = true) s
      (Transplant.copyDeclWith m copy guard x) := by
  unfold Transplant.copyDeclWith
  refine (ends_get.2 ⟨rfl, rfl⟩).bind ?_
  split
  · next hdeclared => exact yields_pure ⟨hs, .refl _, hdeclared⟩
  · next hnew =>
    have hnew : s.context.isDeclared x = false := by simpa using hnew
    obtain ⟨d, hd⟩ := Context.exists_decl? hx
    simp only [hd]
    obtain ⟨hfresh, hgrowth⟩ := hs.declareFresh hd hnew
    have hdeclared : (s.context.declareFresh x d).isDeclared x = true := by
      rw [Context.isDeclared, Context.get?_declareFresh, if_pos rfl]
      rfl
    have hmissing : m.missing (s.context.declareFresh x d) < m.missing s.context :=
      Context.missing_lt (fun _ => hgrowth.part.isDeclared) hx hnew hdeclared
    have hends : Ends ((Solver.declare x d).adapt SearchError.metavar) s ()
        ⟨⟨s.context.declareFresh x d, s.env⟩, max s.lastId x.index⟩ :=
      ends_adapt.2 (ends_declare.2 ⟨hnew, rfl⟩)
    obtain ⟨inner, hinner, henter⟩ := exists_enter hguard
    -- copying the variables of one of the types, in a context that has the declaration
    have htype {v : Term} (hv : ∀ y, v.occurs y = true → m.Links x y) {u : Solver}
        (hu : u.context.Excerpt m) (hsu : (s.context.declareFresh x d).PartOf u.context) :
        Transplants m (m.Below x) (· = x) (fun _ => True) u
          (Transplant.copyVarsWith (copy inner) v) := by
      refine (transplants_copyVarsWith hu fun y hy w hw huw => ?_).mono (fun _ => id)
        (fun _ => id) fun _ _ => trivial
      have hle := Context.missing_mono (m := m) fun _ => (hsu.trans huw).isDeclared
      exact (hcopy inner hinner y (hv y hy) w hw (hle.trans_lt hmissing)).mono
        (fun z hz => .head' (hv y hy) hz) (fun _ => False.elim) fun _ => id
    refine hends.bind ((ends_solver_orThrow.2 ⟨henter, rfl⟩).bind ?_)
    refine yields_bind (htype (fun y hy => .inr ⟨d, hd, .inl hy⟩) hfresh (.refl _)) ?_
    rintro - w ⟨hw, hsw, -⟩
    have hhyps : Transplants m (m.Below x) (· = x) (fun _ => True) w
        (d.hyps.forM fun h => Transplant.copyVarsWith (copy inner) h.type) := by
      refine (transplants_forM (fun _ _ => False) hw fun h hh u hu hwu => ?_).mono (fun _ => id)
        (fun _ => id) fun _ _ => trivial
      exact (htype (fun y hy => .inr ⟨d, hd, .inr ⟨h, hh, hy⟩⟩) hu (hsw.part.trans hwu)).mono
        (fun _ => id) (fun _ => id) fun _ _ _ => False.elim
    refine Yields.mono hhyps ?_
    rintro - k ⟨hk, hwk, -⟩
    exact ⟨hk, ((hgrowth.mono (fun _ => False.elim) fun _ => id).trans hsw).trans hwk,
      hwk.part.isDeclared (hsw.part.isDeclared hdeclared)⟩

/-- Copying a variable into an excerpt, with enough fuel for the nesting. -/
theorem transplants_copyNested (hm : m.WellLinked) {fuel : Nat} (hx : m.isDeclared x = true)
    (hs : s.context.Excerpt m) (hfuel : m.copyCost s.context x < fuel) :
    Transplants m (m.Within x) (fun _ => False) (m.Supplied · x) s
      (Transplant.copyNested m fuel guard x) := by
  induction fuel generalizing guard x s with
  | zero => exact absurd hfuel (Nat.not_lt_zero _)
  | succ fuel ih =>
    unfold Transplant.copyNested
    refine yields_bind (transplants_copyDeclWith hguard hx hs fun inner hinner y hy u hu hmiss =>
      ih hinner (hm.declared x y hy) hu
        ((Context.copyCost_lt_of_missing hmiss).trans_le (Nat.le_of_lt_succ hfuel))) ?_
    rintro - u ⟨hu, hsu, hdeclared⟩
    refine (ends_get.2 ⟨rfl, rfl⟩).bind ?_
    have hgrowth : Context.Growth m (m.Within x) (· = x) s.context u.context :=
      hsu.mono (fun _ => Relation.TransGen.to_reflTransGen) fun _ => id
    split
    · next hassigned =>
      have hsupplied : m.Supplied u.context x := ⟨hdeclared, fun _ => hassigned⟩
      exact yields_pure ⟨hu, hgrowth.settle hsupplied, hsupplied⟩
    · next hopen =>
      have hopen : u.context.binding? x = none := by
        simpa [Solver.isAssigned, Context.isAssigned] using hopen
      obtain ⟨inner, hinner, henter⟩ := exists_enter hguard
      -- copying one of the variables that the binding mentions
      have hnext {y : Var} (hy : m.Refers x y) {w : Solver} (hw : w.context.Excerpt m)
          (huw : u.context.PartOf w.context) : Transplants m (m.Below x) (fun _ => False)
            (m.Supplied · y) w (Transplant.copyNested m fuel inner y) := by
        have hmissing := Context.missing_mono (m := m) fun _ => (hsu.part.trans huw).isDeclared
        have hcost := Context.copyCost_lt_of_refers hmissing (hm.grounded x) hy
        exact (ih hinner (hm.declared x y (.inl hy)) hw
          (hcost.trans_le (Nat.le_of_lt_succ hfuel))).mono (fun z hz => .head' (.inl hy) hz)
            (fun _ => id) fun _ => id
      cases hb : m.binding? x with
      | none =>
        have hsupplied : m.Supplied u.context x :=
          ⟨hdeclared, fun ha => by cases hb.symm.trans (Option.eq_some_of_isSome ha)⟩
        exact yields_pure ⟨hu, hgrowth.settle hsupplied, hsupplied⟩
      | some b =>
        cases b with
        | value v =>
          refine (ends_solver_orThrow.2 ⟨henter, rfl⟩).bind ?_
          refine yields_bind (transplants_copyVarsWith hu fun y hy w hw huw =>
            hnext (.inl ⟨v, hb, hy⟩) hw huw) ?_
          rintro - w ⟨hw, huw, hall⟩
          obtain ⟨d, hd, hoccurs, hlast⟩ := hm.exists_bind hgrowth hdeclared hopen hw huw hb hall
          exact Ends.yields (a := ()) (ends_adapt.2 (ends_assign.2
            ⟨_, Context.assign_eq_ok_iff.2 ⟨d, hd, hoccurs, rfl⟩, rfl⟩)) hlast
        | delayed p =>
          refine (ends_solver_orThrow.2 ⟨henter, rfl⟩).bind ?_
          refine yields_bind (hnext (.inr hb) hu (.refl _)) ?_
          rintro - w ⟨hw, huw, hp⟩
          have hall (y : Var) (hy : (Binding.delayed p).term.occurs y = true) :
              m.Supplied w.context y := by
            obtain rfl : p = y := by simpa [Binding.term, Term.occurs] using hy
            exact hp
          obtain ⟨d, hd, hoccurs, hlast⟩ := hm.exists_bind hgrowth hdeclared hopen hw huw hb hall
          have hne : p ≠ x := by
            rintro rfl
            exact hm.acyclic p (.single (.inl (.inr hb)))
          exact Ends.yields (a := ()) (ends_adapt.2 (ends_assignDelayed.2
            ⟨_, Context.assignDelayed_eq_ok_iff.2 ⟨d, hd, hp.declared, hne, hoccurs, rfl⟩, rfl⟩)) hlast

end

namespace Context

/-- If whatever a recorded context mentions is declared and nothing in it leads back to itself,
every declared variable of it can be copied into every excerpt of it.  The excerpt grows into an
excerpt again that gives the variable its recorded value, and every new variable has its recorded
binding. -/
theorem copyBinding_reproduces (m : Context) (hm : m.WellLinked) (s : Solver)
    (hs : s.context.Excerpt m) (x : Var) (hx : m.isDeclared x = true) :
    ∃ s', Ends (Transplant.copyBinding m (.ofLimit 0) x) s () s' ∧ s.context.PartOf s'.context ∧
      s'.context.Excerpt m ∧ s'.context.instantiate (.var x) = m.instantiate (.var x) ∧
      ∀ y, s.context.isDeclared y = false → s'.context.isDeclared y = true →
        s'.context.binding? y = m.binding? y := by
  have hcopy : Transplants m (m.Within x) (fun _ => False) (m.Supplied · x) s
      (Transplant.copyBinding m (.ofLimit 0) x) :=
    Transplant.copyBinding_eq m _ x ▸
      transplants_copyNested rfl hm hx hs (copyCost_lt_nestingBound ..)
  obtain ⟨⟨⟩, s', hends, hexcerpt, hgrowth, hsupplied⟩ | ⟨_, _, _, hfalse⟩ := Yields.cases hcopy
  · refine ⟨s', hends, hgrowth.part, hexcerpt,
      hexcerpt.instantiate_eq (hm.grounded x) hsupplied.assigned, fun y hnew hy => ?_⟩
    exact hexcerpt.binding?_eq (hgrowth.whole y id hnew hy).assigned
  · exact hfalse.elim

/-- Variable 2 waits for 4, whose value and type mention 3; the types of 2 and 3 are the variable
1. -/
def Call.typed : List Call := [
  .declare ⟨1⟩ ⟨.const "Type", [], none⟩,
  .declare ⟨2⟩ ⟨.var ⟨1⟩, [⟨"h", .app "P" [.var ⟨1⟩]⟩], none⟩,
  .declare ⟨3⟩ ⟨.var ⟨1⟩, [], none⟩,
  .declare ⟨4⟩ ⟨.app "Q" [.var ⟨3⟩], [], none⟩,
  .assign ⟨1⟩ (.const "T"),
  .assignDelayed ⟨2⟩ ⟨4⟩,
  .assign ⟨3⟩ (.const "a"),
  .assign ⟨4⟩ (.app "f" [.var ⟨3⟩])]

theorem copyBinding_reproduces_typed : (Call.performAll .empty Call.typed).WellLinked ∧
    Solver.empty.context.Excerpt (Call.performAll .empty Call.typed) ∧ ∃ s₁ s₂,
      Ends (Transplant.copyBinding (Call.performAll .empty Call.typed) (.ofLimit 0) ⟨3⟩) .empty () s₁ ∧
      s₁.context.instantiate (.var ⟨3⟩) = .const "a" ∧
      Ends (Transplant.copyBinding (Call.performAll .empty Call.typed) (.ofLimit 0) ⟨2⟩) s₁ () s₂ ∧
      s₂.context.instantiate (.var ⟨2⟩) = .app "f" [.const "a"] := by
  have hlinked : (Call.performAll .empty Call.typed).WellLinked :=
    wellLinked_of_rank (fun x => [0, 0, 3, 1, 2].getD x.index 0) (by decide +kernel)
  have hempty : Solver.empty.context.Excerpt (Call.performAll .empty Call.typed) :=
    ⟨⟨nofun, nofun⟩, fun x y hxy => nomatch hxy.isAssigned⟩
  obtain ⟨s₁, hends₁, -, hexcerpt, hvalue₁, -⟩ :=
    copyBinding_reproduces _ hlinked .empty hempty ⟨3⟩ (by decide +kernel)
  obtain ⟨s₂, hends₂, -, -, hvalue₂, -⟩ :=
    copyBinding_reproduces _ hlinked s₁ hexcerpt ⟨2⟩ (by decide +kernel)
  exact ⟨hlinked, hempty, s₁, s₂, hends₁, hvalue₁.trans (by decide +kernel), hends₂,
    hvalue₂.trans (by decide +kernel)⟩

end Context

end ProofSearch
