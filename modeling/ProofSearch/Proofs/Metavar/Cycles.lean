import ProofSearch.Proofs.Metavar.Resolution

/-!
# Cycles of references

The occurs check looks for a variable in an instantiated term.  A waiting delayed variable hides the
variables below its pending variable from it, so an assignment through a waiting variable may close
a cycle of references.  The open variables below a term include the hidden ones.

1. `mem_openVars`: the open variables below a term are those that can be reached from it.
2. `Acyclic`: no chain of references leads back to its start, and then none goes on for ever.
   `acyclic_bind_iff`: an assignment closes a cycle if and only if its variable is among the open
   variables below the assigned term.
3. `Follows`: following bindings with no bound on the depth; it ends exactly for grounded variables.
4. `Call`: declarations and assignments, each of which may fail.  `acyclic_iff_checked` says which
   sequences of calls leave no cycle, and `delayed_cycle` is one that leaves a cycle.
-/

namespace ProofSearch

/-- The term whose variables a binding refers to. -/
def Binding.term : Binding → Term
  | .value t => t
  | .delayed p => .var p

namespace Context

variable {m n : Context} {x y z : Var} {t : Term}

/-- The variables that can be reached from `x` by references. -/
abbrev Reaches (m : Context) : Var → Var → Prop := Relation.ReflTransGen m.Refers

/-! ## What instantiation leaves -/

/-- Instantiation leaves variables that can be reached, and these are open or delayed. -/
theorem Grounded.of_occurs (h : m.Grounded x) (hy : (m.instantiate (.var x)).occurs y = true) :
    m.Reaches x y ∧ ∀ u, m.binding? y ≠ some (.value u) := by
  induction h with
  | intro x hacc ih =>
    have hx : m.Grounded x := .intro x hacc
    cases hb : m.binding? x with
    | none =>
      rw [instantiate_open hb] at hy
      obtain rfl : x = y := by simpa [Term.occurs] using hy
      exact ⟨.refl, fun u hu => by cases hb.symm.trans hu⟩
    | some b =>
      cases b with
      | value t =>
        rw [instantiate_value hx hb] at hy
        obtain ⟨z, hz, hzy⟩ := occurs_instantiate.1 hy
        have hr : m.Refers x z := .inl ⟨t, hb, hz⟩
        obtain ⟨hreach, hopen⟩ := ih z hr hzy
        exact ⟨.head hr hreach, hopen⟩
      | delayed p =>
        rw [instantiate_delayed hx hb] at hy
        split at hy
        · obtain rfl : x = y := by simpa [Term.occurs] using hy
          exact ⟨.refl, fun u hu => by cases hb.symm.trans hu⟩
        · next hclosed =>
          rw [Term.hasVar_eq_false.1 (by simpa using hclosed) y] at hy
          cases hy

/-- An open variable that can be reached can be reached from what instantiation leaves. -/
theorem Grounded.exists_occurs (h : m.Grounded x) (hr : m.Reaches x y)
    (hy : m.binding? y = none) :
    ∃ z, (m.instantiate (.var x)).occurs z = true ∧ m.Reaches z y := by
  induction h with
  | intro x hacc ih =>
    have hx : m.Grounded x := .intro x hacc
    rcases Relation.ReflTransGen.cases_head hr with rfl | ⟨z, hxz, hzy⟩
    · exact ⟨x, by simp [instantiate_open hy, Term.occurs], .refl⟩
    · obtain ⟨w, hw, hwy⟩ := ih z hxz hzy
      obtain ⟨t, hb, hz⟩ | hb := hxz
      · rw [instantiate_value hx hb]
        exact ⟨w, occurs_instantiate.2 ⟨z, hz, hw⟩, hwy⟩
      · -- the pending variable is not closed, so the delayed variable waits
        rw [instantiate_delayed hx hb, if_pos (Term.hasVar_iff.2 ⟨w, hw⟩)]
        exact ⟨x, by simp [Term.occurs], hr⟩

/-! ## Open variables below a term -/

/-- What is collected from a list, if each of its members contributes on its own. -/
theorem mem_foldl_collect {α : Type} {f : VarSet → α → VarSet} {P : α → Prop} {xs : List α}
    (hf : ∀ found x, y ∈ f found x ↔ y ∈ found ∨ P x) {found : VarSet} :
    y ∈ xs.foldl f found ↔ y ∈ found ∨ ∃ x ∈ xs, P x := by
  induction xs generalizing found with
  | nil => simp
  | cons x xs ih =>
    rw [List.foldl_cons, ih, hf]
    simp [or_assoc]

/-- A waiting delayed variable contributes what is below its pending variable, and every other
variable itself. -/
theorem mem_openBelow_succ {k : Nat} : y ∈ m.openBelow (k + 1) t ↔ ∃ x, t.occurs x = true ∧
    ((∃ p, m.binding? x = some (.delayed p) ∧ y ∈ m.openBelow k (m.instantiate (.var p))) ∨
      (∀ p, m.binding? x ≠ some (.delayed p)) ∧ y = x) := by
  rw [openBelow, mem_foldl_collect (P := fun x =>
    (∃ p, m.binding? x = some (.delayed p) ∧ y ∈ m.openBelow k (m.instantiate (.var p))) ∨
      (∀ p, m.binding? x ≠ some (.delayed p)) ∧ y = x)]
  · simp [VarSet.mem_toList]
  · intro found x
    cases hb : m.binding? x with
    | none => simp [or_comm]
    | some b =>
      cases b with
      | value u => simp [or_comm]
      | delayed p => simp [or_comm]

theorem card_reach_mono (h : m.Reaches x y) : (m.reach y).card ≤ (m.reach x).card := by
  refine Finset.card_le_card fun z hz => ?_
  obtain ⟨ha, hyz⟩ := mem_reach.1 hz
  exact mem_reach.2 ⟨ha, h.trans hyz⟩

theorem Reaches.eq_of_open (h : m.Reaches x y) (hx : m.binding? x = none) : y = x := by
  rcases Relation.ReflTransGen.cases_head h with rfl | ⟨z, hxz, -⟩
  · rfl
  · have := hxz.isAssigned
    rw [isAssigned, hx] at this
    cases this

/-- With enough fuel, the open variables below an instantiated term are those that can be
reached. -/
theorem mem_openBelow (hg : ∀ x, m.Grounded x) (k : Nat) : ∀ t : Term,
    (∀ x, t.occurs x = true → (m.reach x).card ≤ k ∧ ∀ u, m.binding? x ≠ some (.value u)) →
    (y ∈ m.openBelow k t ↔
      m.binding? y = none ∧ ∃ x, t.occurs x = true ∧ m.Reaches x y) := by
  induction k with
  | zero =>
    intro t ht
    -- nothing assigned can be reached, so all variables of the term are open
    have hopen {x : Var} (hx : t.occurs x = true) : m.binding? x = none := by
      by_contra hne
      have hmem : x ∈ m.reach x := mem_reach.2 ⟨Option.isSome_iff_ne_none.2 hne, .refl⟩
      rw [Finset.card_eq_zero.1 (Nat.le_zero.1 (ht x hx).1)] at hmem
      cases hmem
    rw [openBelow, Term.mem_vars]
    constructor
    · exact fun hy => ⟨hopen hy, y, hy, .refl⟩
    · rintro ⟨-, x, hx, hr⟩
      rwa [hr.eq_of_open (hopen hx)]
  | succ k ih =>
    intro t ht
    -- what a waiting variable contributes is reached through its pending variable
    have hbelow {x p : Var} (hx : t.occurs x = true) (hp : m.binding? x = some (.delayed p)) :
        y ∈ m.openBelow k (m.instantiate (.var p)) ↔ m.binding? y = none ∧ m.Reaches p y := by
      rw [ih]
      · constructor
        · rintro ⟨hy, z, hz, hr⟩
          exact ⟨hy, ((hg p).of_occurs hz).1.trans hr⟩
        · rintro ⟨hy, hr⟩
          obtain ⟨z, hz, hzy⟩ := (hg p).exists_occurs hr hy
          exact ⟨hy, z, hz, hzy⟩
      · intro z hz
        obtain ⟨hr, hv⟩ := (hg p).of_occurs hz
        have hlt := (hg x).card_reach_lt (.inr hp)
        have hle := card_reach_mono hr
        have hk := (ht x hx).1
        exact ⟨by omega, hv⟩
    rw [mem_openBelow_succ]
    constructor
    · rintro ⟨x, hx, ⟨p, hp, hy⟩ | ⟨hnot, rfl⟩⟩
      · obtain ⟨hy, hr⟩ := (hbelow hx hp).1 hy
        exact ⟨hy, x, hx, .head (.inr hp) hr⟩
      · refine ⟨?_, y, hx, .refl⟩
        cases hb : m.binding? y with
        | none => rfl
        | some b =>
          cases b with
          | value u => exact ((ht y hx).2 u hb).elim
          | delayed p => exact (hnot p hb).elim
    · rintro ⟨hy, x, hx, hr⟩
      refine ⟨x, hx, ?_⟩
      rcases Relation.ReflTransGen.cases_head hr with rfl | ⟨z, hxz, hzy⟩
      · exact .inr ⟨fun p hp => (nomatch hy.symm.trans hp), rfl⟩
      · obtain ⟨u, hu, -⟩ | hp := hxz
        · exact ((ht x hx).2 u hu).elim
        · exact .inl ⟨z, hp, (hbelow hx hp).2 ⟨hy, hzy⟩⟩

/-- Any fuel from the number of declared variables on gives the open variables that can be reached
from the term. -/
theorem mem_openBelow_instantiate (hg : ∀ x, m.Grounded x) {k : Nat} (hk : m.size ≤ k) :
    y ∈ m.openBelow k (m.instantiate t) ↔
      m.binding? y = none ∧ ∃ x, t.occurs x = true ∧ m.Reaches x y := by
  rw [mem_openBelow hg]
  · constructor
    · rintro ⟨hy, z, hz, hzy⟩
      obtain ⟨x, hx, hxz⟩ := occurs_instantiate.1 hz
      exact ⟨hy, x, hx, ((hg x).of_occurs hxz).1.trans hzy⟩
    · rintro ⟨hy, x, hx, hxy⟩
      obtain ⟨z, hz, hzy⟩ := (hg x).exists_occurs hxy hy
      exact ⟨hy, z, occurs_instantiate.2 ⟨x, hx, hz⟩, hzy⟩
  · intro z hz
    obtain ⟨x, -, hxz⟩ := occurs_instantiate.1 hz
    exact ⟨card_reach_le.trans hk, ((hg x).of_occurs hxz).2⟩

/-- The open variables below a term are those that can be reached from it. -/
theorem mem_openVars (hg : ∀ x, m.Grounded x) : y ∈ m.openVars t ↔
    m.binding? y = none ∧ ∃ x, t.occurs x = true ∧ m.Reaches x y :=
  mem_openBelow_instantiate hg le_rfl

theorem openBelow_stable (hg : ∀ x, m.Grounded x) {k : Nat} (hk : m.size ≤ k) :
    m.openBelow k (m.instantiate t) = m.openVars t := by
  ext y
  rw [mem_openBelow_instantiate hg hk, mem_openVars hg]

theorem resolve_stable (hg : ∀ x, m.Grounded x) {k : Nat} (hk : m.size ≤ k) :
    t.subst (m.resolve k) = m.instantiate t := by
  refine Term.subst_congr fun x _ => ?_
  induction k, hk using Nat.le_induction with
  | base => rfl
  | succ k hk ih => rw [(hg x).resolve_stable (card_reach_le.trans hk), ih]

/-! ## Closing a cycle -/

theorem refers_iff_of_binding {b : Binding} (hb : m.binding? x = some b) :
    m.Refers x y ↔ b.term.occurs y = true := by
  cases b with
  | value t => simp [Refers, hb, Binding.term]
  | delayed p => simp [Refers, hb, Binding.term, Term.occurs]

theorem refers_bind {d : VarDecl} {b : Binding} : (m.bind x d b).Refers y z ↔
    y = x ∧ b.term.occurs z = true ∨ y ≠ x ∧ m.Refers y z := by
  by_cases hy : y = x
  · subst hy
    rw [refers_iff_of_binding (b := b) (by rw [binding?_bind, if_pos rfl])]
    simp
  · simp [Refers, binding?_bind, hy]

/-- Variables from which the assigned variable cannot be reached stay grounded. -/
theorem Grounded.bind_of_not_reaches {d : VarDecl} {b : Binding} (h : m.Grounded y)
    (hy : ¬ m.Reaches y x) : (m.bind x d b).Grounded y := by
  induction h with
  | intro y _ ih =>
    refine .intro y fun z hz => ?_
    rcases refers_bind.1 hz with ⟨rfl, -⟩ | ⟨-, hz⟩
    · exact (hy .refl).elim
    · exact ih z hz fun hzx => hy (.head hz hzx)

/-- An assignment closes no cycle if the assigned variable cannot be reached from what it is
assigned. -/
theorem grounded_bind {d : VarDecl} {b : Binding} (hg : ∀ y, m.Grounded y)
    (hb : ∀ z, b.term.occurs z = true → ¬ m.Reaches z x) (y : Var) :
    (m.bind x d b).Grounded y := by
  have hself : (m.bind x d b).Grounded x := by
    refine .intro x fun z hz => ?_
    rcases refers_bind.1 hz with ⟨-, hz⟩ | ⟨hne, -⟩
    · exact (hg z).bind_of_not_reaches (hb z hz)
    · exact (hne rfl).elim
  have hall := hg y
  induction hall with
  | intro y _ ih =>
    refine .intro y fun z hz => ?_
    rcases refers_bind.1 hz with ⟨rfl, -⟩ | ⟨-, hz'⟩
    · exact hself.of_refers hz
    · exact ih z hz'

/-- An assignment through which its variable is reached closes a cycle. -/
theorem transGen_bind {d : VarDecl} {b : Binding} (hx : m.binding? x = none)
    (hz : b.term.occurs z = true) (hr : m.Reaches z x) :
    Relation.TransGen (m.bind x d b).Refers x x := by
  have hext := extends_bind hx d b
  refine .head' (refers_bind.2 (.inl ⟨rfl, hz⟩)) ?_
  exact Relation.ReflTransGen.mono (fun v w hvw => hvw.extends hext) _ _ hr

/-- No chain of references leads from a variable back to itself. -/
def Acyclic (m : Context) : Prop := ∀ x, ¬ Relation.TransGen m.Refers x x

/-- A context has finitely many bindings, so only a cycle makes a chain of references infinite. -/
theorem Acyclic.grounded (h : m.Acyclic) (x : Var) : m.Grounded x := by
  induction hk : (m.reach x).card using Nat.strong_induction_on generalizing x with
  | _ k ih =>
    refine .intro x fun y hy => ih _ ?_ y rfl
    rw [← hk]
    exact card_reach_lt (h x) hy

/-- An assignment closes a cycle if and only if its variable is among the open variables below the
assigned term. -/
theorem acyclic_bind_iff {d : VarDecl} {b : Binding} (hg : ∀ y, m.Grounded y)
    (hx : m.binding? x = none) :
    ((m.bind x d b).Acyclic ↔ x ∉ m.openVars b.term) ∧
      (x ∉ m.openVars b.term → ∀ y, (m.bind x d b).Grounded y) := by
  have hground (hnot : x ∉ m.openVars b.term) (y : Var) : (m.bind x d b).Grounded y :=
    grounded_bind hg (fun z hz hr => hnot ((mem_openVars hg).2 ⟨hx, z, hz, hr⟩)) y
  refine ⟨⟨fun hac hmem => ?_, fun hnot y => (hground hnot y).not_refers_back⟩, hground⟩
  obtain ⟨-, z, hz, hr⟩ := (mem_openVars hg).1 hmem
  exact hac x (transGen_bind hx hz hr)

theorem Acyclic.of_extends (h : n.Acyclic) (he : m.Extends n) : m.Acyclic :=
  fun x hx => h x (Relation.TransGen.mono (fun _ _ hr => hr.extends he) _ _ hx)

/-! ## Following bindings without a bound -/

/-- Following the bindings from `x` ends with `u`.  A delayed variable stays if the value of its
pending variable is not closed. -/
inductive Follows (m : Context) : Var → Term → Prop
  | unbound {x : Var} : m.binding? x = none → Follows m x (.var x)
  | value {x : Var} {t : Term} {σ : Var → Term} : m.binding? x = some (.value t) →
      (∀ y, t.occurs y = true → Follows m y (σ y)) → Follows m x (t.subst σ)
  | delayed {x p : Var} {u : Term} : m.binding? x = some (.delayed p) → Follows m p u →
      Follows m x (if u.hasVar then .var x else u)

theorem Follows.grounded {u : Term} (h : m.Follows x u) : m.Grounded x := by
  induction h with
  | unbound hb => exact grounded_of_open hb
  | @value x t σ hb _ ih =>
    exact .intro x fun y hy => ih y ((refers_iff_of_binding hb).1 hy)
  | @delayed x p u hb _ ih =>
    refine .intro x fun y hy => ?_
    obtain rfl : p = y := by simpa [Binding.term, Term.occurs] using (refers_iff_of_binding hb).1 hy
    exact ih

theorem Follows.eq_instantiate {u : Term} (h : m.Follows x u) : u = m.instantiate (.var x) := by
  induction h with
  | unbound hb => rw [instantiate_open hb]
  | value hb hall ih =>
    rw [instantiate_value (Follows.value hb hall).grounded hb, instantiate_eq_subst]
    exact Term.subst_congr ih
  | delayed hb hp ih => rw [instantiate_delayed (Follows.delayed hb hp).grounded hb, ih]

theorem Grounded.follows (h : m.Grounded x) : m.Follows x (m.instantiate (.var x)) := by
  induction h with
  | intro x hacc ih =>
    have hx : m.Grounded x := .intro x hacc
    cases hb : m.binding? x with
    | none =>
      rw [instantiate_open hb]
      exact .unbound hb
    | some b =>
      cases b with
      | value t =>
        rw [instantiate_value hx hb, instantiate_eq_subst]
        exact .value hb fun y hy => ih y (.inl ⟨t, hb, hy⟩)
      | delayed p =>
        rw [instantiate_delayed hx hb]
        exact .delayed hb (ih p (.inr hb))

/-! ## Sequences of calls -/

/-- A change of a context, which may fail. -/
inductive Call where
  | declare (x : Var) (decl : VarDecl)
  | assign (x : Var) (t : Term)
  | assignDelayed (x pending : Var)
deriving DecidableEq, Repr

namespace Call

def attempt (m : Context) : Call → Except MetavarError Context
  | .declare x decl => m.declare x decl
  | .assign x t => m.assign x t
  | .assignDelayed x pending => m.assignDelayed x pending

/-- The context after a call; a call that fails changes nothing. -/
def perform (m : Context) (c : Call) : Context := (c.attempt m).toOption.getD m

def performAll (m : Context) (cs : List Call) : Context := cs.foldl perform m

/-- The variable assigned by a call and what it is assigned. -/
def target? : Call → Option (Var × Binding)
  | .declare .. => none
  | .assign x t => some (x, .value t)
  | .assignDelayed x pending => some (x, .delayed pending)

/-- An accepted call does not assign a variable that is among the open variables below the assigned
term. -/
def isChecked (m : Context) (c : Call) : Bool :=
  match c.target? with
  | some (x, b) => !((c.attempt m).isOk && decide (x ∈ m.openVars b.term))
  | none => true

/-- Every call of the list is checked in the context that it meets. -/
def areChecked : Context → List Call → Bool
  | _, [] => true
  | m, c :: cs => c.isChecked m && areChecked (perform m c) cs

theorem binding?_declare {d : VarDecl} (h : m.declare x d = .ok n) (y : Var) :
    n.binding? y = m.binding? y := by
  unfold Context.declare at h
  split at h
  · cases h
  · cases h
    exact binding?_declareFresh ..

/-- A call that assigns a variable gives an open variable its binding. -/
theorem attempt_target {c : Call} {b : Binding} (ht : c.target? = some (x, b))
    (h : c.attempt m = .ok n) : ∃ d, m.binding? x = none ∧ n = m.bind x d b := by
  have hopen {d : VarDecl} (hd : m.assignable x = .ok d) : m.binding? x = none :=
    (assignable_iff_open.1 hd).2
  cases c with
  | declare => cases ht
  | assign x t =>
    cases ht
    obtain ⟨d, hd, -, rfl⟩ := assign_eq_ok_iff.1 h
    exact ⟨d, hopen hd, rfl⟩
  | assignDelayed x p =>
    cases ht
    obtain ⟨d, hd, -, -, -, rfl⟩ := assignDelayed_eq_ok_iff.1 h
    exact ⟨d, hopen hd, rfl⟩

/-- What a call does to the bindings: nothing, or it gives an open variable its binding. -/
theorem perform_cases (m : Context) (c : Call) :
    (c.isChecked m = true ∧ ∀ y, (perform m c).binding? y = m.binding? y) ∨
      ∃ x b d, c.target? = some (x, b) ∧ m.binding? x = none ∧ perform m c = m.bind x d b ∧
        (c.isChecked m = true ↔ x ∉ m.openVars b.term) := by
  cases h : c.attempt m with
  | error e =>
    refine .inl ⟨?_, fun y => by simp [perform, h, Except.toOption]⟩
    unfold isChecked
    split <;> simp [h, Except.isOk, Except.toBool]
  | ok n =>
    have hperform : perform m c = n := by simp [perform, h, Except.toOption]
    cases ht : c.target? with
    | none =>
      refine .inl ⟨by simp [isChecked, ht], fun y => ?_⟩
      rw [hperform]
      cases c with
      | declare x d => exact binding?_declare h y
      | assign => cases ht
      | assignDelayed => cases ht
    | some p =>
      obtain ⟨x, b⟩ := p
      obtain ⟨d, hx, rfl⟩ := attempt_target ht h
      exact .inr ⟨x, b, d, rfl, hx, hperform, by simp [isChecked, ht, h, Except.isOk, Except.toBool]⟩

theorem extends_perform (m : Context) (c : Call) : m.Extends (perform m c) := by
  rcases perform_cases m c with ⟨-, hb⟩ | ⟨x, b, d, -, hx, hp, -⟩
  · exact fun y b hy => (hb y).trans hy
  · rw [hp]
    exact extends_bind hx d b

theorem extends_performAll (cs : List Call) : ∀ m : Context, m.Extends (performAll m cs) := by
  induction cs with
  | nil => exact fun m => .refl m
  | cons c cs ih => exact fun m => (extends_perform m c).trans (ih _)

/-- A call closes a cycle if and only if it is not checked. -/
theorem acyclic_perform_iff (hg : ∀ y, m.Grounded y) (c : Call) :
    ((perform m c).Acyclic ↔ c.isChecked m = true) ∧
      (c.isChecked m = true → ∀ y, (perform m c).Grounded y) := by
  rcases perform_cases m c with ⟨hc, hb⟩ | ⟨x, b, d, -, hx, hp, hc⟩
  · have hground (y : Var) : (perform m c).Grounded y :=
      (hg y).of_extends fun z b hz => (hb z).symm.trans hz
    exact ⟨⟨fun _ => hc, fun _ y => (hground y).not_refers_back⟩, fun _ => hground⟩
  · rw [hp, hc]
    exact acyclic_bind_iff hg hx

/-- A list of calls closes a cycle if and only if one of them is not checked. -/
theorem acyclic_performAll_iff (cs : List Call) : ∀ {m : Context}, (∀ y, m.Grounded y) →
    ((performAll m cs).Acyclic ↔ areChecked m cs = true) ∧
      (areChecked m cs = true → ∀ y, (performAll m cs).Grounded y) := by
  induction cs with
  | nil =>
    intro m hg
    exact ⟨⟨fun _ => rfl, fun _ y => (hg y).not_refers_back⟩, fun _ => hg⟩
  | cons c cs ih =>
    intro m hg
    obtain ⟨hac, hground⟩ := acyclic_perform_iff hg c
    have hcons : areChecked m (c :: cs) = true ↔
        c.isChecked m = true ∧ areChecked (perform m c) cs = true := Bool.and_eq_true_iff
    rw [hcons]
    by_cases hc : c.isChecked m = true
    · obtain ⟨hac', hground'⟩ := ih (hground hc)
      exact ⟨⟨fun h => ⟨hc, hac'.1 h⟩, fun h => hac'.2 h.2⟩, fun h => hground' h.2⟩
    · -- a cycle stays whatever calls follow
      refine ⟨⟨fun h => ?_, fun h => (hc h.1).elim⟩, fun h => (hc h.1).elim⟩
      exact (hc (hac.1 (h.of_extends (extends_performAll cs _)))).elim

/-- Calls on the empty context that all pass the check close no cycle. -/
theorem acyclic_of_checked {cs : List Call} (h : areChecked .empty cs = true) :
    (performAll .empty cs).Acyclic :=
  (acyclic_performAll_iff cs fun _ => grounded_of_open rfl).1.2 h

/-! ## Contexts without delayed variables -/

/-- Without delayed variables the occurs check sees all open variables below a term. -/
theorem not_mem_openVars (hg : ∀ y, m.Grounded y)
    (hd : ∀ y p, m.binding? y ≠ some (.delayed p)) (ho : (m.instantiate t).occurs x = false) :
    x ∉ m.openVars t := by
  intro hmem
  obtain ⟨hx, y, hy, hr⟩ := (mem_openVars hg).1 hmem
  obtain ⟨z, hz, hzx⟩ := (hg y).exists_occurs hr hx
  have hopen : m.binding? z = none := by
    cases hb : m.binding? z with
    | none => rfl
    | some b =>
      cases b with
      | value u => exact (((hg y).of_occurs hz).2 u hb).elim
      | delayed p => exact (hd z p hb).elim
  obtain rfl := hzx.eq_of_open hopen
  rw [occurs_instantiate.2 ⟨y, hy, hz⟩] at ho
  cases ho

theorem areChecked_of_direct (cs : List Call) : ∀ {m : Context}, (∀ y, m.Grounded y) →
    (∀ y p, m.binding? y ≠ some (.delayed p)) → (∀ y p, .assignDelayed y p ∉ cs) →
    areChecked m cs = true := by
  induction cs with
  | nil => intros; rfl
  | cons c cs ih =>
    intro m hg hd hcs
    have hchecked : c.isChecked m = true := by
      cases c with
      | declare => rfl
      | assign x t =>
        cases h : m.assign x t with
        | error e => simp [isChecked, target?, attempt, h, Except.isOk, Except.toBool]
        | ok n =>
          obtain ⟨d, -, ho, -⟩ := assign_eq_ok_iff.1 h
          have hnot := not_mem_openVars hg hd ho
          simp [isChecked, target?, attempt, h, Except.isOk, Except.toBool, Binding.term, hnot]
      | assignDelayed x p => exact (hcs x p List.mem_cons_self).elim
    refine Bool.and_eq_true_iff.2 ⟨hchecked, ih ((acyclic_perform_iff hg c).2 hchecked) ?_
      fun y p hmem => hcs y p (List.mem_cons_of_mem c hmem)⟩
    intro y p
    rcases perform_cases m c with ⟨-, hb⟩ | ⟨x, b, d, ht, -, hp, -⟩
    · rw [hb]
      exact hd y p
    · rw [hp, binding?_bind]
      split
      · rintro hbind
        cases hbind
        cases c with
        | declare => cases ht
        | assign => cases ht
        | assignDelayed x p => exact hcs x p List.mem_cons_self
      · exact hd y p

end Call

open Call in
/-- After any calls on the empty context there is no cycle of references if and only if every
accepted assignment was checked against the open variables below the assigned term.  Without delayed
assignments this is always so.  Following bindings ends for all variables exactly if there is no
cycle, and then instantiation and the collection of open variables need no more fuel than there are
variables. -/
theorem acyclic_iff_checked (cs : List Call) :
    ((performAll .empty cs).Acyclic ↔ areChecked .empty cs = true) ∧
      ((∀ x p, .assignDelayed x p ∉ cs) → (performAll .empty cs).Acyclic) ∧
      ((performAll .empty cs).Acyclic ↔ ∀ x, ∃ u, (performAll .empty cs).Follows x u) ∧
      ((performAll .empty cs).Acyclic → ∀ t k, (performAll .empty cs).size ≤ k →
        t.subst ((performAll .empty cs).resolve k) = (performAll .empty cs).instantiate t ∧
        (performAll .empty cs).openBelow k ((performAll .empty cs).instantiate t) =
          (performAll .empty cs).openVars t) := by
  have hempty (x : Var) : Context.empty.binding? x = none := rfl
  have hg (x : Var) : Context.empty.Grounded x := grounded_of_open (hempty x)
  obtain ⟨hac, hground⟩ := acyclic_performAll_iff cs hg
  refine ⟨hac, fun hdirect => ?_, ⟨fun h x => ?_, fun h x => ?_⟩, fun h t k hk => ?_⟩
  · refine hac.2 (areChecked_of_direct cs hg (fun x p hp => ?_) hdirect)
    exact nomatch (hempty x).symm.trans hp
  · exact ⟨_, (hground (hac.1 h) x).follows⟩
  · obtain ⟨u, hu⟩ := h x
    exact hu.grounded.not_refers_back
  · exact ⟨resolve_stable (hground (hac.1 h)) hk, openBelow_stable (hground (hac.1 h)) hk⟩

/-- Two variables of which the first waits for the second; then the second is assigned the first.
All calls are accepted. -/
def Call.crossing : List Call := [
  .declare ⟨1⟩ ⟨.const "T", [], none⟩,
  .declare ⟨2⟩ ⟨.const "T", [], none⟩,
  .assignDelayed ⟨1⟩ ⟨2⟩,
  .assign ⟨2⟩ (.var ⟨1⟩)]

/-- The occurs check accepts an assignment through a waiting variable that closes a cycle. -/
theorem delayed_cycle : (Call.performAll .empty Call.crossing).isAssigned ⟨2⟩ = true ∧
    ¬ (Call.performAll .empty Call.crossing).Acyclic ∧
    ∀ u, ¬ (Call.performAll .empty Call.crossing).Follows ⟨1⟩ u := by
  obtain ⟨m, hm⟩ : ∃ m, m = Call.performAll .empty Call.crossing := ⟨_, rfl⟩
  have h1 : m.binding? ⟨1⟩ = some (.delayed ⟨2⟩) := by rw [hm]; decide
  have h2 : m.binding? ⟨2⟩ = some (.value (.var ⟨1⟩)) := by rw [hm]; decide
  have hcycle : Relation.TransGen m.Refers ⟨1⟩ ⟨1⟩ :=
    .tail (.single (.inr h1)) (.inl ⟨_, h2, by simp [Term.occurs]⟩)
  rw [← hm]
  exact ⟨by rw [isAssigned, h2]; rfl, fun h => h _ hcycle,
    fun u hu => hu.grounded.not_refers_back hcycle⟩

end Context

end ProofSearch
