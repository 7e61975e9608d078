import ProofSearch.Answer.Proof
import ProofSearch.Proofs.Derivation.Recorded

/-!
# The sources of a proof

A proof is copied from states that were recorded on different branches of the tree.

1. `Tree.Contributes`, `Tree.Source`: the goals whose proofs are copied, and the states these proofs
   are copied from.
2. `Tree.Ordered`: no variable leads back to itself through values and types, not even from one
   source to the next.
3. `Tree.Covered`: what a source leaves open is the variable of a goal whose proof is copied, or is
   assigned by an application that is copied.
4. `Assembled`: a context put together from recorded states.  `Assembled.closed` says that in a
   covered tree a context put together from the sources gives the root a closed value.
-/

namespace ProofSearch

/-! ## Sources -/

namespace Tree

/-- The goals whose proofs become part of the proof of the root: below a goal, one goal of each
cluster of its first proven application. -/
inductive Contributes (t : Tree) : GoalId → Prop
  | root : t.Contributes Tree.root
  | member {g k : GoalId} {x : Var} {post : Snapshot} {r : ApplicationId} {c : ClusterId} :
      t.Contributes g → (t.goal g).norm = .normal x post →
      ((t.goal g).applications.find? fun r => (t.application r).state.isProven) = some r →
      c ∈ (t.application r).clusters →
      ((t.cluster c).goals.find? fun g => (t.goal g).state.isProven) = some k → t.Contributes k

/-- The recorded states that the proof of the root is copied from. -/
inductive Source (t : Tree) : Snapshot → Prop
  | start : t.Source t.rootState
  | norm {g : GoalId} {post : Snapshot} : t.Contributes g → (t.goal g).normPost? = some post →
      t.Source post
  | applied {g : GoalId} {x : Var} {post : Snapshot} {r : ApplicationId} :
      t.Contributes g → (t.goal g).norm = .normal x post →
      ((t.goal g).applications.find? fun r => (t.application r).state.isProven) = some r →
      t.Source (t.application r).post

/-- In some source the value or the type of `x` mentions `y`. -/
def Mentions (t : Tree) (x y : Var) : Prop := ∃ m, t.Source m ∧
  ((∃ v, m.context.binding? x = some (.value v) ∧ v.occurs y = true) ∨
    ∃ d, m.context.decl? x = some d ∧ d.type.occurs y = true)

/-- The number of every variable in `own` is above the numbers of those it mentions. -/
def Ranks (t : Tree) (own : Var → Prop) (rank : Var → Nat) : Prop :=
  ∀ x y, own x → t.Mentions x y → rank y < rank x

/-- No variable in `own` leads back to itself. -/
def Ordered (t : Tree) (own : Var → Prop) : Prop := ∃ rank, t.Ranks own rank

/-- The variable of the goal `g` is `y`, or the application through which `g` is proven assigns
`y`. -/
def GoalSupplies (t : Tree) (g : GoalId) (y : Var) : Prop :=
  (t.goal g).var = y ∨ ∃ x post r, (t.goal g).norm = .normal x post ∧
    ((t.goal g).applications.find? fun r => (t.application r).state.isProven) = some r ∧
    y ∈ (t.application r).assigned

/-- The proof of a contributing goal comes with a value for the variable. -/
def Supplies (t : Tree) (y : Var) : Prop := ∃ g, t.Contributes g ∧ t.GoalSupplies g y

/-- The variables that the sources can bring into the proof of the root. -/
inductive InProof (t : Tree) : Var → Prop
  | root : t.InProof (t.goal Tree.root).var
  | value {m : Snapshot} {x y : Var} {v : Term} : t.InProof x → t.Source m →
      m.context.binding? x = some (.value v) → v.occurs y = true → t.InProof y

/-- A variable in the proof that a source mentions and leaves open is supplied. -/
def Covered (t : Tree) : Prop := ∀ m x v y, t.InProof x → t.Source m →
  m.context.binding? x = some (.value v) → v.occurs y = true → m.context.isAssigned y = false →
  t.Supplies y

end Tree

variable {P : Problem} {L : Ledger} {t : Tree}

theorem Recorded.source (h : Recorded P L t) {m : Snapshot} (hm : t.Source m) :
    Conforms P L m.context := by
  cases hm with
  | start => exact h.root
  | norm _ hpost => exact (h.goal _).post _ hpost
  | applied => exact h.post _

theorem Tree.Contributes.hasGoal {g : GoalId} (h : t.Contributes g) (hroot : t.HasGoal Tree.root) :
    t.HasGoal g := by
  cases h with
  | root => exact hroot
  | member _ _ _ _ hk =>
    by_contra hg
    have hproven := List.find?_some hk
    rw [Tree.goal_of_not_has hg] at hproven
    cases hproven

/-! ## Assembled contexts -/

/-- In every state in `S`, values and types of variables in `own` mention variables of lower
numbers. -/
def Ranked (S : Snapshot → Prop) (own : Var → Prop) (rank : Var → Nat) : Prop :=
  ∀ m x y, S m → own x → ((∃ v, m.context.binding? x = some (.value v) ∧ v.occurs y = true) ∨
    ∃ d, m.context.decl? x = some d ∧ d.type.occurs y = true) → rank y < rank x

theorem Tree.ranks_iff {own : Var → Prop} {rank : Var → Nat} :
    t.Ranks own rank ↔ Ranked t.Source own rank :=
  ⟨fun h m x y hm ho hxy => h x y ho ⟨m, hm, hxy⟩,
    fun h x y ho ⟨m, hm, hxy⟩ => h m x y hm ho hxy⟩

/-- The variables of the search are bound as in some state in `S`, and what that state binds of a
value's variables is bound as well. -/
structure Assembled (P : Problem) (S : Snapshot → Prop) (f : Context) : Prop where
  plain : ∀ x, P.Own x → f.Plain x
  value : ∀ x b, P.Own x → f.binding? x = some b → ∃ m v, S m ∧ b = .value v ∧
    m.context.binding? x = some (.value v) ∧
    ∀ y, v.occurs y = true → m.context.isAssigned y = true → f.isAssigned y = true

namespace Assembled

variable {S : Snapshot → Prop} {f n : Context} {x : Var}

/-- A conforming context is assembled from itself. -/
theorem of_conforms {m : Snapshot} (hc : Conforms P L m.context) (hm : S m) :
    Assembled P S m.context := by
  refine ⟨hc.plain, fun x b ho hb => ?_⟩
  obtain ⟨v, rfl, -⟩ := hc.value x b ho hb
  exact ⟨m, v, hm, rfl, hb, fun _ _ => id⟩

theorem binding (h : Assembled P S f) (x : Var) (b : Binding) (ho : P.Own x)
    (hb : f.binding? x = some b) : ∃ m, S m ∧ m.context.binding? x = some b := by
  obtain ⟨m, v, hm, rfl, hmv, -⟩ := h.value x b ho hb
  exact ⟨m, hm, hmv⟩

theorem congr (h : Assembled P S f) (hb : ∀ y, n.binding? y = f.binding? y) :
    Assembled P S n := by
  refine ⟨fun y hy => (h.plain y hy).congr hb, fun y b hy hn => ?_⟩
  obtain ⟨m, v, hm, rfl, hmv, hall⟩ := h.value y b hy ((hb y).symm.trans hn)
  exact ⟨m, v, hm, rfl, hmv, fun z hz hmz => by rw [Context.isAssigned, hb]; exact hall z hz hmz⟩

/-- A binding of a state is copied after what it mentions. -/
theorem assign {m : Snapshot} {v : Term} (h : Assembled P S f) (hm : S m)
    (hc : Conforms P L m.context) (ho : P.Own x) (hb : m.context.binding? x = some (.value v))
    (hv : ∀ y, v.occurs y = true → m.context.isAssigned y = true → f.isAssigned y = true)
    (ha : f.assign x v = .ok n) : Assembled P S n := by
  obtain ⟨u, hu, hfit⟩ := hc.value x _ ho hb
  cases hu
  have hbinds : Context.Binds P.Own f n := Context.binds_assign ha
    (fun y hy => h.plain y (hfit.own hy)) ho fun y hy => hfit.own hy
  have hkeeps {y : Var} (hy : f.isAssigned y = true) : n.isAssigned y = true := by
    obtain ⟨c, hc⟩ := Option.isSome_iff_exists.1 hy
    exact Option.isSome_iff_exists.2 ⟨c, hbinds.extension y c hc⟩
  refine ⟨fun y hy => hbinds.plain y (h.plain y hy), fun y b hy hn => ?_⟩
  by_cases hyx : y = x
  · subst hyx
    rw [(Context.binding?_of_assign ha).2] at hn
    cases hn
    exact ⟨m, v, hm, rfl, hb, fun z hz hmz => hkeeps (hv z hz hmz)⟩
  · obtain ⟨d, -, -, rfl⟩ := Context.assign_eq_ok_iff.1 ha
    rw [Context.binding?_bind, if_neg hyx] at hn
    obtain ⟨m', v', hm', rfl, hmv, hall⟩ := h.value y b hy hn
    exact ⟨m', v', hm', rfl, hmv, fun z hz hmz => hkeeps (hall z hz hmz)⟩

/-- The value of a variable mentions variables of its own rank or below. -/
theorem rank_le (h : Assembled P S f) (hS : ∀ m, S m → Conforms P L m.context) {rank : Var → Nat}
    (hrank : Ranked S P.Own rank) (ho : P.Own x) {z : Var}
    (hz : (f.instantiate (.var x)).occurs z = true) : rank z ≤ rank x := by
  induction h.plain x ho with
  | @unbound x hb =>
    rw [Context.instantiate_open hb] at hz
    obtain rfl : x = z := by simpa [Term.occurs] using hz
    exact le_rfl
  | @value x v hb hall ih =>
    rw [(Context.Plain.value hb hall).instantiate_eq hb, Context.occurs_instantiate] at hz
    obtain ⟨y, hy, hyz⟩ := hz
    obtain ⟨m, u, hm, hu, hmu, -⟩ := h.value x _ ho hb
    cases hu
    obtain ⟨u, hu, hfit⟩ := (hS m hm).value x _ ho hmu
    cases hu
    exact (ih y hy (hfit.own hy) hyz).trans (hrank m x y hm ho (.inl ⟨v, hmu, hy⟩)).le

/-- In a covered tree the root has a closed value, once all that is supplied is assigned. -/
theorem closed (h : Assembled P t.Source f) (hr : Recorded P L t) (hcov : t.Covered)
    (hsup : ∀ y, t.Supplies y → f.isAssigned y = true) :
    (f.instantiate (.var P.root)).hasVar = false := by
  have hall {x : Var} (ho : P.Own x) (hx : t.InProof x) (ha : f.isAssigned x = true) :
      (f.instantiate (.var x)).hasVar = false := by
    induction h.plain x ho with
    | @unbound x hb =>
      rw [Context.isAssigned, hb] at ha
      cases ha
    | @value x v hb hplain ih =>
      rw [(Context.Plain.value hb hplain).instantiate_eq hb]
      obtain ⟨m, u, hm, hu, hmu, hmore⟩ := h.value x _ ho hb
      cases hu
      obtain ⟨u, hu, hfit⟩ := (hr.source hm).value x _ ho hmu
      cases hu
      refine Term.hasVar_eq_false.2 fun z => ?_
      by_contra hz
      obtain ⟨y, hy, hyz⟩ := Context.occurs_instantiate.1 (by simpa using hz)
      -- a variable of the value is bound in the source or supplied elsewhere
      have hassigned : f.isAssigned y = true := by
        cases hmy : m.context.isAssigned y with
        | true => exact hmore y hy hmy
        | false => exact hsup y (hcov m x v y hx hm hmu hy hmy)
      have hclosed := ih y hy (hfit.own hy) (hx.value hm hmu hy) hassigned
      rw [Term.hasVar_eq_false.1 hclosed z] at hyz
      cases hyz
  rw [← hr.rootVar]
  exact hall (hr.rootVar ▸ .inl rfl) .root (hsup _ ⟨Tree.root, .root, .inl rfl⟩)

end Assembled

end ProofSearch
