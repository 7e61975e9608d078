import Mathlib.Logic.Relation
import ProofSearch.Proofs.Derivation.Ledger
import ProofSearch.Proofs.AndOr.Relevance

/-!
# The order of recorded states

A tree records a state at its start, after the normalization of a goal and after a rule application.
Each of them was made from the one before.

1. `Chart`: contexts at stages, with the stage before each.
2. `Chart.First`: the stage at which something becomes true.  `Chart.Path.exists_first` says that
   there is such a stage on the way to any stage at which it is true.
3. `Chart.Sound`: later contexts extend earlier ones, and a variable of the search is declared for
   the first time at one stage only.
4. `Chart.Sound.add`: a chart stays sound when a stage is added whose new variables occur nowhere
   else.
-/

namespace ProofSearch

/-- A point of a search at which a state is recorded. -/
inductive Stage where
  | start
  | normal (g : GoalId)
  | applied (r : ApplicationId)
deriving DecidableEq

/-- The contexts recorded at stages, and the stage that each was made from. -/
structure Chart where
  at? : Stage → Option Context
  before? : Stage → Option Stage

namespace Chart

section

variable (C : Chart)

/-- The stage `τ` was made from `σ`, directly or through others. -/
def Leads : Stage → Stage → Prop := Relation.ReflTransGen fun σ τ => C.before? τ = some σ

/-- The way to a stage with its context. -/
inductive Path : Stage → Context → Prop
  | start {m : Context} : C.at? .start = some m → C.before? .start = none → Path .start m
  | next {σ τ : Stage} {m n : Context} : Path σ m → C.before? τ = some σ → C.at? τ = some n →
      Path τ n

/-- The context at `τ` has the property, and the one before has not. -/
def First (φ : Context → Prop) (τ : Stage) : Prop := ∃ n, C.at? τ = some n ∧ φ n ∧
  ∀ σ m, C.before? τ = some σ → C.at? σ = some m → ¬ φ m

/-- Declarations and bindings are kept from stage to stage, and a variable of the search is declared
for the first time at one stage only. -/
structure Sound (P : Problem) : Prop where
  path : ∀ τ n, C.at? τ = some n → C.Path τ n
  decl : ∀ σ τ m n, C.before? τ = some σ → C.at? σ = some m → C.at? τ = some n →
    ∀ y d, m.decl? y = some d → n.decl? y = some d
  extension : ∀ σ τ m n, C.before? τ = some σ → C.at? σ = some m → C.at? τ = some n → m.Extends n
  birth : ∀ y β γ, P.Own y → C.First (·.isDeclared y = true) β → C.First (·.isDeclared y = true) γ →
    β = γ

end

variable {C C' : Chart} {P : Problem} {σ τ β : Stage} {m n : Context} {y : Var}

namespace Path

theorem at_eq (h : C.Path τ n) : C.at? τ = some n := by
  cases h with
  | start h | next _ _ h => exact h

/-- The stage before is on the way. -/
theorem before (h : C.Path τ n) (hb : C.before? τ = some σ) : ∃ m, C.Path σ m := by
  cases h with
  | start _ hnone => exact nomatch hnone.symm.trans hb
  | @next σ' _ m _ hpath hb' =>
    obtain rfl : σ' = σ := Option.some.inj (hb'.symm.trans hb)
    exact ⟨m, hpath⟩

/-- What is true at a stage became true at some stage on the way. -/
theorem exists_first {φ : Context → Prop} (h : C.Path τ n) (hn : φ n) :
    ∃ β, C.Leads β τ ∧ C.First φ β := by
  induction h with
  | start h hb => exact ⟨.start, .refl, _, h, hn, fun σ m hσ => nomatch hb.symm.trans hσ⟩
  | @next σ τ m n hpath hb h ih =>
    by_cases hm : φ m
    · obtain ⟨β, hβ, hfirst⟩ := ih hm
      exact ⟨β, hβ.tail hb, hfirst⟩
    · refine ⟨τ, .refl, n, h, hn, fun σ' m' hσ hm' => ?_⟩
      obtain rfl : σ = σ' := Option.some.inj (hb.symm.trans hσ)
      obtain rfl : m = m' := Option.some.inj (hpath.at_eq.symm.trans hm')
      exact hm

end Path

namespace Sound

/-- Declarations and bindings are kept along every way. -/
theorem leads (h : C.Sound P) (hl : C.Leads σ τ) (hm : C.at? σ = some m) (hn : C.at? τ = some n) :
    (∀ y d, m.decl? y = some d → n.decl? y = some d) ∧ m.Extends n := by
  induction hl generalizing n with
  | refl =>
    obtain rfl : m = n := Option.some.inj (hm.symm.trans hn)
    exact ⟨fun _ _ => id, .refl m⟩
  | @tail ρ τ _ hb ih =>
    obtain ⟨k, hk⟩ := (h.path τ n hn).before hb
    obtain ⟨hdecl, hext⟩ := ih hk.at_eq
    exact ⟨fun y d hd => h.decl ρ τ k n hb hk.at_eq hn y d (hdecl y d hd),
      hext.trans (h.extension ρ τ k n hb hk.at_eq hn)⟩

/-- A variable is declared only after the stage at which it was made. -/
theorem leads_of_declared (h : C.Sound P) (ho : P.Own y)
    (hβ : C.First (·.isDeclared y = true) β) (hn : C.at? τ = some n)
    (hy : n.isDeclared y = true) : C.Leads β τ := by
  obtain ⟨γ, hγ, hfirst⟩ :=
    (h.path τ n hn).exists_first (φ := fun k => k.isDeclared y = true) hy
  rwa [h.birth y β γ ho hβ hfirst]

end Sound

/-! ## One more stage -/

/-- `C'` is `C` with the context `n` at the stage `τ`, made from `σ`. -/
structure Adds (C : Chart) (σ τ : Stage) (n : Context) (C' : Chart) : Prop where
  absent : C.at? τ = none
  new : C'.at? τ = some n
  old : ∀ ρ, ρ ≠ τ → C'.at? ρ = C.at? ρ
  before_new : C'.before? τ = some σ
  before_old : ∀ ρ k, C.at? ρ = some k → C'.before? ρ = C.before? ρ

namespace Adds

variable {k : Context}

theorem ne (h : Adds C σ τ n C') {ρ : Stage} (hρ : C.at? ρ = some k) : ρ ≠ τ := by
  rintro rfl
  exact nomatch h.absent.symm.trans hρ

theorem at_old (h : Adds C σ τ n C') {ρ : Stage} (hρ : C.at? ρ = some k) : C'.at? ρ = some k :=
  (h.old ρ (h.ne hρ)).trans hρ

theorem path (h : Adds C σ τ n C') {ρ : Stage} (hp : C.Path ρ k) : C'.Path ρ k := by
  induction hp with
  | start hat hb => exact .start (h.at_old hat) ((h.before_old _ _ hat).trans hb)
  | next _ hb hat ih => exact .next ih ((h.before_old _ _ hat).trans hb) (h.at_old hat)

/-- At an old stage all is as it was, also with regard to the stage before. -/
theorem before (h : Adds C σ τ n C') (hs : C.Sound P) {ρ ρ' : Stage} {k' : Context} (hne : ρ' ≠ τ)
    (hk' : C'.at? ρ' = some k') (hb : C'.before? ρ' = some ρ) (hk : C'.at? ρ = some k) :
    C.at? ρ' = some k' ∧ C.before? ρ' = some ρ ∧ C.at? ρ = some k := by
  rw [h.old ρ' hne] at hk'
  rw [h.before_old ρ' k' hk'] at hb
  obtain ⟨l, hl⟩ := (hs.path ρ' k' hk').before hb
  rw [h.at_old hl.at_eq] at hk
  exact ⟨hk', hb, Option.some.inj hk ▸ hl.at_eq⟩

theorem first (h : Adds C σ τ n C') {φ : Context → Prop} {ρ : Stage} (hne : ρ ≠ τ)
    (hf : C'.First φ ρ) : C.First φ ρ := by
  obtain ⟨k, hk, hφ, hbefore⟩ := hf
  rw [h.old ρ hne] at hk
  refine ⟨k, hk, hφ, fun π l hπ hl => hbefore π l ((h.before_old ρ k hk).trans hπ) (h.at_old hl)⟩

end Adds

/-- A chart stays sound if the new variables of the new stage occur nowhere else. -/
theorem Sound.add (hs : C.Sound P) (h : Adds C σ τ n C') (hm : C.at? σ = some m)
    (hdecl : ∀ y d, m.decl? y = some d → n.decl? y = some d) (hext : m.Extends n)
    (hfresh : ∀ y, P.Own y → n.isDeclared y = true → m.isDeclared y = false →
      ∀ ρ k, C.at? ρ = some k → k.isDeclared y = false) : C'.Sound P := by
  have hnew {ρ : Stage} {k : Context} (hb : C'.before? τ = some ρ) (hk : C'.at? ρ = some k) :
      k = m := by
    obtain rfl : σ = ρ := Option.some.inj (h.before_new.symm.trans hb)
    exact Option.some.inj (hk.symm.trans (h.at_old hm))
  -- What is new at the new stage was not there before.
  have hborn {y : Var} (ho : P.Own y) {γ : Stage} (hne : γ ≠ τ)
      (hτ : C'.First (·.isDeclared y = true) τ) (hγ : C'.First (·.isDeclared y = true) γ) :
      False := by
    obtain ⟨k, hk, hky, hbefore⟩ := hτ
    obtain rfl : n = k := Option.some.inj (h.new.symm.trans hk)
    obtain ⟨l, hl, hly, -⟩ := h.first hne hγ
    have hmy := (Bool.not_eq_true _).mp (hbefore σ m h.before_new (h.at_old hm))
    exact nomatch hly.symm.trans (hfresh y ho hky hmy γ l hl)
  refine ⟨fun ρ k hk => ?_, fun ρ ρ' k k' hb hk hk' => ?_, fun ρ ρ' k k' hb hk hk' => ?_,
    fun y β γ ho hβ hγ => ?_⟩
  · by_cases hρ : ρ = τ
    · subst hρ
      exact .next (h.path (hs.path σ m hm)) h.before_new hk
    · exact h.path (hs.path ρ k ((h.old ρ hρ).symm.trans hk))
  · by_cases hρ : ρ' = τ
    · subst hρ
      obtain rfl := hnew hb hk
      obtain rfl : n = k' := Option.some.inj (h.new.symm.trans hk')
      exact hdecl
    · obtain ⟨hk', hb, hk⟩ := h.before hs hρ hk' hb hk
      exact hs.decl ρ ρ' k k' hb hk hk'
  · by_cases hρ : ρ' = τ
    · subst hρ
      obtain rfl := hnew hb hk
      obtain rfl : n = k' := Option.some.inj (h.new.symm.trans hk')
      exact hext
    · obtain ⟨hk', hb, hk⟩ := h.before hs hρ hk' hb hk
      exact hs.extension ρ ρ' k k' hb hk hk'
  · by_cases hβτ : β = τ
    · subst hβτ
      by_contra hne
      exact hborn ho (Ne.symm hne) hβ hγ
    · by_cases hγτ : γ = τ
      · subst hγτ
        exact (hborn ho hβτ hγ hβ).elim
      · exact hs.birth y β γ ho (h.first hβτ hβ) (h.first hγτ hγ)

end Chart

end ProofSearch
