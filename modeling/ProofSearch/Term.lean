import ProofSearch.Var

/-!
# Terms

First-order syntax shared by the types of goals and by their proofs.  A term is a constant, a
reference to a hypothesis, a metavariable or a symbol applied to arguments.  The search attaches no
meaning to terms: to close a goal is to give its metavariable a term.
-/

namespace ProofSearch

inductive Term where
  | const (name : String)
  | hyp (name : String)
  | var (id : Var)
  | app (head : String) (args : List Term)
deriving Repr, Inhabited

namespace Term

/-! ## Equality -/

mutual
def decEq : (s t : Term) → Decidable (s = t)
  | .const a, .const b | .hyp a, .hyp b => decidable_of_iff (a = b) (by simp)
  | .var x, .var y => decidable_of_iff (x = y) (by simp)
  | .app f xs, .app g ys =>
    match decEqList xs ys with
    | isTrue h => decidable_of_iff (f = g) (by simp [h])
    | isFalse h => isFalse (by simp [h])
  | .const _, .hyp _ | .const _, .var _ | .const _, .app .. => isFalse nofun
  | .hyp _, .const _ | .hyp _, .var _ | .hyp _, .app .. => isFalse nofun
  | .var _, .const _ | .var _, .hyp _ | .var _, .app .. => isFalse nofun
  | .app .., .const _ | .app .., .hyp _ | .app .., .var _ => isFalse nofun

def decEqList : (ss ts : List Term) → Decidable (ss = ts)
  | [], [] => isTrue rfl
  | [], _ :: _ | _ :: _, [] => isFalse nofun
  | s :: ss, t :: ts =>
    match decEq s t with
    | isTrue h => match decEqList ss ts with
      | isTrue h' => isTrue (by simp [h, h'])
      | isFalse h' => isFalse (by simp [h'])
    | isFalse h => isFalse (by simp [h])
end

instance : DecidableEq Term := decEq

/-! ## Shape -/

/-- A symbol with arguments; without any it is a constant. -/
def apply (head : String) : List Term → Term
  | [] => .const head
  | args => .app head args

/-- The symbol under which rules are indexed. -/
def head? : Term → Option String
  | .const name | .app name _ => some name
  | .hyp _ | .var _ => none

def args : Term → List Term
  | .app _ args => args
  | _ => []

mutual
/-- The number of symbols and variables, counted with repetition. -/
def size : Term → Nat
  | .const _ | .hyp _ | .var _ => 1
  | .app _ args => 1 + sizeList args

def sizeList : List Term → Nat
  | [] => 0
  | t :: ts => size t + sizeList ts
end

theorem size_pos (t : Term) : 0 < t.size := by
  cases t <;> simp only [size] <;> omega

/-! ## Metavariables -/

mutual
/-- The metavariables of a term as they occur from left to right. -/
def occurrences : Term → List Var
  | .const _ | .hyp _ => []
  | .var x => [x]
  | .app _ args => occurrencesList args

def occurrencesList : List Term → List Var
  | [] => []
  | t :: ts => occurrences t ++ occurrencesList ts
end

/-- The metavariables that occur in a term. -/
def vars (t : Term) : VarSet := .ofList t.occurrences

mutual
def hasVar : Term → Bool
  | .const _ | .hyp _ => false
  | .var _ => true
  | .app _ args => hasVarList args

def hasVarList : List Term → Bool
  | [] => false
  | t :: ts => hasVar t || hasVarList ts
end

mutual
/-- Whether the metavariable `x` occurs. -/
def occurs (x : Var) : Term → Bool
  | .const _ | .hyp _ => false
  | .var y => decide (y = x)
  | .app _ args => occursList x args

def occursList (x : Var) : List Term → Bool
  | [] => false
  | t :: ts => occurs x t || occursList x ts
end

mutual
/-- Puts a term in the place of every metavariable. -/
def subst (σ : Var → Term) : Term → Term
  | .const name => .const name
  | .hyp name => .hyp name
  | .var x => σ x
  | .app head args => .app head (substList σ args)

def substList (σ : Var → Term) : List Term → List Term
  | [] => []
  | t :: ts => subst σ t :: substList σ ts
end

mutual
/-- Puts a term in the place of every hypothesis that `σ` knows. -/
def substHyps (σ : String → Option Term) : Term → Term
  | .const name => .const name
  | .hyp name => (σ name).getD (.hyp name)
  | .var x => .var x
  | .app head args => .app head (substHypsList σ args)

def substHypsList (σ : String → Option Term) : List Term → List Term
  | [] => []
  | t :: ts => substHyps σ t :: substHypsList σ ts
end

/-! ## Laws -/

/-- Induction on terms: what holds of all arguments holds of the application. -/
theorem ind {motive : Term → Prop} (const : ∀ name, motive (.const name))
    (hyp : ∀ name, motive (.hyp name)) (var : ∀ x, motive (.var x))
    (app : ∀ head args, (∀ t ∈ args, motive t) → motive (.app head args)) (t : Term) : motive t :=
  @Term.rec motive (fun ts => ∀ t ∈ ts, motive t) const hyp var app nofun
    (fun _ _ ht hts _ h => match List.mem_cons.1 h with
      | .inl h => h ▸ ht
      | .inr h => hts _ h) t

theorem substList_eq_map (σ : Var → Term) (ts : List Term) :
    substList σ ts = ts.map (subst σ) := by
  induction ts with
  | nil => rfl
  | cons t ts ih => simp [substList, ih]

theorem mem_occurrencesList {x : Var} {ts : List Term} :
    x ∈ occurrencesList ts ↔ ∃ t ∈ ts, x ∈ t.occurrences := by
  induction ts with
  | nil => simp [occurrencesList]
  | cons t ts ih => simp [occurrencesList, ih]

theorem occursList_iff {x : Var} {ts : List Term} :
    occursList x ts = true ↔ ∃ t ∈ ts, t.occurs x = true := by
  induction ts with
  | nil => simp [occursList]
  | cons t ts ih => simp [occursList, ih]

theorem hasVarList_iff {ts : List Term} : hasVarList ts = true ↔ ∃ t ∈ ts, t.hasVar = true := by
  induction ts with
  | nil => simp [hasVarList]
  | cons t ts ih => simp [hasVarList, ih]

theorem mem_occurrences {x : Var} {t : Term} : x ∈ t.occurrences ↔ t.occurs x = true := by
  induction t using ind with
  | const | hyp => simp [occurrences, occurs]
  | var y => simp [occurrences, occurs, eq_comm]
  | app head args ih =>
    simp only [occurrences, occurs, mem_occurrencesList, occursList_iff]
    constructor
    · rintro ⟨t, ht, hx⟩
      exact ⟨t, ht, (ih t ht).1 hx⟩
    · rintro ⟨t, ht, hx⟩
      exact ⟨t, ht, (ih t ht).2 hx⟩

@[simp] theorem mem_vars {x : Var} {t : Term} : x ∈ t.vars ↔ t.occurs x = true := by
  rw [vars, VarSet.mem_ofList, mem_occurrences]

theorem hasVar_iff {t : Term} : t.hasVar = true ↔ ∃ x, t.occurs x = true := by
  induction t using ind with
  | const | hyp => simp [hasVar, occurs]
  | var y => simp [hasVar, occurs]
  | app head args ih =>
    simp only [hasVar, occurs, hasVarList_iff, occursList_iff]
    constructor
    · rintro ⟨t, ht, h⟩
      obtain ⟨x, hx⟩ := (ih t ht).1 h
      exact ⟨x, t, ht, hx⟩
    · rintro ⟨x, t, ht, hx⟩
      exact ⟨t, ht, (ih t ht).2 ⟨x, hx⟩⟩

/-- Substitutions that agree on the variables of a term give the same result. -/
theorem subst_congr {σ τ : Var → Term} {t : Term} (h : ∀ x, t.occurs x = true → σ x = τ x) :
    t.subst σ = t.subst τ := by
  induction t using ind with
  | const | hyp => rfl
  | var y => exact h y (by simp [occurs])
  | app head args ih =>
    simp only [subst, substList_eq_map]
    congr 1
    refine List.map_congr_left fun t ht => ih t ht fun x hx => h x ?_
    simp only [occurs, occursList_iff]
    exact ⟨t, ht, hx⟩

/-! ## Text -/

mutual
/-- The written form, `head(a, b)` for an application, also without arguments.  References to
hypotheses begin with `mark`. -/
def render (mark : String) : Term → String
  | .const name => name
  | .hyp name => mark ++ name
  | .var x => x.text
  | .app head args => head ++ "(" ++ renderList mark args ++ ")"

def renderList (mark : String) : List Term → String
  | [] => ""
  | [t] => render mark t
  | t :: ts => render mark t ++ ", " ++ renderList mark ts
end

/-- The written form, in which hypotheses look like constants. -/
def text (t : Term) : String := t.render ""

/-- The written form that tells hypotheses from constants. -/
def markedText (t : Term) : String := t.render "$"

end Term

end ProofSearch
