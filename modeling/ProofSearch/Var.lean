/-!
# Metavariables and sets of them

A metavariable is known by its number.  A set of metavariables is a strictly increasing list, so
sets with the same members are equal (`VarSet.ext`) and every listing of a set is in order.
-/

namespace ProofSearch

/-- A metavariable: a hole in a term, or a goal still to be closed. -/
structure Var where
  index : Nat
deriving DecidableEq, Repr, Inhabited

namespace Var

instance : LT Var := ⟨fun x y => x.index < y.index⟩

instance (x y : Var) : Decidable (x < y) := inferInstanceAs (Decidable (x.index < y.index))

instance : Ord Var := ⟨fun x y => compare x.index y.index⟩

instance : Std.TransOrd Var where
  eq_swap {x y} :=
    show compare x.index y.index = (compare y.index x.index).swap from Std.OrientedCmp.eq_swap
  isLE_trans {x y z} h₁ h₂ :=
    have h₁ : (compare x.index y.index).isLE := h₁
    have h₂ : (compare y.index z.index).isLE := h₂
    show (compare x.index z.index).isLE from Std.TransCmp.isLE_trans h₁ h₂

instance : Std.LawfulEqOrd Var where
  eq_of_compare {x y} h := by
    cases x; cases y
    exact congrArg Var.mk (Std.LawfulEqOrd.eq_of_compare h)

theorem lt_iff {x y : Var} : x < y ↔ x.index < y.index := Iff.rfl

theorem eq_iff {x y : Var} : x = y ↔ x.index = y.index := by
  cases x; cases y; simp

/-- The written form, such as `?m3`. -/
def text (x : Var) : String := "?m" ++ x.index.repr

end Var

/-- A finite set of metavariables. -/
structure VarSet where
  toList : List Var
  increasing : toList.Pairwise (· < ·)
deriving DecidableEq

namespace VarSet

instance : Membership Var VarSet := ⟨fun s x => x ∈ s.toList⟩

instance (x : Var) (s : VarSet) : Decidable (x ∈ s) :=
  inferInstanceAs (Decidable (x ∈ s.toList))

theorem mem_toList {x : Var} {s : VarSet} : x ∈ s.toList ↔ x ∈ s := Iff.rfl

def empty : VarSet := ⟨[], .nil⟩

instance : EmptyCollection VarSet := ⟨empty⟩

instance : Inhabited VarSet := ⟨∅⟩

@[simp] theorem not_mem_empty (x : Var) : x ∉ (∅ : VarSet) := by
  intro h
  cases h

def isEmpty (s : VarSet) : Bool := s.toList.isEmpty

def size (s : VarSet) : Nat := s.toList.length

/-- Puts a variable into its place in an increasing list that lacks or has it. -/
def place (x : Var) : List Var → List Var
  | [] => [x]
  | y :: ys =>
    if x < y then x :: y :: ys
    else if x = y then y :: ys
    else y :: place x ys

theorem mem_place {x z : Var} {ys : List Var} : z ∈ place x ys ↔ z = x ∨ z ∈ ys := by
  induction ys with
  | nil => simp [place]
  | cons y ys ih =>
    unfold place
    split
    · simp
    · split
      · next h => subst h; simp
      · simp [ih]; grind

theorem place_increasing {x : Var} {ys : List Var} (h : ys.Pairwise (· < ·)) :
    (place x ys).Pairwise (· < ·) := by
  induction ys with
  | nil => simp [place]
  | cons y ys ih =>
    rw [List.pairwise_cons] at h
    unfold place
    split
    · next hlt =>
      refine List.pairwise_cons.2 ⟨?_, List.pairwise_cons.2 h⟩
      intro z hz
      rcases List.mem_cons.1 hz with rfl | hz
      · exact hlt
      · exact Nat.lt_trans hlt (h.1 z hz)
    · split
      · exact List.pairwise_cons.2 h
      · next hlt hne =>
        refine List.pairwise_cons.2 ⟨?_, ih h.2⟩
        intro z hz
        rcases mem_place.1 hz with rfl | hz
        · simp only [Var.lt_iff, Var.eq_iff] at *
          omega
        · exact h.1 z hz

def insert (s : VarSet) (x : Var) : VarSet := ⟨place x s.toList, place_increasing s.increasing⟩

@[simp] theorem mem_insert {s : VarSet} {x z : Var} : z ∈ s.insert x ↔ z = x ∨ z ∈ s := mem_place

def filter (s : VarSet) (p : Var → Bool) : VarSet :=
  ⟨s.toList.filter p, s.increasing.filter p⟩

@[simp] theorem mem_filter {s : VarSet} {p : Var → Bool} {z : Var} :
    z ∈ s.filter p ↔ z ∈ s ∧ p z = true := List.mem_filter

def erase (s : VarSet) (x : Var) : VarSet := s.filter (· ≠ x)

@[simp] theorem mem_erase {s : VarSet} {x z : Var} : z ∈ s.erase x ↔ z ∈ s ∧ z ≠ x := by
  simp [erase]

def insertMany (s : VarSet) (xs : List Var) : VarSet := xs.foldl insert s

@[simp] theorem mem_insertMany {s : VarSet} {xs : List Var} {z : Var} :
    z ∈ s.insertMany xs ↔ z ∈ xs ∨ z ∈ s := by
  induction xs generalizing s with
  | nil => simp [insertMany]
  | cons x xs ih =>
    have h := ih (s := s.insert x)
    simp only [insertMany, List.foldl_cons] at h ⊢
    rw [h]
    simp only [mem_insert, List.mem_cons]
    grind

def ofList (xs : List Var) : VarSet := (∅ : VarSet).insertMany xs

@[simp] theorem mem_ofList {xs : List Var} {z : Var} : z ∈ ofList xs ↔ z ∈ xs := by
  simp [ofList]

def union (s t : VarSet) : VarSet := s.insertMany t.toList

@[simp] theorem mem_union {s t : VarSet} {z : Var} : z ∈ s.union t ↔ z ∈ t ∨ z ∈ s := by
  simp [union, mem_toList]

/-- No member is shared. -/
def disjoint (s t : VarSet) : Bool := s.toList.all fun x => decide (x ∉ t)

theorem disjoint_iff {s t : VarSet} : s.disjoint t = true ↔ ∀ x ∈ s, x ∉ t := by
  simp [disjoint, mem_toList]

/-- Increasing lists with the same members are equal. -/
theorem toList_eq_of_mem_iff {xs ys : List Var} (hx : xs.Pairwise (· < ·))
    (hy : ys.Pairwise (· < ·)) (h : ∀ z, z ∈ xs ↔ z ∈ ys) : xs = ys := by
  induction xs generalizing ys with
  | nil =>
    cases ys with
    | nil => rfl
    | cons y ys => exact absurd ((h y).2 (by simp)) (by simp)
  | cons x xs ih =>
    cases ys with
    | nil => exact absurd ((h x).1 (by simp)) (by simp)
    | cons y ys =>
      rw [List.pairwise_cons] at hx hy
      simp only [Var.lt_iff] at hx hy
      have hxy : x = y := by
        have h1 := (h x).1 (by simp)
        have h2 := (h y).2 (by simp)
        rcases List.mem_cons.1 h1 with h1 | h1
        · exact h1
        · rcases List.mem_cons.1 h2 with h2 | h2
          · exact h2.symm
          · have := hx.1 y h2
            have := hy.1 x h1
            omega
      subst hxy
      refine congrArg _ (ih hx.2 hy.2 fun z => ?_)
      constructor
      · intro hz
        rcases List.mem_cons.1 ((h z).1 (by simp [hz])) with rfl | hz'
        · exact absurd (hx.1 z hz) (by omega)
        · exact hz'
      · intro hz
        rcases List.mem_cons.1 ((h z).2 (by simp [hz])) with rfl | hz'
        · exact absurd (hy.1 z hz) (by omega)
        · exact hz'

/-- Sets with the same members are equal. -/
@[ext] theorem ext {s t : VarSet} (h : ∀ x, x ∈ s ↔ x ∈ t) : s = t := by
  cases s; cases t
  simp only [mk.injEq]
  exact toList_eq_of_mem_iff (by assumption) (by assumption) h

end VarSet

end ProofSearch
