/-!
# Disjoint sets of positions

The positions of a list are joined into disjoint sets.  Each set is a tree of parent references, and
its root stands for it.  A parent never lies behind its child, because that is part of the type, so
the way to a root ends.
-/

namespace ProofSearch

/-- The parents of the positions below `n`.  A root is its own parent. -/
structure Forest (n : Nat) where
  parents : Vector (Fin n) n
  parent_le : ∀ i : Fin n, parents[i] ≤ i

namespace Forest

variable {n : Nat}

def parent (f : Forest n) (i : Fin n) : Fin n := f.parents[i]

/-- Every position is a set of its own. -/
def singletons (n : Nat) : Forest n where
  parents := .ofFn id
  parent_le i := by simp

/-- Moves a position below another parent. -/
def redirect (f : Forest n) (i p : Fin n) (h : p ≤ i) : Forest n where
  parents := f.parents.set i p
  parent_le j := by
    simp only [Fin.getElem_fin, Vector.getElem_set]
    split
    · next hij => exact Fin.le_trans h (Fin.le_of_eq (Fin.ext hij))
    · exact f.parent_le j

@[simp] theorem parent_singletons (i : Fin n) : (singletons n).parent i = i := by
  simp [parent, singletons]

@[simp] theorem parent_redirect (f : Forest n) (i p : Fin n) (h : p ≤ i) (j : Fin n) :
    (f.redirect i p h).parent j = if j = i then p else f.parent j := by
  simp only [parent, redirect, Fin.getElem_fin, Vector.getElem_set, Fin.ext_iff, eq_comm]

theorem parent_lt {f : Forest n} {i : Fin n} (h : f.parent i ≠ i) : f.parent i < i :=
  Fin.lt_def.2 (Nat.lt_of_le_of_ne (f.parent_le i) fun he => h (Fin.ext he))

theorem grandparent_lt {f : Forest n} {i : Fin n} (h : f.parent i ≠ i) :
    f.parent (f.parent i) < i :=
  Fin.lt_of_le_of_lt (f.parent_le _) (parent_lt h)

/-- The root above a position.  The positions passed on the way are moved below the parents of their
parents. -/
def find (f : Forest n) (i : Fin n) : Fin n × Forest n :=
  if h : f.parent i = i then (i, f)
  else (f.redirect i (f.parent (f.parent i)) (Fin.le_of_lt (grandparent_lt h))).find
    (f.parent (f.parent i))
termination_by i.val
decreasing_by exact grandparent_lt h

/-- Joins the sets of two positions.  Of their roots the one further behind moves below the other. -/
def union (f : Forest n) (i j : Fin n) : Forest n :=
  let (a, f) := f.find i
  let (b, f) := f.find j
  if hab : a < b then f.redirect b a (Fin.le_of_lt hab)
  else if hba : b < a then f.redirect a b (Fin.le_of_lt hba)
  else f

/-! ## Listing the sets -/

/-- Adds a position to the group of its root, which is opened behind the others at its first
position. -/
def place (root i : Fin n) (groups : List (Fin n × List (Fin n))) : List (Fin n × List (Fin n)) :=
  if groups.any (·.1 = root) then
    groups.map fun g => if g.1 = root then (root, g.2 ++ [i]) else g
  else groups ++ [(root, [i])]

/-- The disjoint sets, listed by their first positions. -/
def groups (f : Forest n) : List (List (Fin n)) :=
  let (listed, _) := (List.finRange n).foldl (fun (listed, f) i =>
    let (root, f) := f.find i
    (place root i listed, f)) ([], f)
  listed.map (·.2)

end Forest

end ProofSearch
