/-!
# Finite maps in key order

A finite map is a list of entries whose keys increase strictly.  Maps that answer every look-up
alike are equal (`SortedMap.ext`), and every listing of a map is in key order.
-/

namespace ProofSearch

/-- A finite map from keys to values, listed by increasing key. -/
structure SortedMap (κ : Type) (α : Type) [Ord κ] where
  entries : List (κ × α)
  increasing : entries.Pairwise fun a b => compare a.1 b.1 = .lt

namespace SortedMap

variable {κ α : Type} [Ord κ]

instance [DecidableEq κ] [DecidableEq α] : DecidableEq (SortedMap κ α) := fun m n =>
  decidable_of_iff (m.entries = n.entries) (by cases m; cases n; simp)

def empty : SortedMap κ α := ⟨[], .nil⟩

instance : EmptyCollection (SortedMap κ α) := ⟨empty⟩

instance : Inhabited (SortedMap κ α) := ⟨∅⟩

def size (m : SortedMap κ α) : Nat := m.entries.length

def isEmpty (m : SortedMap κ α) : Bool := m.entries.isEmpty

def keys (m : SortedMap κ α) : List κ := m.entries.map (·.1)

/-- The value of the entry with the given key; entries behind the place of the key are not looked
at. -/
def lookup (k : κ) : List (κ × α) → Option α
  | [] => none
  | (k', v) :: rest =>
    match compare k k' with
    | .lt => none
    | .eq => some v
    | .gt => lookup k rest

def get? (m : SortedMap κ α) (k : κ) : Option α := lookup k m.entries

def contains (m : SortedMap κ α) (k : κ) : Bool := (m.get? k).isSome

/-- Puts an entry into its place, replacing an entry with the same key. -/
def place (k : κ) (v : α) : List (κ × α) → List (κ × α)
  | [] => [(k, v)]
  | (k', v') :: rest =>
    match compare k k' with
    | .lt => (k, v) :: (k', v') :: rest
    | .eq => (k, v) :: rest
    | .gt => (k', v') :: place k v rest

@[simp] theorem get?_empty (k : κ) : (∅ : SortedMap κ α).get? k = none := rfl

theorem mem_place {k : κ} {v : α} {e : κ × α} {es : List (κ × α)} (h : e ∈ place k v es) :
    e = (k, v) ∨ e ∈ es := by
  induction es with
  | nil => simpa [place] using h
  | cons e' es ih =>
    obtain ⟨k', v'⟩ := e'
    unfold place at h
    split at h <;> grind

theorem place_increasing [Std.TransOrd κ] {k : κ} {v : α} {es : List (κ × α)}
    (h : es.Pairwise fun a b => compare a.1 b.1 = .lt) :
    (place k v es).Pairwise fun a b => compare a.1 b.1 = .lt := by
  induction es with
  | nil => simp [place]
  | cons e es ih =>
    obtain ⟨k', v'⟩ := e
    rw [List.pairwise_cons] at h
    unfold place
    split
    · next hlt =>
      refine List.pairwise_cons.2 ⟨?_, List.pairwise_cons.2 h⟩
      intro e he
      rcases List.mem_cons.1 he with rfl | he
      · exact hlt
      · exact Std.TransCmp.lt_trans hlt (h.1 e he)
    · next heq =>
      refine List.pairwise_cons.2 ⟨?_, h.2⟩
      intro e he
      exact Std.TransCmp.lt_of_eq_of_lt heq (h.1 e he)
    · next hgt =>
      refine List.pairwise_cons.2 ⟨?_, ih h.2⟩
      intro e he
      rcases mem_place he with rfl | he
      · exact Std.OrientedCmp.lt_of_gt hgt
      · exact h.1 e he

def insert [Std.TransOrd κ] (m : SortedMap κ α) (k : κ) (v : α) : SortedMap κ α :=
  ⟨place k v m.entries, place_increasing m.increasing⟩

theorem lookup_place [Std.TransOrd κ] [Std.LawfulEqOrd κ] {k k' : κ} {v : α}
    {es : List (κ × α)} (h : es.Pairwise fun a b => compare a.1 b.1 = .lt) :
    lookup k' (place k v es) = if compare k' k = .eq then some v else lookup k' es := by
  induction es with
  | nil =>
    simp only [place, lookup]
    cases compare k' k <;> simp
  | cons e es ih =>
    obtain ⟨k₁, v₁⟩ := e
    rw [List.pairwise_cons] at h
    unfold place
    cases hk : compare k k₁ with
    | lt =>
      simp only [lookup]
      cases hc : compare k' k with
      | lt => simp [Std.TransCmp.lt_trans hc hk]
      | eq => simp
      | gt => simp
    | eq =>
      have hk := Std.LawfulEqOrd.eq_of_compare hk
      subst hk
      simp only [lookup]
      cases compare k' k <;> simp
    | gt =>
      simp only [lookup, ih h.2]
      cases hc : compare k' k₁ with
      | lt =>
        have hne := Std.TransCmp.lt_trans hc (Std.OrientedCmp.lt_of_gt hk)
        simp [hne]
      | eq =>
        have hc := Std.LawfulEqOrd.eq_of_compare hc
        subst hc
        simp [Std.OrientedCmp.lt_of_gt hk]
      | gt => simp

@[simp] theorem get?_insert [Std.TransOrd κ] [Std.LawfulEqOrd κ] [DecidableEq κ]
    (m : SortedMap κ α) (k k' : κ) (v : α) :
    (m.insert k v).get? k' = if k' = k then some v else m.get? k' := by
  simp only [get?, insert, lookup_place m.increasing, Std.LawfulEqOrd.compare_eq_iff_eq]

theorem lookup_eq_none_of_lt {k : κ} {es : List (κ × α)} (h : ∀ e ∈ es, compare k e.1 = .lt) :
    lookup k es = none := by
  cases es with
  | nil => rfl
  | cons e es =>
    have h' := h e (by simp)
    simp [lookup, h']

theorem entries_eq_of_lookup [Std.TransOrd κ] [Std.LawfulEqOrd κ] {es fs : List (κ × α)}
    (he : es.Pairwise fun a b => compare a.1 b.1 = .lt)
    (hf : fs.Pairwise fun a b => compare a.1 b.1 = .lt)
    (h : ∀ k, lookup k es = lookup k fs) : es = fs := by
  induction es generalizing fs with
  | nil =>
    cases fs with
    | nil => rfl
    | cons f fs => have := h f.1; simp [lookup] at this
  | cons e es ih =>
    cases fs with
    | nil => have := h e.1; simp [lookup] at this
    | cons f fs =>
      obtain ⟨k, v⟩ := e
      obtain ⟨l, w⟩ := f
      rw [List.pairwise_cons] at he hf
      have hk := h k
      have hl := h l
      simp only [lookup, Std.ReflCmp.compare_self] at hk hl
      have hkl : k = l := by
        cases hc : compare k l with
        | eq => exact Std.LawfulEqOrd.eq_of_compare hc
        | lt => simp [hc] at hk
        | gt => simp [Std.OrientedCmp.lt_of_gt hc] at hl
      subst hkl
      simp only [Std.ReflCmp.compare_self, Option.some.injEq] at hk
      subst hk
      refine congrArg _ (ih he.2 hf.2 fun k' => ?_)
      cases hc : compare k' k with
      | lt =>
        rw [lookup_eq_none_of_lt fun e h' => Std.TransCmp.lt_trans hc (he.1 e h'),
          lookup_eq_none_of_lt fun f h' => Std.TransCmp.lt_trans hc (hf.1 f h')]
      | eq =>
        have hc := Std.LawfulEqOrd.eq_of_compare hc
        subst hc
        rw [lookup_eq_none_of_lt he.1, lookup_eq_none_of_lt hf.1]
      | gt => simpa [lookup, hc] using h k'

/-- Maps that answer every look-up alike are equal. -/
theorem ext [Std.TransOrd κ] [Std.LawfulEqOrd κ] {m n : SortedMap κ α}
    (h : ∀ k, m.get? k = n.get? k) : m = n := by
  cases m; cases n
  simp only [mk.injEq]
  exact entries_eq_of_lookup (by assumption) (by assumption) h

/-! ## Comparing maps -/

variable {β : Type}

/-- The keys of `es` whose value and look-up in `fs` satisfy `p`, found by walking along both lists
at once. -/
def selectKeys (p : α → Option β → Bool) : List (κ × α) → List (κ × β) → List κ
  | [], _ => []
  | (k, v) :: es, fs =>
    let rest := fs.dropWhile fun f => compare f.1 k = .lt
    if p v (lookup k rest) then k :: selectKeys p es rest else selectKeys p es rest

/-- The keys of `m` whose value and look-up in `n` satisfy `p`. -/
def keysWhere (m : SortedMap κ α) (n : SortedMap κ β) (p : α → Option β → Bool) : List κ :=
  selectKeys p m.entries n.entries

/-- Entries in front of a key do not matter for the look-up of that key or a greater one. -/
theorem lookup_dropWhile [Std.TransOrd κ] {k k' : κ} (h : (compare k k').isLE)
    (fs : List (κ × β)) :
    lookup k' (fs.dropWhile fun f => compare f.1 k = .lt) = lookup k' fs := by
  induction fs with
  | nil => rfl
  | cons f fs ih =>
    simp only [List.dropWhile_cons, decide_eq_true_eq]
    split
    · next hlt =>
      have : compare k' f.1 = .gt := Std.OrientedCmp.gt_of_lt (Std.TransCmp.lt_of_lt_of_isLE hlt h)
      rw [ih]
      simp [lookup, this]
    · rfl

theorem selectKeys_eq [Std.TransOrd κ] {p : α → Option β → Bool} {es : List (κ × α)}
    {fs : List (κ × β)} (he : es.Pairwise fun a b => compare a.1 b.1 = .lt) :
    selectKeys p es fs = (es.filter fun e => p e.2 (lookup e.1 fs)).map (·.1) := by
  induction es generalizing fs with
  | nil => rfl
  | cons e es ih =>
    obtain ⟨k, v⟩ := e
    rw [List.pairwise_cons] at he
    have htail : (es.filter fun e => p e.2
        (lookup e.1 (fs.dropWhile fun f => compare f.1 k = .lt)))
        = es.filter fun e => p e.2 (lookup e.1 fs) := by
      refine List.filter_congr fun e h => ?_
      rw [lookup_dropWhile (by simp [he.1 e h])]
    have hself := lookup_dropWhile (show (compare k k).isLE by simp) fs
    simp only [selectKeys, ih he.2, htail, hself, List.filter_cons]
    split <;> rfl

theorem lookup_eq_some_iff [Std.TransOrd κ] [Std.LawfulEqOrd κ] {k : κ} {v : α}
    {es : List (κ × α)} (h : es.Pairwise fun a b => compare a.1 b.1 = .lt) :
    lookup k es = some v ↔ (k, v) ∈ es := by
  induction es with
  | nil => simp [lookup]
  | cons e es ih =>
    obtain ⟨k', v'⟩ := e
    rw [List.pairwise_cons] at h
    simp only [lookup, List.mem_cons, Prod.mk.injEq]
    cases hc : compare k k' with
    | lt =>
      have hne : k ≠ k' := fun he => by simp [he] at hc
      have hnot : (k, v) ∉ es := fun hm => by
        have := Std.TransCmp.lt_trans (h.1 _ hm) hc
        simp at this
      simp [hne, hnot]
    | eq =>
      have hc := Std.LawfulEqOrd.eq_of_compare hc
      subst hc
      have hnot : (k, v) ∉ es := fun hm => by
        have := h.1 _ hm
        simp at this
      simp [hnot, eq_comm]
    | gt =>
      have hne : k ≠ k' := fun he => by simp [he] at hc
      simp [hne, ih h.2]

theorem mem_keysWhere [Std.TransOrd κ] [Std.LawfulEqOrd κ] {m : SortedMap κ α}
    {n : SortedMap κ β} {p : α → Option β → Bool} {k : κ} :
    k ∈ m.keysWhere n p ↔ ∃ v, m.get? k = some v ∧ p v (n.get? k) = true := by
  simp only [keysWhere, selectKeys_eq m.increasing, List.mem_map, List.mem_filter, get?,
    lookup_eq_some_iff m.increasing]
  constructor
  · rintro ⟨⟨k, v⟩, ⟨hm, hp⟩, rfl⟩
    exact ⟨v, hm, hp⟩
  · rintro ⟨v, hm, hp⟩
    exact ⟨(k, v), ⟨hm, hp⟩, rfl⟩

end SortedMap

end ProofSearch
