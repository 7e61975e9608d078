import Mathlib.Data.List.Nodup
import Mathlib.Data.List.Pairwise
import Mathlib.Data.List.Sort
import Mathlib.Logic.Relation
import Mathlib.Order.Fin.Basic
import ProofSearch.AndOr.Cluster

/-!
# Disjoint sets are connected components

Positions are joined while their variables are read, and listed set by set afterwards.

1. `Forest.root`: the position that stands for a set.  `find_eq` says that looking for it moves
   positions below others without a change of any root, and `root_union` what joining does.
2. `Components`: a listing of the connected components of a relation.  `components_groups` says that
   the sets of a forest are listed as such.
3. `Linkage.Tracks`: what is known after some variables of some positions are read, and
   `root_ofSets_eq_iff`: two positions end in one set exactly if a chain of shared variables leads
   from one to the other.
4. `Subgoal.clusters_components`: the groups of subgoals are connected components.
-/

namespace ProofSearch

/-! ## Roots -/

namespace Forest

variable {n : Nat} {f : Forest n} {i j : Fin n}

/-- The root above a position. -/
def root (f : Forest n) (i : Fin n) : Fin n :=
  if _ : f.parent i = i then i else f.root (f.parent i)
termination_by i.val
decreasing_by exact parent_lt ‹_›

theorem root_eq_self (h : f.parent i = i) : f.root i = i := by
  rw [root, dif_pos h]

theorem root_parent (f : Forest n) (i : Fin n) : f.root (f.parent i) = f.root i := by
  by_cases h : f.parent i = i
  · rw [h]
  · rw [root.eq_def f i, dif_neg h]

theorem parent_root (f : Forest n) (i : Fin n) : f.parent (f.root i) = f.root i := by
  fun_induction root f i with
  | case1 i h => exact h
  | case2 i h ih => exact ih

/-- A function that fixes the roots and does not tell a position from its parent gives the roots. -/
theorem root_eq_of_parent {r : Fin n → Fin n} (hroot : ∀ i, f.parent i = i → r i = i)
    (hparent : ∀ i, r (f.parent i) = r i) (i : Fin n) : f.root i = r i := by
  fun_induction root f i with
  | case1 i h => exact (hroot i h).symm
  | case2 i h ih => exact ih.trans (hparent i)

/-- Moving a position below another one with the same root changes no root. -/
theorem root_redirect_of_root {p : Fin n} (hp : p < i) (hr : f.root p = f.root i) (j : Fin n) :
    (f.redirect i p hp.le).root j = f.root j := by
  refine root_eq_of_parent (fun k hk => ?_) (fun k => ?_) j
  · rw [parent_redirect] at hk
    split at hk
    · next hki => exact absurd (hk.trans hki) hp.ne
    · exact root_eq_self hk
  · rw [parent_redirect]
    split
    · next hki => rw [hki, hr]
    · exact f.root_parent k

/-- Moving a root below another root joins their sets. -/
theorem root_redirect_root {a b : Fin n} (hab : a < b) (ha : f.parent a = a) (hb : f.parent b = b)
    (j : Fin n) : (f.redirect b a hab.le).root j = if f.root j = b then a else f.root j := by
  refine root_eq_of_parent (r := fun j => if f.root j = b then a else f.root j) (fun k hk => ?_)
    (fun k => ?_) j
  · rw [parent_redirect] at hk
    split at hk
    · next hkb => exact absurd (hk.trans hkb) hab.ne
    · next hkb => rw [root_eq_self hk, if_neg hkb]
  · rw [parent_redirect]
    split
    · next hkb => rw [hkb, root_eq_self ha, root_eq_self hb, if_neg hab.ne, if_pos rfl]
    · rw [f.root_parent]

/-- Looking for a root finds it and changes no root. -/
theorem find_eq (f : Forest n) (i : Fin n) :
    (f.find i).1 = f.root i ∧ ∀ j, (f.find i).2.root j = f.root j := by
  fun_induction find f i with
  | case1 f i h => exact ⟨(root_eq_self h).symm, fun _ => rfl⟩
  | case2 f i h ih =>
    have hroot : f.root (f.parent (f.parent i)) = f.root i := by rw [root_parent, root_parent]
    have hkept := root_redirect_of_root (grandparent_lt h) hroot
    exact ⟨(ih.1.trans (hkept _)).trans hroot, fun j => (ih.2 j).trans (hkept j)⟩

theorem root_union (f : Forest n) (i j k : Fin n) : (f.union i j).root k =
    if f.root k = max (f.root i) (f.root j) then min (f.root i) (f.root j) else f.root k := by
  obtain ⟨hi, hkepti⟩ := f.find_eq i
  obtain ⟨hj, hkeptj⟩ := (f.find i).2.find_eq j
  have hkept (x : Fin n) : ((f.find i).2.find j).2.root x = f.root x :=
    (hkeptj x).trans (hkepti x)
  rw [hkepti] at hj
  have hparent (x : Fin n) : ((f.find i).2.find j).2.parent (f.root x) = f.root x :=
    hkept x ▸ parent_root _ x
  simp only [union, hi, hj]
  split
  · next h => rw [root_redirect_root h (hparent i) (hparent j), hkept, max_eq_right h.le,
      min_eq_left h.le]
  · split
    · next h => rw [root_redirect_root h (hparent j) (hparent i), hkept, max_eq_left h.le,
        min_eq_right h.le]
    · next h h' =>
      have heq : f.root i = f.root j := le_antisymm (not_lt.1 h') (not_lt.1 h)
      rw [hkept, heq, max_self, min_self]
      split
      · next hk => exact hk
      · rfl

/-- After joining, positions have a common root if they had one before, or if one of them was in
each of the joined sets. -/
theorem root_union_eq_iff {k l : Fin n} : (f.union i j).root k = (f.union i j).root l ↔
    f.root k = f.root l ∨ f.root k = f.root i ∧ f.root l = f.root j ∨
      f.root k = f.root j ∧ f.root l = f.root i := by
  rw [root_union, root_union]
  grind

end Forest

/-! ## Listing components -/

/-- The connected components of a relation between positions.  Each lists its positions in order,
and they are listed by their first positions. -/
structure Components {n : Nat} (R : Fin n → Fin n → Prop) (parts : List (List (Fin n))) : Prop where
  nonempty : ∀ part ∈ parts, part ≠ []
  perm : parts.flatten.Perm (List.finRange n)
  increasing : ∀ part ∈ parts, part.Pairwise (· < ·)
  ordered : parts.Pairwise fun p q => ∀ i ∈ p.head?, ∀ j ∈ q.head?, i < j
  connected : ∀ i j, (∃ part ∈ parts, i ∈ part ∧ j ∈ part) ↔ Relation.ReflTransGen R i j

/-- Positions of different components are not related. -/
theorem Components.pairwise_not_related {n : Nat} {R : Fin n → Fin n → Prop}
    {parts : List (List (Fin n))} (h : Components R parts) :
    parts.Pairwise fun p q => ∀ i ∈ p, ∀ j ∈ q, ¬ R i j := by
  have hnodup : parts.flatten.Nodup := h.perm.nodup_iff.2 (List.nodup_finRange n)
  have hdisjoint := (List.nodup_flatten.1 hnodup).2
  have hsymm : Std.Symm (@List.Disjoint (Fin n)) := ⟨fun _ _ hd _ hb ha => hd ha hb⟩
  -- no position is in two components
  have hunique {k : Fin n} {p q : List (Fin n)} (hp : p ∈ parts) (hq : q ∈ parts) (hkp : k ∈ p)
      (hkq : k ∈ q) : p = q := by
    by_contra hpq
    exact hdisjoint.forall hp hq hpq hkp hkq
  refine hdisjoint.imp_of_mem fun {p q} hp hq hpq i hi j hj hij => ?_
  obtain ⟨r, hr, hir, hjr⟩ := (h.connected i j).2 (.single hij)
  obtain rfl : p = q := (hunique hp hr hi hir).trans (hunique hr hq hjr hj)
  exact hpq hi hi

/-- If no two positions are related, each is a component of its own. -/
theorem Components.eq_singletons {n : Nat} {R : Fin n → Fin n → Prop} {parts : List (List (Fin n))}
    (h : Components R parts) (hR : ∀ i j, R i j → i = j) :
    parts = (List.finRange n).map fun i => [i] := by
  have hchain {i j : Fin n} (hij : Relation.ReflTransGen R i j) : i = j := by
    induction hij with
    | refl => rfl
    | tail _ hjk ih => exact ih.trans (hR _ _ hjk)
  have hsingle (part : List (Fin n)) (hpart : part ∈ parts) : ∃ i, part = [i] := by
    cases part with
    | nil => exact (h.nonempty _ hpart rfl).elim
    | cons i rest =>
      refine ⟨i, congrArg _ (List.eq_nil_iff_forall_not_mem.2 fun j hj => ?_)⟩
      have hij := hchain ((h.connected i j).1 ⟨_, hpart, List.mem_cons_self, List.mem_cons_of_mem i hj⟩)
      exact (List.rel_of_pairwise_cons (h.increasing _ hpart) hj).ne hij
  have hflat : parts = parts.flatten.map fun i => [i] := by
    have hall (ps : List (List (Fin n))) (hps : ∀ part ∈ ps, ∃ i, part = [i]) :
        ps = ps.flatten.map fun i => [i] := by
      induction ps with
      | nil => rfl
      | cons part ps ih =>
        obtain ⟨i, rfl⟩ := hps part List.mem_cons_self
        exact congrArg _ (ih fun q hq => hps q (List.mem_cons_of_mem _ hq))
    exact hall parts hsingle
  have hsorted : parts.flatten.Pairwise (· < ·) := by
    refine List.pairwise_flatten.2 ⟨h.increasing, h.ordered.imp_of_mem fun {p q} hp hq hpq => ?_⟩
    obtain ⟨i, rfl⟩ := hsingle p hp
    obtain ⟨j, rfl⟩ := hsingle q hq
    simpa using hpq
  rw [hflat, h.perm.eq_of_pairwise' hsorted (List.pairwise_lt_finRange n)]

namespace Forest

variable {n : Nat}

/-- The positions `is` grouped by `key`. -/
structure Grouped (key : Fin n → Fin n) (is : List (Fin n)) (groups : List (Fin n × List (Fin n))) :
    Prop where
  opened : ∀ i ∈ is, ∃ g ∈ groups, g.1 = key i
  members : ∀ g ∈ groups, g.2 = is.filter (key · = g.1)
  nonempty : ∀ g ∈ groups, g.2 ≠ []
  ordered : groups.Pairwise fun g h => ∀ i ∈ g.2.head?, ∀ j ∈ h.2.head?, i < j

namespace Grouped

variable {key : Fin n → Fin n} {is : List (Fin n)} {groups : List (Fin n × List (Fin n))} {i : Fin n}

theorem mem_of_mem (h : Grouped key is groups) {g : Fin n × List (Fin n)} (hg : g ∈ groups)
    (hi : i ∈ g.2) : i ∈ is ∧ key i = g.1 := by
  rw [h.members g hg] at hi
  simpa using hi

theorem place (h : Grouped key is groups) (hi : ∀ j ∈ is, j < i) :
    Grouped key (is ++ [i]) (Forest.place (key i) i groups) := by
  unfold Forest.place
  split
  · next hany =>
    obtain ⟨old, hold, hkey⟩ : ∃ g ∈ groups, g.1 = key i := by simpa using hany
    refine ⟨fun j hj => ?_, fun g' hg' => ?_, fun g' hg' => ?_, ?_⟩
    · obtain ⟨g, hg, hgj⟩ : ∃ g ∈ groups, g.1 = key j := by
        rcases List.mem_append.1 hj with hj | hj
        · exact h.opened j hj
        · exact ⟨old, hold, List.mem_singleton.1 hj ▸ hkey⟩
      refine ⟨_, List.mem_map_of_mem hg, ?_⟩
      split
      · next he => exact he.symm.trans hgj
      · exact hgj
    · obtain ⟨g, hg, rfl⟩ := List.mem_map.1 hg'
      split
      · next he => simp [h.members g hg, he]
      · next hne => simp [h.members g hg, Ne.symm hne]
    · obtain ⟨g, hg, rfl⟩ := List.mem_map.1 hg'
      split
      · simp
      · exact h.nonempty g hg
    · -- the first member of a group is not changed
      have hhead (g : Fin n × List (Fin n)) (hg : g ∈ groups) :
          (if g.1 = key i then (key i, g.2 ++ [i]) else g).2.head? = g.2.head? := by
        split
        · exact List.head?_append_of_ne_nil _ (h.nonempty g hg)
        · rfl
      refine List.pairwise_map.2 (h.ordered.imp_of_mem fun {g k} hg hk hgk => ?_)
      rw [hhead g hg, hhead k hk]
      exact hgk
  · next hany =>
    have hnew (g : Fin n × List (Fin n)) (hg : g ∈ groups) : g.1 ≠ key i := by
      intro he
      exact hany (List.any_eq_true.2 ⟨g, hg, decide_eq_true he⟩)
    have hfilter : is.filter (key · = key i) = [] := by
      refine List.filter_eq_nil_iff.2 fun j hj he => ?_
      obtain ⟨g, hg, hgj⟩ := h.opened j hj
      exact hnew g hg (hgj.trans (of_decide_eq_true he))
    refine ⟨fun j hj => ?_, fun g hg => ?_, fun g hg => ?_, ?_⟩
    · rcases List.mem_append.1 hj with hj | hj
      · obtain ⟨g, hg, hgj⟩ := h.opened j hj
        exact ⟨g, List.mem_append_left _ hg, hgj⟩
      · exact ⟨_, List.mem_append_right _ (List.mem_singleton_self _),
          congrArg key (List.mem_singleton.1 hj).symm⟩
    · rcases List.mem_append.1 hg with hg | hg
      · simp [h.members g hg, Ne.symm (hnew g hg)]
      · rw [List.mem_singleton.1 hg, List.filter_append, hfilter]
        simp
    · rcases List.mem_append.1 hg with hg | hg
      · exact h.nonempty g hg
      · simp [List.mem_singleton.1 hg]
    · refine List.pairwise_append.2 ⟨h.ordered, List.pairwise_singleton _ _, fun g hg k hk => ?_⟩
      rw [List.mem_singleton.1 hk]
      intro a ha b hb
      obtain rfl : i = b := by simpa using hb
      exact hi a (h.mem_of_mem hg (List.mem_of_mem_head? ha)).1

/-- Grouped by roots, the positions form the components of a relation whose chains lead between
positions with a common root. -/
theorem components {R : Fin n → Fin n → Prop} (h : Grouped key (List.finRange n) groups)
    (hR : ∀ i j, key i = key j ↔ Relation.ReflTransGen R i j) :
    Components R (groups.map (·.2)) := by
  have hincreasing (g : Fin n × List (Fin n)) (hg : g ∈ groups) : g.2.Pairwise (· < ·) :=
    h.members g hg ▸ (List.pairwise_lt_finRange n).filter _
  have hmem (g : Fin n × List (Fin n)) (hg : g ∈ groups) (i : Fin n) : i ∈ g.2 ↔ key i = g.1 := by
    rw [h.members g hg]
    simp
  have hflat : (groups.map (·.2)).flatten.Nodup := by
    refine List.nodup_flatten.2 ⟨fun part hpart => ?_, List.pairwise_map.2 ?_⟩
    · obtain ⟨g, hg, rfl⟩ := List.mem_map.1 hpart
      exact (hincreasing g hg).imp fun hlt => hlt.ne
    · refine h.ordered.imp_of_mem fun {g k} hg hk hgk i hi hi' => ?_
      -- groups with a common member have the same members, hence the same first one
      have hsame : g.2 = k.2 := by
        rw [h.members g hg, h.members k hk, ← (hmem g hg i).1 hi, ← (hmem k hk i).1 hi']
      have hfirst : g.2.head (h.nonempty g hg) ∈ g.2.head? := List.head?_eq_some_head _
      exact lt_irrefl _ (hgk _ hfirst _ (hsame ▸ hfirst))
  refine ⟨fun part hpart => ?_, ?_, fun part hpart => ?_, List.pairwise_map.2 h.ordered, fun i j => ?_⟩
  · obtain ⟨g, hg, rfl⟩ := List.mem_map.1 hpart
    exact h.nonempty g hg
  · refine (List.perm_ext_iff_of_nodup hflat (List.nodup_finRange n)).2 fun i => ?_
    refine iff_of_true ?_ (List.mem_finRange i)
    obtain ⟨g, hg, hkey⟩ := h.opened i (List.mem_finRange i)
    exact List.mem_flatten.2 ⟨g.2, List.mem_map_of_mem hg, (hmem g hg i).2 hkey.symm⟩
  · obtain ⟨g, hg, rfl⟩ := List.mem_map.1 hpart
    exact hincreasing g hg
  · rw [← hR]
    constructor
    · rintro ⟨part, hpart, hi, hj⟩
      obtain ⟨g, hg, rfl⟩ := List.mem_map.1 hpart
      exact ((hmem g hg i).1 hi).trans ((hmem g hg j).1 hj).symm
    · intro hij
      obtain ⟨g, hg, hkey⟩ := h.opened i (List.mem_finRange i)
      exact ⟨g.2, List.mem_map_of_mem hg, (hmem g hg i).2 hkey.symm,
        (hmem g hg j).2 (hij.symm.trans hkey.symm)⟩

end Grouped

/-- Positions are placed one after the other, each under the root that is found for it. -/
theorem grouped_foldl (f : Forest n) (is : List (Fin n)) :
    ∀ {done : List (Fin n)} {listed : List (Fin n × List (Fin n))} {g : Forest n},
      Grouped f.root done listed → (done ++ is).Pairwise (· < ·) → (∀ i, g.root i = f.root i) →
      Grouped f.root (done ++ is) (is.foldl (fun (listed, f) i =>
        let (root, f) := f.find i
        (place root i listed, f)) (listed, g)).1 := by
  induction is with
  | nil =>
    intro done listed g h _ _
    rw [List.append_nil]
    exact h
  | cons i is ih =>
    intro done listed g h hlt hg
    obtain ⟨hfind, hkept⟩ := g.find_eq i
    have hbelow : ∀ j ∈ done, j < i :=
      fun j hj => (List.pairwise_append.1 hlt).2.2 j hj i List.mem_cons_self
    have hplace := h.place hbelow
    rw [← hg, ← hfind] at hplace
    rw [List.foldl_cons, List.append_cons]
    exact ih hplace (by simpa using hlt) fun j => (hkept j).trans (hg j)

/-- The sets of a forest are the components of a relation whose chains lead between positions with a
common root. -/
theorem components_groups {f : Forest n} {R : Fin n → Fin n → Prop}
    (hR : ∀ i j, f.root i = f.root j ↔ Relation.ReflTransGen R i j) : Components R f.groups := by
  have hnil : Grouped f.root [] [] := ⟨nofun, nofun, nofun, .nil⟩
  exact (grouped_foldl f _ hnil (List.pairwise_lt_finRange n) fun _ => rfl).components hR

end Forest

/-! ## Joining positions -/

/-- The sets at two positions have a common member. -/
def Meets {n : Nat} (sets : Fin n → VarSet) (i j : Fin n) : Prop := ∃ x, x ∈ sets i ∧ x ∈ sets j

instance {n : Nat} (sets : Fin n → VarSet) : Std.Symm (Meets sets) :=
  ⟨fun _ _ ⟨x, hi, hj⟩ => ⟨x, hj, hi⟩⟩

namespace Linkage

variable {n : Nat} {sets : Fin n → VarSet} {met met' : Fin n → Var → Prop} {l : Linkage n}
  {i : Fin n} {x : Var}

/-- The variables that `met` knows at each position are read: every position is joined to the owner
of each of its variables, and only positions linked by chains are joined. -/
structure Tracks (sets : Fin n → VarSet) (met : Fin n → Var → Prop) (l : Linkage n) : Prop where
  owner : ∀ x i, l.owner.get? x = some i → x ∈ sets i
  joined : ∀ i x, met i x →
    ∃ first, l.owner.get? x = some first ∧ l.forest.root i = l.forest.root first
  linked : ∀ i j, l.forest.root i = l.forest.root j → Relation.ReflTransGen (Meets sets) i j

theorem Tracks.mono (h : Tracks sets met l) (hm : ∀ i x, met' i x → met i x) :
    Tracks sets met' l := { h with joined := fun i x hx => h.joined i x (hm i x hx) }

theorem tracks_empty : Tracks sets (fun _ _ => False) (empty n) := by
  refine ⟨nofun, nofun, fun i j hij => ?_⟩
  rw [empty, Forest.root_eq_self (Forest.parent_singletons i),
    Forest.root_eq_self (Forest.parent_singletons j)] at hij
  exact hij ▸ .refl

/-- One more variable is read. -/
theorem Tracks.visit (h : Tracks sets met l) (hx : x ∈ sets i) :
    Tracks sets (fun j y => met j y ∨ j = i ∧ y = x) (l.visit i x) := by
  unfold Linkage.visit
  cases howner : l.owner.get? x with
  | some first =>
    dsimp only
    have hlink : Relation.ReflTransGen (Meets sets) i first :=
      .single ⟨x, hx, h.owner x first howner⟩
    refine ⟨h.owner, fun j y hy => ?_, fun j k hjk => ?_⟩
    · rcases hy with hy | ⟨rfl, rfl⟩
      · obtain ⟨o, ho, hroot⟩ := h.joined j y hy
        exact ⟨o, ho, Forest.root_union_eq_iff.2 (.inl hroot)⟩
      · exact ⟨first, howner, Forest.root_union_eq_iff.2 (.inr (.inl ⟨rfl, rfl⟩))⟩
    · rcases Forest.root_union_eq_iff.1 hjk with hjk | ⟨hj, hk⟩ | ⟨hj, hk⟩
      · exact h.linked j k hjk
      · exact ((h.linked j i hj).trans hlink).trans (h.linked first k hk.symm)
      · exact ((h.linked j first hj).trans (symm hlink)).trans (h.linked i k hk.symm)
  | none =>
    dsimp only
    refine ⟨fun y j hy => ?_, fun j y hy => ?_, h.linked⟩
    · rw [SortedMap.get?_insert] at hy
      split at hy
      · next hyx =>
        cases hy
        exact hyx ▸ hx
      · exact h.owner y j hy
    · rw [SortedMap.get?_insert]
      rcases hy with hy | ⟨rfl, rfl⟩
      · obtain ⟨o, ho, hroot⟩ := h.joined j y hy
        have hne : y ≠ x := by
          rintro rfl
          exact nomatch howner.symm.trans ho
        exact ⟨o, by rw [if_neg hne, ho], hroot⟩
      · exact ⟨j, if_pos rfl, rfl⟩

/-- All variables of one position are read. -/
theorem Tracks.visitAll (h : Tracks sets met l) {xs : List Var} (hxs : ∀ x ∈ xs, x ∈ sets i) :
    Tracks sets (fun j y => met j y ∨ j = i ∧ y ∈ xs) (xs.foldl (fun l x => l.visit i x) l) := by
  induction xs generalizing met l with
  | nil => exact h.mono fun j y hy => hy.resolve_right fun hy => nomatch hy.2
  | cons x xs ih =>
    have hrest := ih (h.visit (hxs x List.mem_cons_self)) fun y hy =>
      hxs y (List.mem_cons_of_mem x hy)
    refine hrest.mono fun j y hy => ?_
    rcases hy with hy | ⟨hj, hy⟩
    · exact .inl (.inl hy)
    · exact (List.mem_cons.1 hy).elim (fun hy => .inl (.inr ⟨hj, hy⟩)) fun hy => .inr ⟨hj, hy⟩

/-- The variables of all positions are read. -/
theorem tracks_ofSets (sets : Fin n → VarSet) :
    Tracks sets (fun i x => x ∈ sets i) (ofSets sets) := by
  have hrun (is : List (Fin n)) : ∀ {met : Fin n → Var → Prop} {l : Linkage n}, Tracks sets met l →
      Tracks sets (fun i x => met i x ∨ i ∈ is ∧ x ∈ sets i)
        (is.foldl (fun l i => (sets i).toList.foldl (fun l x => l.visit i x) l) l) := by
    induction is with
    | nil => exact fun h => h.mono fun j y hy => hy.resolve_right fun hy => nomatch hy.1
    | cons i is ih =>
      intro met l h
      have hfirst := h.visitAll fun x (hx : x ∈ (sets i).toList) => VarSet.mem_toList.1 hx
      refine (ih hfirst).mono fun j y hy => ?_
      rcases hy with hy | ⟨hj, hy⟩
      · exact .inl (.inl hy)
      · rcases List.mem_cons.1 hj with rfl | hj
        · exact .inl (.inr ⟨rfl, hy⟩)
        · exact .inr ⟨hj, hy⟩
  exact (hrun _ tracks_empty).mono fun i x hx => .inr ⟨List.mem_finRange i, hx⟩

/-- Positions are joined exactly if a chain of positions with common variables leads from one to the
other. -/
theorem root_ofSets_eq_iff (sets : Fin n → VarSet) (i j : Fin n) :
    (ofSets sets).forest.root i = (ofSets sets).forest.root j ↔
      Relation.ReflTransGen (Meets sets) i j := by
  have h := tracks_ofSets sets
  refine ⟨h.linked i j, fun hij => ?_⟩
  induction hij with
  | refl => rfl
  | tail _ hjk ih =>
    -- both positions are joined to the owner of the common variable
    obtain ⟨x, hj, hk⟩ := hjk
    obtain ⟨first, hfirst, hroot⟩ := h.joined _ x hj
    obtain ⟨first', hfirst', hroot'⟩ := h.joined _ x hk
    obtain rfl := Option.some.inj (hfirst.symm.trans hfirst')
    exact (ih.trans hroot).trans hroot'.symm

end Linkage

/-! ## Clusters -/

namespace Subgoal

/-- The groups of subgoals are the connected components of the positions under shared variables. -/
theorem clusters_components (subgoals : List Subgoal) :
    ∃ parts : List (List (Fin subgoals.length)),
      clusters subgoals = parts.map (fun part => part.map subgoals.get) ∧
      Components (Meets fun i => (subgoals.get i).reach) parts :=
  ⟨_, rfl, Forest.components_groups (Linkage.root_ofSets_eq_iff _)⟩

theorem clusters_ne_nil {subgoals members : List Subgoal} (h : members ∈ clusters subgoals) :
    members ≠ [] := by
  obtain ⟨parts, hparts, hc⟩ := clusters_components subgoals
  rw [hparts] at h
  obtain ⟨part, hpart, rfl⟩ := List.mem_map.1 h
  rw [Ne, List.map_eq_nil_iff]
  exact hc.nonempty part hpart

/-- Grouping keeps every subgoal once. -/
theorem flatten_clusters_perm (subgoals : List Subgoal) :
    (clusters subgoals).flatten.Perm subgoals := by
  obtain ⟨parts, hparts, hc⟩ := clusters_components subgoals
  have hperm := hc.perm.map subgoals.get
  rwa [List.map_get_finRange, List.map_flatten, ← hparts] at hperm

end Subgoal

end ProofSearch
