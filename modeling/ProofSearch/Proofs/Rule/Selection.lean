import Mathlib.Data.List.Induction
import ProofSearch.Proofs.Search.Queue

/-!
# Rule sets and selection

A class of rules is sorted again whenever a rule is added to it.  Sorting keeps the order of equal
elements, so sorting after each addition is the same as sorting once.

1. `eq_of_filter_tied`: lists in order that agree on tied elements are equal.
   `sortOrdered_eq_mergeSort`: there is one stable sort.
2. `RuleClass.Precedes`, `RuleKey`: the order of rules and what it depends on.
   `RuleSet.members_ofList`: each class of a rule set is sorted by it.
   `RuleSet.ofList_eq_iff`: what two orders of adding have to agree on.
3. `selectRules_eq`: the rules that match a goal, and where they match it.
4. `RuleSet.ofList_canonical`: the rules of a set and the rules selected for a goal.
-/

namespace ProofSearch

/-! ## Stable sorting -/

section

variable {α : Type} {le : α → α → Bool}

/-- Neither of two elements has to come first. -/
def tied (le : α → α → Bool) (a b : α) : Bool := le a b && le b a

theorem tied_iff {a b : α} : tied le a b = true ↔ le a b = true ∧ le b a = true :=
  Bool.and_eq_true_iff

theorem sortOrdered_concat (le : α → α → Bool) (as : List α) (a : α) :
    sortOrdered le (as ++ [a]) = insertOrdered le a (sortOrdered le as) := by
  rw [sortOrdered, List.foldl_append]
  rfl

/-- What comes behind all elements is inserted at the end. -/
theorem insertOrdered_last {a : α} {bs : List α} (h : ∀ b ∈ bs, le b a = true) :
    insertOrdered le a bs = bs ++ [a] := by
  induction bs with
  | nil => rfl
  | cons b bs ih =>
    rw [insertOrdered, if_pos (h b List.mem_cons_self),
      ih fun c hc => h c (List.mem_cons_of_mem b hc)]
    rfl

theorem sortOrdered_of_pairwise {as : List α} (h : as.Pairwise fun a b => le a b = true) :
    sortOrdered le as = as := by
  induction as using List.reverseRecOn with
  | nil => rfl
  | append_singleton as a ih =>
    obtain ⟨has, -, hlast⟩ := List.pairwise_append.1 h
    rw [sortOrdered_concat, ih has]
    exact insertOrdered_last fun b hb => hlast b hb a (List.mem_singleton_self a)

/-- Lists in order that agree on the elements tied with each one are equal. -/
theorem eq_of_filter_tied {as bs : List α} (has : as.Pairwise fun a b => le a b = true)
    (hbs : bs.Pairwise fun a b => le a b = true) (hrefl : ∀ a, le a a = true)
    (h : ∀ x, x ∈ as ∨ x ∈ bs → as.filter (tied le x) = bs.filter (tied le x)) : as = bs := by
  have hself (a : α) : tied le a a = true := tied_iff.2 ⟨hrefl a, hrefl a⟩
  induction as generalizing bs with
  | nil =>
    cases bs with
    | nil => rfl
    | cons b bs =>
      have hb := h b (.inr List.mem_cons_self)
      rw [List.filter_cons_of_pos (hself b)] at hb
      cases hb
  | cons a as ih =>
    cases bs with
    | nil =>
      have ha := h a (.inl List.mem_cons_self)
      rw [List.filter_cons_of_pos (hself a)] at ha
      cases ha
    | cons b bs =>
      obtain ⟨ha, htail⟩ := List.pairwise_cons.1 has
      obtain ⟨hb, htail'⟩ := List.pairwise_cons.1 hbs
      -- each head occurs in the other list, so none of the two has to come first
      have hfirst {c d : α} {cs ds : List α} (hd : ∀ e ∈ ds, le d e = true)
          (hcd : (c :: cs).filter (tied le c) = (d :: ds).filter (tied le c)) : le d c = true := by
        rw [List.filter_cons_of_pos (hself c)] at hcd
        have hc : c ∈ (d :: ds).filter (tied le c) := hcd ▸ List.mem_cons_self
        rcases List.mem_cons.1 (List.mem_filter.1 hc).1 with rfl | hc
        · exact hrefl c
        · exact hd c hc
      have heads := h a (.inl List.mem_cons_self)
      have hab : tied le a b = true :=
        tied_iff.2 ⟨hfirst ha (h b (.inr List.mem_cons_self)).symm, hfirst hb heads⟩
      obtain rfl : a = b := by
        rw [List.filter_cons_of_pos (hself a), List.filter_cons_of_pos hab] at heads
        exact (List.cons.inj heads).1
      refine congrArg _ (ih htail htail' fun x hx => ?_)
      have htails := h x (hx.imp (List.mem_cons_of_mem a) (List.mem_cons_of_mem a))
      rw [List.filter_cons, List.filter_cons] at htails
      split at htails
      · exact (List.cons.inj htails).2
      · exact htails

variable (total : ∀ a b, le a b = true ∨ le b a = true)
  (trans : ∀ a b c, le a b = true → le b c = true → le a c = true)

include total trans

/-- An element is inserted behind all elements tied with it. -/
theorem filter_tied_insertOrdered (a x : α) {bs : List α}
    (h : bs.Pairwise fun b c => le b c = true) :
    (insertOrdered le a bs).filter (tied le x) = (bs ++ [a]).filter (tied le x) := by
  induction bs with
  | nil => rfl
  | cons b bs ih =>
    obtain ⟨hb, hbs⟩ := List.pairwise_cons.1 h
    unfold insertOrdered
    split
    · rw [List.filter_cons, ih hbs, List.cons_append, List.filter_cons]
    · next hle =>
      by_cases ha : tied le x a = true
      · -- what is tied with `x` as `a` is does not come behind `b`
        have hnone : (b :: bs).filter (tied le x) = [] := by
          refine List.filter_eq_nil_iff.2 fun c hc hx => hle ?_
          have hbc : le b c = true := by
            rcases List.mem_cons.1 hc with rfl | hc
            · exact (total c c).elim id id
            · exact hb c hc
          exact trans b c a hbc (trans c x a (tied_iff.1 hx).2 (tied_iff.1 ha).1)
        rw [List.filter_append, List.filter_cons_of_pos ha, hnone, List.nil_append,
          List.filter_cons_of_pos ha, List.filter_nil]
      · rw [List.filter_append, List.filter_cons_of_neg ha, List.filter_cons_of_neg ha,
          List.filter_nil, List.append_nil]

theorem filter_tied_sortOrdered (x : α) (as : List α) :
    (sortOrdered le as).filter (tied le x) = as.filter (tied le x) := by
  induction as using List.reverseRecOn with
  | nil => rfl
  | append_singleton as a ih =>
    rw [sortOrdered_concat, filter_tied_insertOrdered total trans a x
      (sortOrdered_pairwise total trans as), List.filter_append, ih, List.filter_append]

theorem filter_tied_mergeSort (x : α) (as : List α) :
    (as.mergeSort le).filter (tied le x) = as.filter (tied le x) := by
  have htied : (as.filter (tied le x)).Pairwise fun a b => le a b = true := by
    refine List.pairwise_of_forall_mem_list fun a ha b hb => ?_
    exact trans a x b (tied_iff.1 (List.mem_filter.1 ha).2).2 (tied_iff.1 (List.mem_filter.1 hb).2).1
  have hsub := List.sublist_mergeSort trans (fun a b => Bool.or_eq_true_iff.2 (total a b)) htied
    List.filter_sublist
  have hsub := hsub.filter (tied le x)
  simp only [List.filter_filter, Bool.and_self] at hsub
  exact (hsub.eq_of_length ((List.mergeSort_perm as le).filter _).length_eq.symm).symm

/-- There is one stable sort. -/
theorem sortOrdered_eq_mergeSort (as : List α) : sortOrdered le as = as.mergeSort le := by
  refine eq_of_filter_tied (sortOrdered_pairwise total trans as)
    (List.pairwise_mergeSort trans (fun a b => Bool.or_eq_true_iff.2 (total a b)) as)
    (fun a => (total a a).elim id id) fun x _ => ?_
  rw [filter_tied_sortOrdered total trans, filter_tied_mergeSort total trans]

/-- Sorting after each addition is the same as sorting once. -/
theorem foldl_sortOrdered (as bs : List α) :
    bs.foldl (fun sorted b => sortOrdered le (sorted ++ [b])) (sortOrdered le as) =
      sortOrdered le (as ++ bs) := by
  induction bs generalizing as with
  | nil => rw [List.append_nil, List.foldl_nil]
  | cons b bs ih =>
    rw [List.foldl_cons, sortOrdered_concat,
      sortOrdered_of_pairwise (sortOrdered_pairwise total trans as), ← sortOrdered_concat, ih,
      List.append_assoc, List.singleton_append]

end

/-! ## The order of rules -/

inductive RuleClass where
  | norm
  | safe
  | tentative
deriving DecidableEq, Repr

def Rule.ruleClass (r : Rule) : RuleClass :=
  match r.priority with
  | .norm _ => .norm
  | .safe .. => .safe
  | .tentative _ => .tentative

/-- What the place of a rule depends on.  Only tentative rules differ in their probabilities, and
they all have the same penalty. -/
structure RuleKey where
  ruleClass : RuleClass
  penalty : Int
  probability : Percent
  name : String
deriving DecidableEq, Repr

def Rule.key (r : Rule) : RuleKey := ⟨r.ruleClass, r.penalty, r.probability, r.name⟩

namespace RuleClass

variable {c : RuleClass} {r s : Rule}

/-- The rule `r` does not stand behind `s`: norm and safe rules have rising penalties, tentative
rules falling probabilities, and otherwise the names decide. -/
def Precedes : RuleClass → Rule → Rule → Prop
  | .norm, r, s | .safe, r, s =>
    r.penalty < s.penalty ∨ r.penalty = s.penalty ∧ (compare r.name s.name).isLE = true
  | .tentative, r, s =>
    compare s.probability r.probability = .lt ∨
      r.probability = s.probability ∧ (compare r.name s.name).isLE = true

instance : (c : RuleClass) → (r s : Rule) → Decidable (c.Precedes r s)
  | .norm, _, _ | .safe, _, _ | .tentative, _, _ => inferInstanceAs (Decidable (_ ∨ _ ∧ _))

/-- The order by which a class is sorted. -/
def order : RuleClass → Rule → Rule → Ordering
  | .norm | .safe => compareLex (compareOn Rule.penalty) (compareOn Rule.name)
  | .tentative => compareLex (fun r s => compareOn Rule.probability s r) (compareOn Rule.name)

instance : (c : RuleClass) → Std.TransCmp c.order
  | .norm | .safe => inferInstanceAs (Std.TransCmp (compareLex _ _))
  | .tentative =>
    have : Std.TransCmp (fun r s => compareOn Rule.probability s r) := .opposite
    inferInstanceAs (Std.TransCmp (compareLex _ _))

theorem order_swap (c : RuleClass) (r s : Rule) : c.order s r = (c.order r s).swap :=
  Std.OrientedCmp.eq_swap

def le (c : RuleClass) (r s : Rule) : Bool := (c.order r s).isLE

theorem le_total (c : RuleClass) (r s : Rule) : c.le r s = true ∨ c.le s r = true := by
  rw [le, le, c.order_swap r s]
  cases c.order r s <;> simp

theorem le_trans (c : RuleClass) (q r s : Rule) (h : c.le q r = true) (h' : c.le r s = true) :
    c.le q s = true := Std.TransCmp.isLE_trans h h'

theorem isLE_then {o p : Ordering} :
    (o.then p).isLE = true ↔ o = .lt ∨ o = .eq ∧ p.isLE = true := by
  cases o <;> simp

theorem le_iff : c.le r s = true ↔ c.Precedes r s := by
  cases c with
  | norm | safe =>
    simp only [le, order, compareLex, compareOn, isLE_then, Int.compare_eq_lt,
      Std.LawfulEqOrd.compare_eq_iff_eq, Precedes]
  | tentative =>
    simp only [le, order, compareLex, compareOn, isLE_then, Std.LawfulEqOrd.compare_eq_iff_eq,
      @eq_comm _ s.probability, Precedes]

theorem le_eq_decide (c : RuleClass) : c.le = fun r s => decide (c.Precedes r s) := by
  funext r s
  rw [Bool.eq_iff_iff, decide_eq_true_eq, le_iff]

theorem penalty_of_tentative (h : r.ruleClass = .tentative) : r.penalty = 0 := by
  unfold Rule.ruleClass at h
  unfold Rule.penalty
  split at h <;> simp_all

theorem probability_of_eager (h : r.ruleClass ≠ .tentative) : r.probability = .hundred := by
  unfold Rule.ruleClass at h
  unfold Rule.probability
  split at h <;> simp_all

/-- Rules of a class are tied if and only if they have the same key. -/
theorem tied_iff_key (hr : r.ruleClass = c) (hs : s.ruleClass = c) :
    tied c.le r s = true ↔ s.key = r.key := by
  have htied : tied c.le r s = true ↔ c.order r s = .eq := by
    rw [tied_iff, le, le, c.order_swap r s]
    cases c.order r s <;> simp
  rw [htied]
  simp only [Rule.key, RuleKey.mk.injEq, hr, hs, true_and, @eq_comm _ s.penalty,
    @eq_comm _ s.probability, @eq_comm _ s.name]
  cases c with
  | norm | safe =>
    have hsame : r.probability = s.probability := by
      rw [probability_of_eager (hr ▸ nofun), probability_of_eager (hs ▸ nofun)]
    simp only [order, compareLex, compareOn, Ordering.then_eq_eq,
      Std.LawfulEqOrd.compare_eq_iff_eq, hsame, true_and]
  | tentative =>
    have hsame : r.penalty = s.penalty := by rw [penalty_of_tentative hr, penalty_of_tentative hs]
    simp only [order, compareLex, compareOn, Ordering.then_eq_eq,
      Std.LawfulEqOrd.compare_eq_iff_eq, hsame, true_and, @eq_comm _ s.probability]

end RuleClass

/-! ## The classes of a rule set -/

namespace RuleSet

variable {c : RuleClass} {rules : List Rule}

/-- The rules of a class. -/
def members (rs : RuleSet) : RuleClass → List Rule
  | .norm => rs.norm
  | .safe => rs.safe
  | .tentative => rs.tentative

theorem ext {rs rs' : RuleSet} (h : ∀ c, rs.members c = rs'.members c) : rs = rs' := by
  cases rs
  cases rs'
  simp only [mk.injEq]
  exact ⟨h .norm, h .safe, h .tentative⟩

theorem members_add (rs : RuleSet) (r : Rule) (c : RuleClass) : (rs.add r).members c =
    if r.ruleClass = c then sortOrdered c.le (rs.members c ++ [r]) else rs.members c := by
  unfold add Rule.ruleClass
  cases r.priority <;> cases c <;> rfl

theorem members_foldl_add (rs : RuleSet) (rules : List Rule) (c : RuleClass) :
    (rules.foldl add rs).members c = (rules.filter (·.ruleClass = c)).foldl
      (fun sorted r => sortOrdered c.le (sorted ++ [r])) (rs.members c) := by
  induction rules generalizing rs with
  | nil => rfl
  | cons r rules ih =>
    rw [List.foldl_cons, ih, members_add]
    by_cases hr : r.ruleClass = c
    · rw [if_pos hr, List.filter_cons_of_pos (by simpa using hr), List.foldl_cons]
    · rw [if_neg hr, List.filter_cons_of_neg (by simpa using hr)]

theorem members_ofList_eq_sortOrdered (rules : List Rule) (c : RuleClass) :
    (ofList rules).members c = sortOrdered c.le (rules.filter (·.ruleClass = c)) := by
  have hempty : empty.members c = sortOrdered c.le [] := by cases c <;> rfl
  rw [ofList, members_foldl_add, hempty, foldl_sortOrdered c.le_total c.le_trans, List.nil_append]

/-- Each class of a rule set is one stable sort of the rules that were added to it. -/
theorem members_ofList (rules : List Rule) (c : RuleClass) : (ofList rules).members c =
    (rules.filter (·.ruleClass = c)).mergeSort fun r s => decide (c.Precedes r s) := by
  rw [members_ofList_eq_sortOrdered, sortOrdered_eq_mergeSort c.le_total c.le_trans,
    RuleClass.le_eq_decide]

/-- In a list of rules of one class, the rules tied with a rule are those with the same key. -/
theorem filter_tied {r : Rule} (hr : r.ruleClass = c) (hrules : ∀ s ∈ rules, s.ruleClass = c) :
    rules.filter (tied c.le r) = rules.filter (·.key = r.key) := by
  refine List.filter_congr fun s hs => ?_
  rw [Bool.eq_iff_iff, RuleClass.tied_iff_key hr (hrules s hs), decide_eq_true_eq]

theorem ruleClass_of_mem_filter {r : Rule} (h : r ∈ rules.filter (·.ruleClass = c)) :
    r.ruleClass = c := by
  simpa using (List.mem_filter.1 h).2

theorem ruleClass_of_mem_members {r : Rule} (h : r ∈ (ofList rules).members c) :
    r.ruleClass = c := by
  rw [members_ofList_eq_sortOrdered] at h
  exact ruleClass_of_mem_filter ((sortOrdered_perm ..).mem_iff.1 h)

theorem filter_ruleClass_key (rules : List Rule) (k : RuleKey) :
    (rules.filter (·.ruleClass = k.ruleClass)).filter (·.key = k) = rules.filter (·.key = k) := by
  rw [List.filter_filter]
  refine List.filter_congr fun r _ => ?_
  by_cases hk : r.key = k
  · subst hk
    simp [Rule.key]
  · simp [hk]

/-- Rules with the same key stand in the order in which they were added. -/
theorem filter_key_members (rules : List Rule) (r : Rule) :
    ((ofList rules).members r.ruleClass).filter (·.key = r.key) =
      rules.filter (·.key = r.key) := by
  rw [← filter_tied rfl fun s => ruleClass_of_mem_members, members_ofList_eq_sortOrdered,
    filter_tied_sortOrdered r.ruleClass.le_total r.ruleClass.le_trans,
    filter_tied rfl fun s => ruleClass_of_mem_filter]
  exact filter_ruleClass_key rules r.key

/-- Two lists of rules make the same set if and only if they agree on the rules with each key. -/
theorem ofList_eq_iff {rules' : List Rule} : ofList rules = ofList rules' ↔
    ∀ r : Rule, rules.filter (·.key = r.key) = rules'.filter (·.key = r.key) := by
  constructor
  · intro h r
    rw [← filter_key_members, h, filter_key_members]
  · intro h
    refine ext fun c => ?_
    have hordered (rules : List Rule) :
        ((ofList rules).members c).Pairwise fun r s => c.le r s = true := by
      rw [members_ofList_eq_sortOrdered]
      exact sortOrdered_pairwise c.le_total c.le_trans _
    refine eq_of_filter_tied (hordered rules) (hordered rules')
      (fun r => (c.le_total r r).elim id id) fun r hr => ?_
    obtain rfl : r.ruleClass = c := hr.elim ruleClass_of_mem_members ruleClass_of_mem_members
    rw [filter_tied rfl fun s => ruleClass_of_mem_members,
      filter_tied rfl fun s => ruleClass_of_mem_members, filter_key_members, filter_key_members, h r]

end RuleSet

/-! ## Selection -/

/-- The key matches the head of the target or of a hypothesis. -/
def IndexKey.hits (target : Term) (hyps : LocalContext) : IndexKey → Bool
  | .target head => target.head? = some head
  | .hyp head => hyps.any (·.type.head? = some head)

/-- The rule has no key, or one of its keys matches. -/
def Rule.isSelected (r : Rule) (target : Term) (hyps : LocalContext) : Bool :=
  r.index.isEmpty || r.index.any (·.hits target hyps)

section

variable {target : Term} {hyps : LocalContext} {r : Rule} {m : IndexMatch}

theorem IndexKey.locations_ne_nil {key : IndexKey} :
    key.locations target hyps ≠ [] ↔ key.hits target hyps = true := by
  cases key with
  | target head => simp [locations, hits]
  | hyp head => simp [locations, hits]

theorem nodup_eraseDups {α : Type} [DecidableEq α] (as : List α) : as.eraseDups.Nodup := by
  cases as with
  | nil => exact .nil
  | cons a as =>
    rw [List.eraseDups_cons, List.nodup_cons]
    exact ⟨by simp, nodup_eraseDups _⟩
termination_by as.length
decreasing_by exact Nat.lt_succ_of_le (List.length_filter_le ..)

/-- A selected rule comes with the places where its keys match, each once. -/
theorem Rule.locations?_eq (r : Rule) (target : Term) (hyps : LocalContext) :
    r.locations? target hyps = if r.isSelected target hyps then
      some (r.index.flatMap (·.locations target hyps)).eraseDups else none := by
  by_cases hindex : r.index = []
  · simp [locations?, isSelected, hindex]
  · have hempty : (r.index.flatMap (·.locations target hyps)).eraseDups = [] ↔
        r.isSelected target hyps = false := by
      simp only [List.eq_nil_iff_forall_not_mem, List.mem_eraseDups]
      rw [← List.eq_nil_iff_forall_not_mem, List.flatMap_eq_nil_iff]
      simp [isSelected, hindex, ← IndexKey.locations_ne_nil]
    rw [locations?, if_neg (by simpa using hindex)]
    split
    · next hnone => simp [hempty.1 hnone]
    · next hsome => rw [if_pos (by simpa using mt hempty.2 hsome)]

theorem selectRules_eq (rules : List Rule) (target : Term) (hyps : LocalContext) :
    selectRules rules target hyps = (rules.filter (·.isSelected target hyps)).map fun r =>
      ⟨r, (r.index.flatMap (·.locations target hyps)).eraseDups⟩ := by
  induction rules with
  | nil => rfl
  | cons r rules ih =>
    unfold selectRules at ih ⊢
    cases hr : r.isSelected target hyps with
    | false =>
      rw [List.filterMap_cons_none (by simp [Rule.locations?_eq, hr]), ih,
        List.filter_cons_of_neg (by simp [hr])]
    | true =>
      rw [List.filterMap_cons_some (by simp only [Rule.locations?_eq, hr]; rfl), ih,
        List.filter_cons_of_pos (by exact hr), List.map_cons]

theorem IndexKey.target_mem_locations {key : IndexKey} : .target ∈ key.locations target hyps ↔
    ∃ head, key = .target head ∧ target.head? = some head := by
  cases key with
  | target head => simp [locations]
  | hyp head => simp [locations]

theorem IndexKey.hyp_mem_locations {key : IndexKey} {name : String} :
    .hyp name ∈ key.locations target hyps ↔
      ∃ h ∈ hyps, h.name = name ∧ ∃ head, key = .hyp head ∧ h.type.head? = some head := by
  cases key with
  | target head => simp [locations]
  | hyp head => simp [locations, and_comm, and_left_comm]

end

/-- The rules of a class selected for a goal. -/
def RuleQuery.select (q : RuleQuery) : RuleClass → Term → LocalContext → List IndexMatch
  | .norm => q.norm
  | .safe => q.safe
  | .tentative => q.tentative

namespace RuleSet

theorem select_query (rs : RuleSet) (c : RuleClass) (target : Term) (hyps : LocalContext) :
    rs.query.select c target hyps = selectRules (rs.members c) target hyps := by
  cases c <;> rfl

/-- Each class of a rule set holds the rules that were added to it in the order of one stable sort,
so that two orders of adding make the same set if and only if they agree on the rules with equal
keys.  The rules selected for a goal are, in this order, those that have no index key or have one
that matches the head of the target or of a hypothesis.  They come with the places of the matches,
each once. -/
theorem ofList_canonical (rules : List Rule) :
    (∀ c, (ofList rules).members c =
      (rules.filter (·.ruleClass = c)).mergeSort fun r s => decide (c.Precedes r s)) ∧
    (∀ rules', ofList rules = ofList rules' ↔
      ∀ r : Rule, rules.filter (·.key = r.key) = rules'.filter (·.key = r.key)) ∧
    ∀ c target hyps,
      ((ofList rules).query.select c target hyps).map (·.rule) =
        ((ofList rules).members c).filter (·.isSelected target hyps) ∧
      ∀ m ∈ (ofList rules).query.select c target hyps, m.locations.Nodup ∧
        (.target ∈ m.locations ↔
          ∃ head, .target head ∈ m.rule.index ∧ target.head? = some head) ∧
        ∀ name, .hyp name ∈ m.locations ↔ ∃ h ∈ hyps, h.name = name ∧
          ∃ head, .hyp head ∈ m.rule.index ∧ h.type.head? = some head := by
  refine ⟨members_ofList rules, fun rules' => ofList_eq_iff, fun c target hyps => ?_⟩
  rw [select_query, selectRules_eq]
  refine ⟨by simp [Function.comp_def], fun m hm => ?_⟩
  obtain ⟨r, -, rfl⟩ := List.mem_map.1 hm
  refine ⟨nodup_eraseDups _, ?_, fun name => ?_⟩
  · simp only [List.mem_eraseDups, List.mem_flatMap, IndexKey.target_mem_locations]
    constructor
    · rintro ⟨_, hkey, head, rfl, hhead⟩
      exact ⟨head, hkey, hhead⟩
    · rintro ⟨head, hkey, hhead⟩
      exact ⟨_, hkey, head, rfl, hhead⟩
  · simp only [List.mem_eraseDups, List.mem_flatMap, IndexKey.hyp_mem_locations]
    constructor
    · rintro ⟨_, hkey, h, hh, hname, head, rfl, hhead⟩
      exact ⟨h, hh, hname, head, hkey, hhead⟩
    · rintro ⟨h, hh, hname, head, hkey, hhead⟩
      exact ⟨_, hkey, h, hh, hname, head, rfl, hhead⟩

/-- Three safe rules; the last one is the first in order, and the first one has three keys. -/
def splitting : List Rule := [
  ⟨"or", .safe 5 .safe, [.hyp "Or", .target "And", .hyp "And"], fun _ => throw .noApplications⟩,
  ⟨"and", .safe 5 .almostSafe, [.target "And"], fun _ => throw .noApplications⟩,
  ⟨"any", .safe (-5) .safe, [], fun _ => throw .noApplications⟩]

/-- Two hypotheses of one name match different keys of one rule. -/
theorem ofList_canonical_splitting : ∃ m ∈ (ofList splitting).query.select .safe
      (.app "And" [.const "A", .const "B"])
      [⟨"h", .app "Or" [.const "A", .const "B"]⟩, ⟨"h", .app "And" [.const "C", .const "D"]⟩],
    m.rule.name = "or" ∧ m.locations = [.hyp "h", .target] ∧ m.locations.Nodup ∧
    ((ofList splitting).members .safe).map (·.name) = ["any", "and", "or"] := by
  obtain ⟨m, hm, hname, hlocations⟩ : ∃ m ∈ (ofList splitting).query.select .safe
      (.app "And" [.const "A", .const "B"])
      [⟨"h", .app "Or" [.const "A", .const "B"]⟩, ⟨"h", .app "And" [.const "C", .const "D"]⟩],
      m.rule.name = "or" ∧ m.locations = [.hyp "h", .target] := by
    decide +kernel
  exact ⟨m, hm, hname, hlocations, (((ofList_canonical splitting).2.2 ..).2 m hm).1,
    by decide +kernel⟩

end RuleSet

end ProofSearch
