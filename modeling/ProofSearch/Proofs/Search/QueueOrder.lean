import Mathlib.Data.Multiset.AddSub
import ProofSearch.Proofs.Search.Queue

/-!
# The order of a queue

A queue is used by pushes of one or of several goals and by pops, in any order.  Three simpler
containers say what the pops must answer: a bag from which the foremost entry is taken, a stack and
a line.

1. `QueueEntry.Sooner`: the order of best-first search; `QueueEntry.order_eq_lt`: queues compare by
   it.
2. `QueueOp`, `GoalQueue.performAll`: the operations on a queue.
3. `BagServes`, `serveFront`: the simpler containers.  `BagServes.unique`: a bag leaves no choice.
4. `GoalQueue.answers_reference`: the queues answer as the simpler containers do, and hold what was
   pushed and not yet taken.
-/

namespace ProofSearch

/-! ## The order of entries -/

namespace QueueEntry

variable {a b : QueueEntry}

/-- The entry `a` is taken before `b`: it has the greater probability, was expanded less recently,
was added earlier or has the smaller number, in this order of importance. -/
def Sooner (a b : QueueEntry) : Prop :=
  compare b.probability a.probability = .lt ∨ a.probability = b.probability ∧
    (a.expandedIn < b.expandedIn ∨ a.expandedIn = b.expandedIn ∧
      (a.addedIn < b.addedIn ∨ a.addedIn = b.addedIn ∧ a.goal.index < b.goal.index))

theorem order_eq_lt : a.order b = .lt ↔ a.Sooner b := by
  simp only [order, Sooner, Ordering.then_eq_lt, Ordering.then_eq_eq, Nat.compare_eq_lt,
    Std.LawfulEqOrd.compare_eq_iff_eq]
  grind

/-- Entries that differ are never equal in the order. -/
theorem order_eq_eq : a.order b = .eq ↔ a = b := by
  obtain ⟨⟨g⟩, p, e, i⟩ := a
  obtain ⟨⟨h⟩, q, f, j⟩ := b
  simp only [order, Ordering.then_eq_eq, Std.LawfulEqOrd.compare_eq_iff_eq, mk.injEq, GoalId.mk.injEq]
  grind

instance : Std.TransCmp order :=
  have : Std.TransCmp (fun a b : QueueEntry => compareOn probability b a) := .opposite
  inferInstanceAs (Std.TransCmp (compareLex (compareLex (compareLex
    (fun a b => compareOn probability b a) (compareOn expandedIn)) (compareOn addedIn))
    (compareOn (·.goal.index))))

theorem isLE_order : (a.order b).isLE = true ↔ b = a ∨ a.Sooner b := by
  rw [@eq_comm _ b, ← order_eq_eq, ← order_eq_lt]
  cases a.order b <;> simp

theorem order_swap (a b : QueueEntry) : b.order a = (a.order b).swap :=
  Std.OrientedCmp.eq_swap

theorem isLE_order_total (a b : QueueEntry) :
    (a.order b).isLE = true ∨ (b.order a).isLE = true := by
  rw [order_swap a b]
  cases a.order b <;> simp

theorem Sooner.asymm (h : a.Sooner b) : ¬ b.Sooner a := by
  rw [← order_eq_lt] at h ⊢
  rw [order_swap a b, h]
  nofun

end QueueEntry

/-! ## Operations -/

/-- An operation on a queue. -/
inductive QueueOp where
  | push (e : QueueEntry)
  | pushAll (es : List QueueEntry)
  | pop
deriving DecidableEq

/-- The entries that an operation brings. -/
def QueueOp.entries : QueueOp → List QueueEntry
  | .push e => [e]
  | .pushAll es => es
  | .pop => []

namespace GoalQueue

/-- Performs operations one after the other: the answers to the pops and the queue in the end. -/
def performAll (q : GoalQueue) : List QueueOp → List (Option GoalId) × GoalQueue
  | [] => ([], q)
  | .push e :: ops => (q.push e).performAll ops
  | .pushAll es :: ops => (q.pushAll es).performAll ops
  | .pop :: ops =>
    match q.pop? with
    | none =>
      let (answers, last) := q.performAll ops
      (none :: answers, last)
    | some (g, q') =>
      let (answers, last) := q'.performAll ops
      (some g :: answers, last)

theorem performAll_pop_nil {q : GoalQueue} (hq : q.pending = []) (ops : List QueueOp) :
    q.performAll (.pop :: ops) = (none :: (q.performAll ops).1, (q.performAll ops).2) := by
  simp only [performAll, pop?, hq]

theorem performAll_pop_cons {q : GoalQueue} {e : QueueEntry} {rest : List QueueEntry}
    (hq : q.pending = e :: rest) (ops : List QueueOp) :
    q.performAll (.pop :: ops) =
      (some e.goal :: (performAll { q with pending := rest } ops).1,
        (performAll { q with pending := rest } ops).2) := by
  simp only [performAll, pop?, hq]

@[simp] theorem strategy_push (q : GoalQueue) (e : QueueEntry) :
    (q.push e).strategy = q.strategy := by
  unfold push
  split <;> rfl

theorem strategy_foldl_push (q : GoalQueue) (es : List QueueEntry) :
    (es.foldl push q).strategy = q.strategy := by
  induction es generalizing q with
  | nil => rfl
  | cons e es ih => exact (ih _).trans (q.strategy_push e)

@[simp] theorem strategy_pushAll (q : GoalQueue) (es : List QueueEntry) :
    (q.pushAll es).strategy = q.strategy := by
  unfold pushAll
  split <;> exact q.strategy_foldl_push _

/-- Later operations go on from where earlier ones have ended. -/
theorem performAll_append (q : GoalQueue) (ops more : List QueueOp) :
    q.performAll (ops ++ more) =
      ((q.performAll ops).1 ++ ((q.performAll ops).2.performAll more).1,
        ((q.performAll ops).2.performAll more).2) := by
  induction ops generalizing q with
  | nil => rfl
  | cons op ops ih =>
    cases op with
    | push e => exact ih (q.push e)
    | pushAll es => exact ih (q.pushAll es)
    | pop =>
      simp only [List.cons_append, performAll]
      cases q.pop? with
      | none => simp only [ih, List.cons_append]
      | some taken => simp only [ih, List.cons_append]

/-- Nothing is lost and nothing is made up. -/
theorem performAll_perm (q : GoalQueue) (ops : List QueueOp) :
    ((q.performAll ops).1.reduceOption ++ (q.performAll ops).2.pending.map (·.goal)).Perm
      ((ops.flatMap QueueOp.entries ++ q.pending).map (·.goal)) := by
  induction ops generalizing q with
  | nil => exact .refl _
  | cons op ops ih =>
    cases op with
    | push e =>
      refine (ih (q.push e)).trans (List.Perm.map _ ?_)
      calc ops.flatMap QueueOp.entries ++ (q.push e).pending
        _ |>.Perm (ops.flatMap QueueOp.entries ++ e :: q.pending) := (q.push_perm e).append_left _
        _ |>.Perm (e :: ops.flatMap QueueOp.entries ++ q.pending) := List.perm_middle
    | pushAll es =>
      refine (ih (q.pushAll es)).trans (List.Perm.map _ ?_)
      calc ops.flatMap QueueOp.entries ++ (q.pushAll es).pending
        _ |>.Perm (ops.flatMap QueueOp.entries ++ (es ++ q.pending)) :=
          (q.pushAll_perm es).append_left _
        _ |>.Perm (es ++ ops.flatMap QueueOp.entries ++ q.pending) := by
          rw [← List.append_assoc]
          exact List.perm_append_comm.append_right _
    | pop =>
      cases hq : q.pending with
      | nil =>
        rw [performAll_pop_nil hq, ← hq]
        exact ih q
      | cons e rest =>
        rw [performAll_pop_cons hq]
        have hfront : (e :: (ops.flatMap QueueOp.entries ++ rest)).Perm
            (ops.flatMap QueueOp.entries ++ e :: rest) := List.perm_middle.symm
        exact ((ih { q with pending := rest }).cons e.goal).trans (hfront.map QueueEntry.goal)

/-! ## A bag -/

/-- The answers of a bag of entries from which every pop takes the entry that comes before all
others, and the entries it holds in the end. -/
inductive BagServes : Multiset QueueEntry → List QueueOp → List (Option GoalId) →
    Multiset QueueEntry → Prop
  | done {held : Multiset QueueEntry} : BagServes held [] [] held
  | push {held last : Multiset QueueEntry} {e : QueueEntry} {ops : List QueueOp}
      {answers : List (Option GoalId)} : BagServes (e ::ₘ held) ops answers last →
      BagServes held (.push e :: ops) answers last
  | pushAll {held last : Multiset QueueEntry} {es : List QueueEntry} {ops : List QueueOp}
      {answers : List (Option GoalId)} : BagServes (↑es + held) ops answers last →
      BagServes held (.pushAll es :: ops) answers last
  | pop {held last : Multiset QueueEntry} {e : QueueEntry} {ops : List QueueOp}
      {answers : List (Option GoalId)} : (∀ k ∈ held, k = e ∨ e.Sooner k) →
      BagServes held ops answers last →
      BagServes (e ::ₘ held) (.pop :: ops) (some e.goal :: answers) last
  | popEmpty {last : Multiset QueueEntry} {ops : List QueueOp}
      {answers : List (Option GoalId)} : BagServes 0 ops answers last →
      BagServes 0 (.pop :: ops) (none :: answers) last

/-- One entry comes before all others, so a bag has one way to answer. -/
theorem BagServes.unique {held last last' : Multiset QueueEntry} {ops : List QueueOp}
    {answers answers' : List (Option GoalId)} (h : BagServes held ops answers last)
    (h' : BagServes held ops answers' last') : answers' = answers ∧ last' = last := by
  induction h generalizing answers' last' with
  | done =>
    cases h'
    exact ⟨rfl, rfl⟩
  | push _ ih =>
    cases h' with
    | push h' => exact ih h'
  | pushAll _ ih =>
    cases h' with
    | pushAll h' => exact ih h'
  | @pop held last e ops answers hfirst _ ih =>
    generalize hbag : e ::ₘ held = bag at h'
    cases h' with
    | @pop held' _ e' _ _ hfirst' h' =>
      have he : e' = e := by
        have hmem : e' ∈ e ::ₘ held := hbag ▸ Multiset.mem_cons_self e' held'
        have hmem' : e ∈ e' ::ₘ held' := hbag ▸ Multiset.mem_cons_self e held
        rcases Multiset.mem_cons.1 hmem with h | h
        · exact h
        rcases Multiset.mem_cons.1 hmem' with h₂ | h₂
        · exact h₂.symm
        -- both come before each other unless they are the same
        rcases hfirst e' h with h | h
        · exact h
        rcases hfirst' e h₂ with h₂ | h₂
        · exact h₂.symm
        · exact (h.asymm h₂).elim
      subst he
      obtain rfl := (Multiset.cons_inj_right e').1 hbag
      obtain ⟨rfl, rfl⟩ := ih h'
      exact ⟨rfl, rfl⟩
    | popEmpty => exact (Multiset.cons_ne_zero hbag).elim
  | popEmpty _ ih =>
    generalize hbag : (0 : Multiset QueueEntry) = bag at h'
    cases h' with
    | pop => exact (Multiset.zero_ne_cons hbag).elim
    | popEmpty h' =>
      obtain ⟨rfl, rfl⟩ := ih h'
      exact ⟨rfl, rfl⟩

/-- A bag from which nothing is taken holds what was put into it. -/
theorem BagServes.of_pushes {held last : Multiset QueueEntry} {ops : List QueueOp}
    {answers : List (Option GoalId)} (h : BagServes held ops answers last) (hops : .pop ∉ ops) :
    answers = [] ∧ last = ↑(ops.flatMap QueueOp.entries) + held := by
  induction h with
  | done => exact ⟨rfl, (Multiset.zero_add _).symm⟩
  | @push held last e ops answers _ ih =>
    obtain ⟨hanswers, hlast⟩ := ih fun hmem => hops (List.mem_cons_of_mem _ hmem)
    refine ⟨hanswers, hlast.trans ?_⟩
    rw [Multiset.add_cons, ← Multiset.cons_add]
    rfl
  | @pushAll held last es ops answers _ ih =>
    obtain ⟨hanswers, hlast⟩ := ih fun hmem => hops (List.mem_cons_of_mem _ hmem)
    refine ⟨hanswers, hlast.trans ?_⟩
    rw [← Multiset.add_assoc, Multiset.coe_add]
    exact congrArg (· + held) (Multiset.coe_eq_coe.2 List.perm_append_comm)
  | pop => exact (hops List.mem_cons_self).elim
  | popEmpty => exact (hops List.mem_cons_self).elim

/-- The entries of a best-first queue are in order. -/
structure Ordered (q : GoalQueue) : Prop where
  strategy : q.strategy = .bestFirst
  pending : q.pending.Pairwise fun a b => (a.order b).isLE = true

namespace Ordered

variable {q : GoalQueue}

theorem empty : Ordered (.empty .bestFirst) := ⟨rfl, .nil⟩

theorem push (h : Ordered q) (e : QueueEntry) : Ordered (q.push e) := by
  refine ⟨(q.strategy_push e).trans h.strategy, ?_⟩
  simp only [GoalQueue.push, h.strategy]
  exact insertOrdered_pairwise QueueEntry.isLE_order_total
    (fun _ _ _ => Std.TransCmp.isLE_trans) e h.pending

theorem pushAll (h : Ordered q) (es : List QueueEntry) : Ordered (q.pushAll es) := by
  simp only [GoalQueue.pushAll, h.strategy]
  induction es generalizing q with
  | nil => exact h
  | cons e es ih => exact ih (h.push e)

/-- What is taken from the front comes before all the rest. -/
theorem first {e : QueueEntry} {rest : List QueueEntry} (h : Ordered q)
    (hq : q.pending = e :: rest) :
    (∀ k ∈ rest, k = e ∨ e.Sooner k) ∧ Ordered { q with pending := rest } := by
  have hpending := h.pending
  rw [hq, List.pairwise_cons] at hpending
  exact ⟨fun k hk => QueueEntry.isLE_order.1 (hpending.1 k hk), h.strategy, hpending.2⟩

theorem performAll (h : Ordered q) (ops : List QueueOp) : Ordered (q.performAll ops).2 := by
  induction ops generalizing q with
  | nil => exact h
  | cons op ops ih =>
    cases op with
    | push e => exact ih (h.push e)
    | pushAll es => exact ih (h.pushAll es)
    | pop =>
      cases hq : q.pending with
      | nil => exact performAll_pop_nil hq ops ▸ ih h
      | cons e rest => exact performAll_pop_cons hq ops ▸ ih (h.first hq).2

/-- An ordered queue answers as the bag of its entries does. -/
theorem bagServes (h : Ordered q) (ops : List QueueOp) :
    BagServes q.pending ops (q.performAll ops).1 (q.performAll ops).2.pending := by
  induction ops generalizing q with
  | nil => exact .done
  | cons op ops ih =>
    cases op with
    | push e =>
      have hbag : ((q.push e).pending : Multiset QueueEntry) = e ::ₘ q.pending :=
        Multiset.coe_eq_coe.2 (q.push_perm e)
      exact .push (hbag ▸ ih (h.push e))
    | pushAll es =>
      have hbag : ((q.pushAll es).pending : Multiset QueueEntry) = ↑es + ↑q.pending :=
        Multiset.coe_eq_coe.2 (q.pushAll_perm es)
      exact .pushAll (hbag ▸ ih (h.pushAll es))
    | pop =>
      cases hq : q.pending with
      | nil =>
        have hrest := ih h
        rw [hq] at hrest
        rw [performAll_pop_nil hq]
        exact .popEmpty hrest
      | cons e rest =>
        obtain ⟨hfirst, hrest⟩ := h.first hq
        rw [performAll_pop_cons hq]
        exact .pop hfirst (ih hrest)

/-- Ordered queues with the same entries are equal. -/
theorem ext {q' : GoalQueue} (h : Ordered q) (h' : Ordered q')
    (hperm : q.pending.Perm q'.pending) : q = q' := by
  obtain ⟨strategy, pending⟩ := q
  obtain ⟨strategy', pending'⟩ := q'
  obtain rfl : strategy = .bestFirst := h.strategy
  obtain rfl : strategy' = .bestFirst := h'.strategy
  have hanti (a b : QueueEntry) (hab : (a.order b).isLE = true) (hba : (b.order a).isLE = true) :
      a = b := QueueEntry.order_eq_eq.1 (Std.OrientedCmp.isLE_antisymm hab hba)
  exact congrArg _ (hperm.eq_of_pairwise (fun a b _ _ => hanti a b) h.pending h'.pending)

end Ordered

/-- Whatever is pushed in whatever order makes the same best-first queue. -/
theorem performAll_pushes {ops ops' : List QueueOp} (h : .pop ∉ ops) (h' : .pop ∉ ops')
    (hperm : (ops.flatMap QueueOp.entries).Perm (ops'.flatMap QueueOp.entries)) :
    (empty .bestFirst).performAll ops = (empty .bestFirst).performAll ops' := by
  obtain ⟨hanswers, hlast⟩ := (Ordered.empty.bagServes ops).of_pushes h
  obtain ⟨hanswers', hlast'⟩ := (Ordered.empty.bagServes ops').of_pushes h'
  have hheld := hlast.trans ((congrArg (· + _) (Multiset.coe_eq_coe.2 hperm)).trans hlast'.symm)
  refine Prod.ext (hanswers.trans hanswers'.symm) ?_
  exact (Ordered.empty.performAll ops).ext (Ordered.empty.performAll ops')
    (Multiset.coe_eq_coe.1 hheld)

/-! ## Stacks and lines -/

/-- The answers of a list from whose front goals are taken and into which `join` puts new ones, and
the goals it holds in the end. -/
def serveFront (join : List GoalId → List GoalId → List GoalId) :
    List GoalId → List QueueOp → List (Option GoalId) × List GoalId
  | held, [] => ([], held)
  | held, .push e :: ops => serveFront join (join [e.goal] held) ops
  | held, .pushAll es :: ops => serveFront join (join (es.map (·.goal)) held) ops
  | [], .pop :: ops =>
    let (answers, last) := serveFront join [] ops
    (none :: answers, last)
  | g :: held, .pop :: ops =>
    let (answers, last) := serveFront join held ops
    (some g :: answers, last)

/-- A queue answers as a list does whose goals are joined as those of the queue are. -/
theorem performAll_eq_serveFront {join : List GoalId → List GoalId → List GoalId} {s : Strategy}
    (hpush : ∀ (q : GoalQueue) e, q.strategy = s →
      (q.push e).pending.map (·.goal) = join [e.goal] (q.pending.map (·.goal)))
    (hpushAll : ∀ (q : GoalQueue) es, q.strategy = s →
      (q.pushAll es).pending.map (·.goal) = join (es.map (·.goal)) (q.pending.map (·.goal)))
    (ops : List QueueOp) {q : GoalQueue} (hs : q.strategy = s) :
    ((q.performAll ops).1, (q.performAll ops).2.pending.map (·.goal)) =
      serveFront join (q.pending.map (·.goal)) ops := by
  induction ops generalizing q with
  | nil => rfl
  | cons op ops ih =>
    cases op with
    | push e =>
      rw [serveFront, ← hpush q e hs]
      exact ih ((q.strategy_push e).trans hs)
    | pushAll es =>
      rw [serveFront, ← hpushAll q es hs]
      exact ih ((q.strategy_pushAll es).trans hs)
    | pop =>
      cases hq : q.pending with
      | nil =>
        have hrest := ih hs
        rw [hq] at hrest
        rw [performAll_pop_nil hq, List.map_nil, serveFront, ← List.map_nil, ← hrest]
      | cons e rest =>
        have hrest := ih (q := { q with pending := rest }) hs
        rw [performAll_pop_cons hq, List.map_cons, serveFront, ← hrest]

theorem pending_push_depthFirst {q : GoalQueue} (e : QueueEntry)
    (hs : q.strategy = .depthFirst) : (q.push e).pending = e :: q.pending := by
  simp only [push, hs]

theorem pending_push_breadthFirst {q : GoalQueue} (e : QueueEntry)
    (hs : q.strategy = .breadthFirst) : (q.push e).pending = q.pending ++ [e] := by
  simp only [push, hs]

/-- Goals pushed last first end up in their order. -/
theorem pending_pushAll_depthFirst {q : GoalQueue} (es : List QueueEntry)
    (hs : q.strategy = .depthFirst) : (q.pushAll es).pending = es ++ q.pending := by
  simp only [pushAll, hs]
  induction es with
  | nil => rfl
  | cons e es ih =>
    rw [List.reverse_cons, List.foldl_append, List.foldl_cons, List.foldl_nil,
      pending_push_depthFirst e ((strategy_foldl_push ..).trans hs), ih, List.cons_append]

theorem pending_pushAll_breadthFirst {q : GoalQueue} (es : List QueueEntry)
    (hs : q.strategy = .breadthFirst) : (q.pushAll es).pending = q.pending ++ es := by
  simp only [pushAll, hs]
  induction es generalizing q with
  | nil => exact (List.append_nil _).symm
  | cons e es ih =>
    rw [List.foldl_cons, ih ((q.strategy_push e).trans hs), pending_push_breadthFirst e hs,
      List.append_assoc, List.singleton_append]

/-- In every use of a queue that is empty at first, the goals taken and the goals pending are those
that were pushed.  A best-first queue answers as a bag does from which the foremost entry is taken;
there is no other way to do so, and pushes in another order or grouping make no difference to what
follows.  A depth-first queue answers as a stack, where several goals are put on top in their order,
and a breadth-first queue as a line. -/
theorem answers_reference (ops : List QueueOp) :
    (∀ strategy, (((empty strategy).performAll ops).1.reduceOption ++
      ((empty strategy).performAll ops).2.pending.map (·.goal)).Perm
        ((ops.flatMap QueueOp.entries).map (·.goal))) ∧
    (∀ answers held, BagServes 0 ops answers held ↔
      answers = ((empty .bestFirst).performAll ops).1 ∧
        held = ((empty .bestFirst).performAll ops).2.pending) ∧
    (∀ ops', .pop ∉ ops → .pop ∉ ops' →
      (ops.flatMap QueueOp.entries).Perm (ops'.flatMap QueueOp.entries) →
      ∀ more, (empty .bestFirst).performAll (ops ++ more) =
        (empty .bestFirst).performAll (ops' ++ more)) ∧
    (((empty .depthFirst).performAll ops).1, ((empty .depthFirst).performAll ops).2.pending.map
      (·.goal)) = serveFront (fun new held => new ++ held) [] ops ∧
    (((empty .breadthFirst).performAll ops).1, ((empty .breadthFirst).performAll ops).2.pending.map
      (·.goal)) = serveFront (fun new held => held ++ new) [] ops := by
  refine ⟨fun strategy => ?_, fun answers held => ⟨fun h => ?_, ?_⟩,
    fun ops' h h' hperm more => ?_, ?_, ?_⟩
  · have hperm := (empty strategy).performAll_perm ops
    rwa [show (empty strategy).pending = [] from rfl, List.append_nil] at hperm
  · exact (Ordered.empty.bagServes ops).unique h
  · rintro ⟨rfl, rfl⟩
    exact Ordered.empty.bagServes ops
  · rw [performAll_append, performAll_append, performAll_pushes h h' hperm]
  · refine performAll_eq_serveFront (fun q e hs => ?_) (fun q es hs => ?_) ops rfl
    · rw [pending_push_depthFirst e hs, List.map_cons, List.singleton_append]
    · rw [pending_pushAll_depthFirst es hs, List.map_append]
  · refine performAll_eq_serveFront (fun q e hs => ?_) (fun q es hs => ?_) ops rfl
    · rw [pending_push_breadthFirst e hs, List.map_append, List.map_singleton]
    · rw [pending_pushAll_breadthFirst es hs, List.map_append]

/-- Four goals, of which the second is the most probable one and the others differ in age. -/
def aged : List QueueEntry :=
  [⟨⟨1⟩, .fifty, 0, 1⟩, ⟨⟨2⟩, .ninety, 0, 2⟩, ⟨⟨3⟩, .fifty, 4, 1⟩, ⟨⟨4⟩, .fifty, 0, 0⟩]

/-- The goals are taken in the same order however they were pushed. -/
theorem answers_reference_aged :
    (aged.reverse.map QueueOp.push).flatMap QueueOp.entries = aged.reverse ∧
    (empty .bestFirst).performAll ([.pushAll aged] ++ List.replicate 5 .pop) =
      ([some ⟨2⟩, some ⟨4⟩, some ⟨1⟩, some ⟨3⟩, none], empty .bestFirst) ∧
    (empty .bestFirst).performAll (aged.reverse.map .push ++ List.replicate 5 .pop) =
      ([some ⟨2⟩, some ⟨4⟩, some ⟨1⟩, some ⟨3⟩, none], empty .bestFirst) := by
  have hentries : (aged.reverse.map QueueOp.push).flatMap QueueOp.entries = aged.reverse := by decide
  have hdrained : (empty .bestFirst).performAll ([.pushAll aged] ++ List.replicate 5 .pop) =
      ([some ⟨2⟩, some ⟨4⟩, some ⟨1⟩, some ⟨3⟩, none], empty .bestFirst) := rfl
  refine ⟨hentries, hdrained, hdrained ▸ ((answers_reference [.pushAll aged]).2.2.1 _
    (by decide) (by decide) ?_ (List.replicate 5 .pop)).symm⟩
  rw [hentries]
  exact aged.reverse_perm.symm

end GoalQueue

end ProofSearch
