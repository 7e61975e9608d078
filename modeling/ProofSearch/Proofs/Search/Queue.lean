import ProofSearch.Search.Queue

/-!
# What a queue holds

1. `insertOrdered_perm`, `sortOrdered_perm`: ordering adds and drops nothing.
2. `sortOrdered_pairwise`: what is sorted by a total order is in order.
3. `GoalQueue.push_perm`, `GoalQueue.pushAll_perm`: under every strategy a queue holds what it held
   and what was pushed.
-/

namespace ProofSearch

theorem insertOrdered_perm {α : Type} (le : α → α → Bool) (a : α) (bs : List α) :
    (insertOrdered le a bs).Perm (a :: bs) := by
  induction bs with
  | nil => exact .refl _
  | cons b bs ih =>
    unfold insertOrdered
    split
    · exact (ih.cons b).trans (.swap a b bs)
    · exact .refl _

theorem sortOrdered_perm {α : Type} (le : α → α → Bool) (as : List α) :
    (sortOrdered le as).Perm as := by
  have hfold (bs : List α) :
      (as.foldl (fun sorted a => insertOrdered le a sorted) bs).Perm (as ++ bs) := by
    induction as generalizing bs with
    | nil => exact .refl _
    | cons a as ih =>
      calc as.foldl (fun sorted a => insertOrdered le a sorted) (insertOrdered le a bs)
        _ |>.Perm (as ++ insertOrdered le a bs) := ih _
        _ |>.Perm (as ++ a :: bs) := (insertOrdered_perm le a bs).append_left as
        _ |>.Perm (a :: as ++ bs) := List.perm_middle
  simpa [sortOrdered] using hfold []

section

variable {α : Type} {le : α → α → Bool} (total : ∀ a b, le a b = true ∨ le b a = true)
  (trans : ∀ a b c, le a b = true → le b c = true → le a c = true)

include total trans

theorem insertOrdered_pairwise (a : α) {bs : List α} (h : bs.Pairwise fun b c => le b c = true) :
    (insertOrdered le a bs).Pairwise fun b c => le b c = true := by
  induction bs with
  | nil => exact List.pairwise_singleton _ a
  | cons b bs ih =>
    obtain ⟨hb, hbs⟩ := List.pairwise_cons.1 h
    unfold insertOrdered
    split
    · next hle =>
      refine List.pairwise_cons.2 ⟨fun c hc => ?_, ih hbs⟩
      rcases List.mem_cons.1 ((insertOrdered_perm le a bs).mem_iff.1 hc) with rfl | hc
      · exact hle
      · exact hb c hc
    · next hle =>
      have hab : le a b = true := (total a b).resolve_right hle
      refine List.pairwise_cons.2 ⟨fun c hc => ?_, h⟩
      rcases List.mem_cons.1 hc with rfl | hc
      · exact hab
      · exact trans a b c hab (hb c hc)

theorem sortOrdered_pairwise (as : List α) :
    (sortOrdered le as).Pairwise fun b c => le b c = true := by
  have hfold (bs : List α) (h : bs.Pairwise fun b c => le b c = true) :
      (as.foldl (fun sorted a => insertOrdered le a sorted) bs).Pairwise
        fun b c => le b c = true := by
    induction as generalizing bs with
    | nil => exact h
    | cons a as ih => exact ih _ (insertOrdered_pairwise total trans a h)
  exact hfold [] .nil

end

namespace GoalQueue

theorem push_perm (q : GoalQueue) (e : QueueEntry) :
    (q.push e).pending.Perm (e :: q.pending) := by
  unfold push
  split
  · exact insertOrdered_perm _ e q.pending
  · exact .refl _
  · exact List.perm_append_singleton e q.pending

theorem foldl_push_perm (q : GoalQueue) (es : List QueueEntry) :
    (es.foldl push q).pending.Perm (es ++ q.pending) := by
  induction es generalizing q with
  | nil => exact .refl _
  | cons e es ih =>
    calc (es.foldl push (q.push e)).pending
      _ |>.Perm (es ++ (q.push e).pending) := ih (q.push e)
      _ |>.Perm (es ++ e :: q.pending) := (q.push_perm e).append_left es
      _ |>.Perm (e :: es ++ q.pending) := List.perm_middle

theorem pushAll_perm (q : GoalQueue) (es : List QueueEntry) :
    (q.pushAll es).pending.Perm (es ++ q.pending) := by
  unfold pushAll
  split
  · exact (q.foldl_push_perm es.reverse).trans (es.reverse_perm.append_right q.pending)
  · exact q.foldl_push_perm es
  · exact q.foldl_push_perm es

end GoalQueue

end ProofSearch
