import ProofSearch.Proofs.Search.Errors
import ProofSearch.Proofs.Search.Moves
import ProofSearch.Proofs.Search.Queue
import ProofSearch.Rule.Clause

/-!
# Searches do not run dry

As long as the root is undecided the queue holds an active goal.

1. `Steady`: nothing in the tree is due, marks have a cause, and every active goal with rules left
   is queued.  While a goal is expanded it is exempt.
2. `Steady.moves`, `Steady.outcome`: moves keep this with the expanded goal as the exception, and
   the outcome of the expansion removes the exception.
3. `Reached`: the states that a search passes through; all of them are steady.
-/

namespace ProofSearch

namespace Search

open SearchM

variable {search : Search}

/-! ## Steady searches -/

/-- Deep goals have no applications, and neither have goals that are not normalized. -/
structure Orderly (search : Search) (a : Goal) : Prop where
  shallow : a.applications ≠ [] → search.tooDeep a.depth = false
  fresh : a.norm = .notNormal → a.applications = [] ∧ a.selected = false

/-- A goal is queued if it is active with rules left to try, and decided if normalization closed
it. -/
structure Attended (t : Tree) (q : GoalQueue) (g : GoalId) : Prop where
  queued : t.isActive g = true → (t.goal g).isExhausted = false → ∃ e ∈ q.pending, e.goal = g
  closed : ∀ post, (t.goal g).norm = .proven post → (t.goal g).state ≠ .unknown

/-- The invariant of a search, in which the goals in `focus` are not attended to yet. -/
structure Steady (search : Search) (focus : GoalId → Prop) (t : Tree) (q : GoalQueue) :
    Prop where
  linked : t.Linked
  pending : t.Pending focus Tree.nowhere Tree.nowhere Tree.nowhere
  caused : t.Caused
  orderly : ∀ g, t.HasGoal g → search.Orderly (t.goal g)
  attended : ∀ g, t.HasGoal g → focus g ∨ Attended t q g
  entries : ∀ e ∈ q.pending, t.HasGoal e.goal

section

variable {t t' : Tree} {q : GoalQueue} {g : GoalId} {focus focus' : GoalId → Prop}

theorem Orderly.settle {a b : Goal} (h : search.Orderly a) (hs : a.Settles b) :
    search.Orderly b := by
  rw [hs.eq]
  exact ⟨h.shallow, h.fresh⟩

theorem isActive_settle (hs : t.Settling t') (ha : t'.isActive g = true) :
    t.isActive g = true := by
  have hg := hs.goal g
  simp only [Tree.isActive, Goal.isActive, Bool.and_eq_true, Bool.not_eq_true',
    GoalState.isUnknown_iff] at ha ⊢
  refine ⟨⟨?_, ?_⟩, ?_⟩
  · by_contra hu
    exact hu ((hg.state hu).symm.trans ha.1.1)
  · by_contra hm
    cases (hg.mark (by simpa using hm)).symm.trans ha.1.2
  · exact (hs.forced_eq g).symm.trans ha.2

theorem Attended.settle (h : Attended t q g) (hs : t.Settling t') : Attended t' q g := by
  refine ⟨fun ha hex => h.queued (isActive_settle hs ha) ((hs.isExhausted_eq g).symm.trans hex),
    fun post hn => ?_⟩
  have hd := h.closed post (by rw [(hs.goal g).eq] at hn; exact hn)
  rw [(hs.goal g).state hd]
  exact hd

theorem attended_of_decided (h : (t.goal g).state ≠ .unknown) : Attended t q g := by
  refine ⟨fun ha => ?_, fun _ _ => h⟩
  simp [Tree.isActive, Goal.isActive, GoalState.isUnknown, h] at ha

theorem Steady.settle (h : Steady search focus t q) (hs : t.Settling t')
    (hp : t'.Pending focus' Tree.nowhere Tree.nowhere Tree.nowhere) (hc : t'.Caused)
    (hf : ∀ g, focus g → focus' g ∨ Attended t' q g) : Steady search focus' t' q where
  linked := hs.linked h.linked
  pending := hp
  caused := hc
  orderly := fun g hg => (h.orderly g (hs.hasGoal.1 hg)).settle (hs.goal g)
  attended := fun g hg =>
    (h.attended g (hs.hasGoal.1 hg)).elim (hf g) fun ha => .inr (ha.settle hs)
  entries := fun e he => hs.hasGoal.2 (h.entries e he)

theorem pending_focus (h : t.Pending (· = g) Tree.nowhere Tree.nowhere Tree.nowhere) :
    t.Pending (fun k => Tree.nowhere k ∨ k = g) Tree.nowhere Tree.nowhere Tree.nowhere :=
  h.mono (fun _ _ _ => .inr) (fun _ _ _ => id) (fun _ _ _ => id) fun _ _ _ => id

/-- A goal that is attended to and not spent is no exception any more. -/
theorem Steady.release (h : Steady search (· = g) t q) (hs : ¬ t.GoalSpent (t.goal g))
    (ha : Attended t q g) : Steady search Tree.nowhere t q where
  linked := h.linked
  pending := (pending_focus h.pending).unspent hs
  caused := h.caused
  orderly := h.orderly
  attended := fun k hk => .inr ((h.attended k hk).elim (fun he => he ▸ ha) id)
  entries := h.entries

theorem Attended.mono {q' : GoalQueue} (h : Attended t q g)
    (hq : ∀ e ∈ q.pending, e ∈ q'.pending) : Attended t q' g :=
  ⟨fun ha hex => (h.queued ha hex).imp fun e he => ⟨hq e he.1, he.2⟩, h.closed⟩

theorem Steady.push (h : Steady search focus t q) {e : QueueEntry} (he : t.HasGoal e.goal) :
    Steady search focus t (q.push e) := by
  have hmem {k : QueueEntry} : k ∈ (q.push e).pending ↔ k = e ∨ k ∈ q.pending := by
    rw [(q.push_perm e).mem_iff, List.mem_cons]
  refine { h with attended := fun k hk => ?_, entries := fun k hk => ?_ }
  · exact (h.attended k hk).imp_right fun ha => ha.mono fun k hk => hmem.2 (.inr hk)
  · rcases hmem.1 hk with rfl | hk
    · exact he
    · exact h.entries k hk

/-! ## Moves -/

/-- The expanded goal may be edited. -/
theorem Steady.modifyGoal (h : Steady search (· = g) t q) {f : Goal → Goal}
    (hhome : ∀ a, (f a).cluster = a.cluster) (happs : ∀ a, (f a).applications = a.applications)
    (hstate : ∀ a, (f a).state = a.state) (hmark : ∀ a, (f a).irrelevant = a.irrelevant)
    (hb : t.GoalSound (f (t.goal g))) (ho : search.Orderly (f (t.goal g))) :
    Steady search (· = g) (t.modifyGoal g f) q := by
  have hlinks := Tree.sameLinks_modifyGoal t g hhome happs
  have hother {k : GoalId} (hk : k ≠ g) : (t.modifyGoal g f).goal k = t.goal k := by
    rw [Tree.goal_modifyGoal, if_neg fun h => hk h.1]
  refine ⟨hlinks.linked h.linked, (h.pending.modifyGoal hhome happs hstate hb).mono ?_
    (fun _ _ _ => id) (fun _ _ _ => id) (fun _ _ _ => id), h.caused.modifyGoal hhome hstate hmark,
    fun k hk => ?_, fun k hk => ?_, fun e he => hlinks.hasGoal.2 (h.entries e he)⟩
  · exact fun k _ _ hk => hk.elim id And.left
  · by_cases he : k = g
    · rw [Tree.goal_modifyGoal, if_pos ⟨he, he ▸ hlinks.hasGoal.1 hk⟩, he]
      exact ho
    · rw [hother he]
      exact h.orderly k (hlinks.hasGoal.1 hk)
  · by_cases he : k = g
    · exact .inl he
    · refine (h.attended k (hlinks.hasGoal.1 hk)).imp_right fun ha => ⟨?_, ?_⟩
      · rw [Tree.isActive, hother he]
        exact ha.queued
      · rw [hother he]
        exact ha.closed

/-- A new application brings undecided goals, all of which are queued. -/
theorem Steady.addApplication (h : Steady search (· = g) t q) {x : Var} {state : Snapshot}
    (hr : Ready search t g x state) {new : NewApplication} {added : AddedApplication}
    {s s' : Solver} (hparent : new.parent = g) (hadd : Ends (t.addApplication new) s (added, t') s') :
    Steady search (· = g) t' (queueAdded q t' added) := by
  have hg : t.HasGoal new.parent := hparent ▸ hr.has
  obtain ⟨new', copies, groups, u, -, -, hnew, hgrow, -, hadded, ht⟩ :=
    Tree.addApplication_growth hadd hg
  have hs : u.Settling t' := by
    rcases ht with ⟨-, rfl⟩ | ⟨-, rfl⟩
    · exact Tree.settling_markApplicationProven u _
    · exact .refl _
  have hmem {e : QueueEntry} : e ∈ (queueAdded q t' added).pending ↔
      (∃ k ∈ added.goals, .ofGoal k (t'.goal k) = e) ∨ e ∈ q.pending := by
    rw [queueAdded, (q.pushAll_perm _).mem_iff, List.mem_append, List.mem_map]
  have hself : u.goal g = { t.goal g with
      applications := (t.goal g).applications ++ [⟨t.applications.size⟩] } := by
    rw [← hparent, ← hnew, hgrow.goal_parent]
  have hold {k : GoalId} (hk : t.HasGoal k) (hne : k ≠ g) : u.goal k = t.goal k :=
    hgrow.goal_old k hk (by rwa [hnew, hparent])
  have hblank {k : GoalId} (hk : ¬ t.HasGoal k) (hk' : u.HasGoal k) :
      (u.goal k).norm = .notNormal ∧ (u.goal k).applications = [] ∧
        (u.goal k).selected = false := by
    obtain ⟨c, m, -, -, -, -, he⟩ := hgrow.goal_new k hk hk'
    rw [he]
    exact ⟨rfl, rfl, rfl⟩
  refine ⟨h.linked.addApplication hadd hg, (h.pending.addApplication h.linked hadd hg
    (hparent ▸ hr.unknown) (hparent ▸ hr.forced)).mono ?_ (fun _ _ _ => id) (fun _ _ _ => id)
    (fun _ _ _ => id), h.caused.addApplication h.linked hadd hg, fun k hk => ?_, fun k hk => ?_,
    fun e he => ?_⟩
  · exact fun k _ _ hk => hk.1
  · refine Orderly.settle ?_ (hs.goal k)
    by_cases hk' : t.HasGoal k
    · by_cases hne : k = g
      · rw [hne, hself]
        exact ⟨fun _ => hr.shallow, fun hn => by cases hn.symm.trans hr.norm⟩
      · rw [hold hk' hne]
        exact h.orderly k hk'
    · obtain ⟨-, happs, hsel⟩ := hblank hk' (hs.hasGoal.1 hk)
      exact ⟨fun hne => (hne happs).elim, fun _ => ⟨happs, hsel⟩⟩
  · by_cases hk' : t.HasGoal k
    · by_cases hne : k = g
      · exact .inl hne
      · refine .inr (Attended.settle ?_ hs)
        have ha := ((h.attended k hk').resolve_left hne).mono fun e he => hmem.2 (.inr he)
        refine ⟨?_, ?_⟩
        · rw [Tree.isActive, hold hk' hne]
          exact ha.queued
        · rw [hold hk' hne]
          exact ha.closed
    · have hk'' := hs.hasGoal.1 hk
      refine .inr ⟨fun _ _ => ⟨_, hmem.2 (.inl ⟨k, (hadded k).2 ⟨hk', hk''⟩, rfl⟩), rfl⟩,
        fun post hn => ?_⟩
      rw [(hs.goal k).eq] at hn
      cases hn.symm.trans (hblank hk' hk'').1
  · rcases hmem.1 he with ⟨k, hk, rfl⟩ | he
    · exact hs.hasGoal.2 ((hadded k).1 hk).2
    · exact hs.hasGoal.2 (hgrow.hasGoal (h.entries e he))

/-- An application was added that has not failed. -/
theorem addApplication_alive {new : NewApplication} {added : AddedApplication} {s s' : Solver}
    (hadd : Ends (t.addApplication new) s (added, t') s') (hg : t.HasGoal new.parent)
    (hsound : t'.Sound) :
    ∃ r ∈ (t'.goal new.parent).applications, (t'.application r).state ≠ .unprovable := by
  obtain ⟨new', copies, groups, u, -, -, hnew, hgrow, -, -, ht⟩ :=
    Tree.addApplication_growth hadd hg
  rw [← hnew] at hg ⊢
  have hmem : (⟨t.applications.size⟩ : ApplicationId) ∈ (u.goal new'.parent).applications :=
    (hgrow.mem_applications hg).2 (.inr ⟨rfl, rfl⟩)
  have hhas : u.HasApplication ⟨t.applications.size⟩ := hgrow.hasApplication.2 (.inr rfl)
  rcases ht with ⟨rfl, rfl⟩ | ⟨-, rfl⟩
  · have hs := Tree.settling_markApplicationProven u ⟨t.applications.size⟩
    refine ⟨_, by rw [hs.applications_eq]; exact hmem, fun hf => ?_⟩
    obtain ⟨c, hc, -⟩ := (hsound.application _ (hs.hasApplication.2 hhas)).unprovable hf
    rw [hs.clusters_eq, hgrow.application_new] at hc
    cases hc
  · exact ⟨_, hmem, by rw [hgrow.application_fresh]; exact nofun⟩

/-- An undecided normal goal may be edited further. -/
theorem Steady.arrange (h : Steady search (· = g) t q) {x : Var} {state : Snapshot}
    (hr : Ready search t g x state) {f : Goal → Goal}
    (hf : ∀ a, f a = { a with selected := (f a).selected, queue := (f a).queue }) :
    Steady search (· = g) (t.modifyGoal g f) q := by
  refine h.modifyGoal (fun a => by rw [hf]) (fun a => by rw [hf]) (fun a => by rw [hf])
    (fun a => by rw [hf]) (.of_unknown ?_ fun hforced => ?_) ⟨fun _ => ?_, fun hn => ?_⟩
  · rw [hf]
    exact hr.unknown
  · rw [hf] at hforced
    exact nomatch hforced.symm.trans hr.forced
  · rw [hf]
    exact hr.shallow
  · rw [hf] at hn
    exact nomatch hn.symm.trans hr.norm

theorem Steady.move {run run' : Run} (h : Steady search (· = g) run.tree run.queue)
    (hg : run.tree.HasGoal g) (hm : Move search g run run') :
    Steady search (· = g) run'.tree run'.queue ∧ run'.tree.HasGoal g := by
  have hedit (t : Tree) (f : Goal → Goal) (ht : t.HasGoal g) : (t.modifyGoal g f).HasGoal g := by
    simpa [Tree.HasGoal, Tree.modifyGoal] using ht
  have hsound := h.pending.sound.goal g hg
  have horderly := h.orderly g hg
  cases hm with
  | solve ht hq =>
    rw [ht, hq]
    exact ⟨h, hg⟩
  | note hf ht hq =>
    rw [ht, hq]
    refine ⟨h.modifyGoal (fun a => by rw [hf]) (fun a => by rw [hf]) (fun a => by rw [hf])
      (fun a => by rw [hf]) ?_ ?_, hedit _ _ hg⟩
    · rw [hf]
      exact ⟨hsound.byRule, hsound.byNorm, hsound.unprovable, hsound.forced⟩
    · rw [hf]
      exact ⟨horderly.shallow, horderly.fresh⟩
  | normalize hn ht hq =>
    rw [ht, hq]
    exact ⟨h.modifyGoal (fun _ => rfl) (fun _ => rfl) (fun _ => rfl) (fun _ => rfl)
      ⟨hsound.byRule, hsound.byNorm, hsound.unprovable, hsound.forced⟩
      ⟨horderly.shallow, by rintro ⟨⟩⟩, hedit _ _ hg⟩
  | postpone hr _ ht hq | select hr _ ht hq | take hr _ ht hq =>
    rw [ht, hq]
    exact ⟨h.arrange hr fun _ => rfl, hedit _ _ hg⟩
  | attach hr hp hadd ht hq =>
    rw [ht, hq]
    exact ⟨h.addApplication hr hp hadd, (hr.toTended.addApplication hp hadd).has⟩

theorem Steady.moves {run run' : Run} (h : Steady search (· = g) run.tree run.queue)
    (hg : run.tree.HasGoal g) (hm : Moves search g run run') :
    Steady search (· = g) run'.tree run'.queue ∧ run'.tree.HasGoal g := by
  induction hm with
  | refl => exact ⟨h, hg⟩
  | tail _ hmove ih => exact ih.1.move ih.2 hmove

/-! ## Outcomes -/

theorem Steady.giveUp (h : Steady search (· = g) t q) (hg : t.HasGoal g)
    (hu : (t.goal g).state = .unknown) (hd : search.tooDeep (t.goal g).depth = true) :
    Steady search Tree.nowhere (t.markForcedUnprovable g) q := by
  have happs : (t.goal g).applications = [] := by
    by_contra hne
    cases hd.symm.trans ((h.orderly g hg).shallow hne)
  have horderly := h.orderly g hg
  have hedit : Steady search (· = g) (t.modifyGoal g ({ · with forced := true })) q :=
    h.modifyGoal (fun _ => rfl) (fun _ => rfl) (fun _ => rfl) (fun _ => rfl)
      (.of_unknown hu fun _ => happs) ⟨horderly.shallow, horderly.fresh⟩
  have he : t.markForcedUnprovable g =
      (t.modifyGoal g ({ · with forced := true })).markUnprovable g := by
    rw [Tree.markForcedUnprovable, if_neg (by simpa using hu)]
  have hs := Tree.settling_markUnprovable (t.modifyGoal g ({ · with forced := true })) g
  have hp : (t.markForcedUnprovable g).Pending Tree.nowhere Tree.nowhere Tree.nowhere
      Tree.nowhere :=
    Tree.pending_markForcedUnprovable (pending_focus h.pending) h.linked hg happs
  have hhas : (t.modifyGoal g ({ · with forced := true })).HasGoal g := by
    simpa [Tree.HasGoal, Tree.modifyGoal] using hg
  have hself : (t.modifyGoal g ({ · with forced := true })).goal g =
      { t.goal g with forced := true } := by
    rw [Tree.goal_modifyGoal, if_pos ⟨rfl, hg⟩]
  have hdec : ((t.markForcedUnprovable g).goal g).state ≠ .unknown := by
    -- an undecided goal that was given up would be spent
    intro hu'
    refine hp.spent g (he ▸ hs.hasGoal.2 hhas) ⟨hu', ?_, ?_⟩
    · rw [he, hs.isExhausted_eq, hself]
      rfl
    · rw [he, hs.applications_eq, hself, happs]
      exact List.forall_mem_nil _
  rw [he] at hp hdec ⊢
  refine hedit.settle hs hp (hedit.caused.markUnprovable hedit.linked hhas) ?_
  rintro k rfl
  exact .inr (attended_of_decided hdec)

theorem Steady.close (h : Steady search (· = g) t q) (hg : t.HasGoal g)
    (hu : (t.goal g).state = .unknown) (hf : (t.goal g).forced = false)
    (hn : (t.goal g).norm = .notNormal) (branch : BranchState) (post : Snapshot) :
    Steady search Tree.nowhere ((t.modifyGoal g fun goal =>
      { goal with branch := branch, norm := .proven post }).markProvenByNorm g) q := by
  obtain ⟨happs, hsel⟩ := (h.orderly g hg).fresh hn
  have hsound := h.pending.sound.goal g hg
  have hex : (t.goal g).isExhausted = false := by simp [Goal.isExhausted, hf, hsel]
  obtain ⟨u, hu'⟩ : ∃ u, t.modifyGoal g (fun goal =>
      { goal with branch := branch, norm := .proven post }) = u := ⟨_, rfl⟩
  have hedit : Steady search (· = g) u q := hu' ▸
    h.modifyGoal (fun _ => rfl) (fun _ => rfl) (fun _ => rfl) (fun _ => rfl)
      ⟨hsound.byRule, hsound.byNorm, hsound.unprovable, hsound.forced⟩
      ⟨(h.orderly g hg).shallow, by rintro ⟨⟩⟩
  have hself : u.goal g = { t.goal g with branch := branch, norm := .proven post } := by
    rw [← hu', Tree.goal_modifyGoal, if_pos ⟨rfl, hg⟩]
  have hhas : u.HasGoal g := by
    rw [← hu']
    simpa [Tree.HasGoal, Tree.modifyGoal] using hg
  rw [hu']
  have hdec : ((u.markProvenByNorm g).goal g).state ≠ .unknown := by
    rw [u.markProvenByNorm_state hhas (by rw [hself]; exact hu)]
    rintro ⟨⟩
  have hp := Tree.pending_markProvenByNorm hedit.pending hedit.linked hhas
    (by rw [hself]; exact happs) (by rw [hself]; exact hex)
  refine (hedit.settle (Tree.settling_markProvenByNorm u g) hp
    (hedit.caused.markProvenByNorm hedit.linked hhas) fun _ => .inl).release ?_
    (attended_of_decided hdec)
  exact fun hs => hdec hs.1

theorem Steady.commit (h : Steady search (· = g) t q) {x : Var} {state : Snapshot}
    (hr : Ready search t g x state) {new : NewApplication} {added : AddedApplication}
    {s s' : Solver} (hparent : new.parent = g) (hadd : Ends (t.addApplication new) s (added, t') s') :
    Steady search Tree.nowhere (t'.modifyGoal g Goal.withoutRules) (queueAdded q t' added) := by
  have hadded := h.addApplication hr hparent hadd
  have ht := hr.toTended.addApplication hparent hadd
  obtain ⟨r, hmem, halive⟩ := addApplication_alive hadd (hparent ▸ hr.has) hadded.pending.sound
  rw [hparent] at hmem
  have hne : (t'.goal g).applications ≠ [] := List.ne_nil_of_mem hmem
  have hsound := hadded.pending.sound.goal g ht.has
  have hself : (t'.modifyGoal g Goal.withoutRules).goal g = (t'.goal g).withoutRules := by
    rw [Tree.goal_modifyGoal, if_pos ⟨rfl, ht.has⟩]
  have hex : (t'.goal g).withoutRules.isExhausted = true := by
    simp [Goal.isExhausted, Goal.withoutRules]
  have hedit := hadded.modifyGoal (f := Goal.withoutRules) (fun _ => rfl) (fun _ => rfl)
    (fun _ => rfl) (fun _ => rfl)
    ⟨hsound.byRule, fun hs => (hne (hsound.byNorm hs).1).elim,
      fun hs => ⟨hex, (hsound.unprovable hs).2⟩, hsound.forced⟩
    ⟨fun _ => ht.shallow, fun hn => by cases hn.symm.trans ht.norm⟩
  refine hedit.release (fun hs => ?_) ⟨fun _ hex' => ?_, fun post hn => ?_⟩
  · rw [hself] at hs
    exact halive (hs.2.2 r hmem)
  · rw [hself, hex] at hex'
    cases hex'
  · rw [hself] at hn
    cases hn.symm.trans ht.norm

/-- A goal is unprovable if the check says so. -/
theorem checkExhausted_decided (h : t.Pending (· = g) Tree.nowhere Tree.nowhere Tree.nowhere)
    (hl : t.Linked) (hg : t.HasGoal g) (hc : (t.checkExhausted g).1 = true) :
    ((t.checkExhausted g).2.goal g).state ≠ .unknown := by
  have hs := Tree.settling_checkExhausted t g
  have hp := Tree.pending_checkExhausted (pending_focus h) hl hg
  intro hu
  have hu' : (t.goal g).state = .unknown := by
    by_contra hne
    exact hne (((hs.goal g).state hne).symm.trans hu)
  simp only [Tree.checkExhausted, hu', GoalState.isUnprovable, GoalState.isUnknown, reduceCtorEq,
    decide_false, decide_true, Bool.not_true, Bool.false_or, Bool.false_eq_true, if_false] at hc
  split at hc
  · cases hc
  · next hex =>
    split at hc
    · next hall =>
      refine hp.spent g (hs.hasGoal.2 hg) ⟨hu, ?_, fun r hr => ?_⟩
      · rw [hs.isExhausted_eq]
        simpa using hex
      · rw [hs.applications_eq] at hr
        simp only [Tree.allApplicationsFailed, List.all_eq_true, NodeState.isUnprovable_iff] at hall
        exact hs.application_state (by rintro ⟨⟩) (hall r hr)
    · cases hc

theorem Steady.outcome {run run' : Run} (h : Steady search (· = g) run.tree run.queue)
    (hg : run.tree.HasGoal g) (ho : Outcome search g run run') :
    Steady search Tree.nowhere run'.tree run'.queue := by
  cases ho with
  | giveUp hu hd ht hq =>
    rw [ht, hq]
    exact h.giveUp hg hu hd
  | close hu hf hn ht hq =>
    rw [ht, hq]
    exact h.close hg hu hf hn ..
  | commit hr hp hadd ht hq =>
    rw [ht, hq]
    exact h.commit hr hp hadd
  | check htended ht hq =>
    have hs := Tree.settling_checkExhausted run.tree g
    have hp := Tree.pending_checkExhausted (pending_focus h.pending) h.linked hg
    have hc := h.caused.checkExhausted h.linked hg
    have hnorm := (htended.settle hs).norm
    rw [ht] at hq ⊢
    rcases hq with ⟨hq, hstop⟩ | hq
    · rw [hq]
      refine h.settle hs hp hc ?_
      rintro k rfl
      refine .inr ⟨fun ha hex => ?_, fun post hn => nomatch hn.symm.trans hnorm⟩
      by_cases hdone : (run.tree.checkExhausted k).1 = true
      · exact (attended_of_decided (checkExhausted_decided h.pending h.linked hg hdone)).queued ha hex
      · exact nomatch hex.symm.trans (hstop (by simpa using hdone) ha)
    · rw [hq]
      refine (h.push hg).settle hs hp hc ?_
      rintro k rfl
      refine .inr ⟨fun _ _ => ⟨_, (run.queue.push_perm _).mem_iff.2 List.mem_cons_self, rfl⟩,
        fun post hn => nomatch hn.symm.trans hnorm⟩

/-! ## Passes -/

theorem firstActive?_some {es rest : List QueueEntry} (h : firstActive? t es = (some g, rest)) :
    t.isActive g = true ∧ (∃ e ∈ es, e.goal = g) ∧ (∀ e ∈ rest, e ∈ es) ∧
      ∀ e ∈ es, t.isActive e.goal = true → e.goal = g ∨ e ∈ rest := by
  induction es with
  | nil => cases h
  | cons e es ih =>
    unfold firstActive? at h
    split at h
    · next ha =>
      cases h
      refine ⟨ha, ⟨e, List.mem_cons_self, rfl⟩, fun k => List.mem_cons_of_mem e, fun k hk _ => ?_⟩
      rcases List.mem_cons.1 hk with rfl | hk
      · exact .inl rfl
      · exact .inr hk
    · next ha =>
      obtain ⟨hg, ⟨k, hk, hkg⟩, hsub, hrest⟩ := ih h
      refine ⟨hg, ⟨k, List.mem_cons_of_mem e hk, hkg⟩,
        fun k hk => List.mem_cons_of_mem e (hsub k hk), fun k hk hka => ?_⟩
      rcases List.mem_cons.1 hk with rfl | hk
      · exact (ha hka).elim
      · exact hrest k hk hka

theorem exists_firstActive? {es : List QueueEntry} (h : ∃ e ∈ es, t.isActive e.goal = true) :
    ∃ k rest, firstActive? t es = (some k, rest) := by
  induction es with
  | nil =>
    obtain ⟨e, he, -⟩ := h
    cases he
  | cons e es ih =>
    unfold firstActive?
    split
    · exact ⟨_, _, rfl⟩
    · next ha =>
      obtain ⟨k, hk, hka⟩ := h
      rcases List.mem_cons.1 hk with rfl | hk
      · exact (ha hka).elim
      · exact ih ⟨k, hk, hka⟩

/-- The goal taken off the queue is the only one that is not attended to. -/
theorem Steady.take (h : Steady search Tree.nowhere t q) {rest : List QueueEntry}
    (hn : firstActive? t q.pending = (some g, rest)) :
    Steady search (· = g) t { q with pending := rest } ∧ t.HasGoal g := by
  obtain ⟨ha, ⟨e, he, rfl⟩, hsub, hrest⟩ := firstActive?_some hn
  refine ⟨⟨h.linked, h.pending.mono (fun _ _ _ => False.elim) (fun _ _ _ => id) (fun _ _ _ => id)
    (fun _ _ _ => id), h.caused, h.orderly, fun k hk => ?_,
    fun e he => h.entries e (hsub e he)⟩, h.entries e he⟩
  by_cases hke : k = e.goal
  · exact .inl hke
  · obtain ⟨hqueued, hclosed⟩ := (h.attended k hk).resolve_left id
    refine .inr ⟨fun hka hex => ?_, hclosed⟩
    obtain ⟨e', he', rfl⟩ := hqueued hka hex
    exact ⟨e', (hrest e' he' hka).resolve_left hke, rfl⟩

/-- Normalization has not closed an active goal. -/
theorem Steady.not_closed (h : Steady search Tree.nowhere t q) (hg : t.HasGoal g)
    (ha : t.isActive g = true) (post : Snapshot) : (t.goal g).norm ≠ .proven post := by
  simp only [Tree.isActive, Goal.isActive, Bool.and_eq_true, GoalState.isUnknown_iff] at ha
  exact fun hn => ((h.attended g hg).resolve_left id).closed post hn ha.1.1

/-- While the root is undecided an active goal is queued. -/
theorem Steady.exists_queued (h : Steady search Tree.nowhere t q)
    (hu : (t.goal Tree.root).state = .unknown) : ∃ e ∈ q.pending, t.isActive e.goal = true := by
  obtain ⟨k, hk, ha, hex⟩ := Tree.Consistent.exists_active ⟨h.linked, h.pending⟩ h.caused hu
  obtain ⟨e, he, rfl⟩ := ((h.attended k hk).resolve_left id).queued ha hex
  exact ⟨e, he, ha⟩

end

theorem ends_nextActiveGoal? {run run' : Run} {next : Option GoalId} :
    Ends nextActiveGoal? run next run' ↔ ∃ rest,
      firstActive? run.tree run.queue.pending = (next, rest) ∧
        run' = { run with queue := { run.queue with pending := rest } } := by
  simp only [nextActiveGoal?, ends_bind, ends_get, ends_set, ends_pure]
  constructor
  · rintro ⟨r, u, ⟨rfl, rfl⟩, -, v, rfl, rfl, rfl⟩
    exact ⟨_, rfl, rfl⟩
  · rintro ⟨rest, h, rfl⟩
    exact ⟨run, run, ⟨rfl, rfl⟩, ⟨⟩, _, rfl, by rw [h], by rw [h]⟩

/-- The state in which a pass of the loop expands its goal. -/
def countIteration (run : Run) : Run :=
  { run with
    iteration := run.iteration + 1
    stats := { run.stats with iterations := run.stats.iterations + 1 } }

/-- The states at the beginning of the passes of a loop that begins in `first`. -/
inductive Reached (search : Search) (first : Run) : Run → Prop
  | first : Reached search first first
  | pass {run mid run' : Run} {g : GoalId} : Reached search first run →
      search.verdict? run.tree = none → Ends nextActiveGoal? run (some g) mid →
      Ends (search.expandGoal g) (countIteration mid) () run' → Reached search first run'

/-- A pass takes an active goal off the queue and expands it by moves and an outcome. -/
theorem Steady.pass_moves {run mid run' : Run} {g : GoalId}
    (h : Steady search Tree.nowhere run.tree run.queue)
    (hn : Ends nextActiveGoal? run (some g) mid)
    (he : Ends (search.expandGoal g) (countIteration mid) () run') :
    run.tree.isActive g = true ∧ run.tree.HasGoal g ∧ mid.tree = run.tree ∧
      Steady search (· = g) mid.tree mid.queue ∧
      ∃ last, Moves search g (countIteration mid) last ∧ Outcome search g last run' := by
  obtain ⟨rest, hfirst, rfl⟩ := ends_nextActiveGoal?.1 hn
  obtain ⟨hs, hg⟩ := h.take hfirst
  have ha := (firstActive?_some hfirst).1
  exact ⟨ha, hg, rfl, hs, expandGoal_moves he hg ha (h.not_closed hg ha)⟩

theorem Steady.pass {run mid run' : Run} {g : GoalId}
    (h : Steady search Tree.nowhere run.tree run.queue)
    (hn : Ends nextActiveGoal? run (some g) mid)
    (he : Ends (search.expandGoal g) (countIteration mid) () run') :
    Steady search Tree.nowhere run'.tree run'.queue := by
  obtain ⟨-, hg, htree, hs, last, hm, ho⟩ := h.pass_moves hn he
  have hs : Steady search (· = g) (countIteration mid).tree (countIteration mid).queue := hs
  obtain ⟨hlast, hg'⟩ := hs.moves (htree ▸ hg) hm
  exact hlast.outcome hg' ho

theorem Reached.steady {first run : Run} (h : Reached search first run)
    (hf : Steady search Tree.nowhere first.tree first.queue) :
    Steady search Tree.nowhere run.tree run.queue := by
  induction h with
  | first => exact hf
  | pass _ _ hn he ih => exact ih.pass hn he

theorem steady_start (s : Solver) (goal : Var) (vars : VarSet) :
    Steady search Tree.nowhere (search.start s (.ofGoal goal vars s.state)).tree
      (search.start s (.ofGoal goal vars s.state)).queue := by
  have hc := Tree.consistent_ofGoal goal vars s.state
  have hmem {e : QueueEntry} : e ∈ (search.start s (.ofGoal goal vars s.state)).queue.pending ↔
      e = .ofGoal Tree.root ((Tree.ofGoal goal vars s.state).goal Tree.root) := by
    rw [start, ((GoalQueue.empty search.options.strategy).push_perm _).mem_iff]
    exact List.mem_singleton
  refine ⟨hc.linked, hc.pending, Tree.caused_ofGoal goal vars s.state, fun g hg => ?_,
    fun g hg => .inr ?_, fun e he => ?_⟩
  · obtain rfl := Tree.hasGoal_ofGoal.1 hg
    exact ⟨fun hne => (hne rfl).elim, fun _ => ⟨rfl, rfl⟩⟩
  · obtain rfl := Tree.hasGoal_ofGoal.1 hg
    exact ⟨fun _ _ => ⟨_, hmem.2 rfl, rfl⟩, nofun⟩
  · rw [hmem.1 he]
    exact hc.linked.root

/-- A loop that ends has passed through states that it can reach. -/
theorem Reached.loop {first run run' : Run} {spent : SearchError} {n : Nat}
    {verdict : Option FailureReason} (h : Reached search first run)
    (he : Ends (search.loop spent n) run verdict run') : ∃ last, Reached search first last ∧
      (search.verdict? last.tree = some verdict ∧ run' = last ∨
        search.verdict? last.tree = none ∧ verdict = some .exhausted ∧
          ∃ mid, Ends nextActiveGoal? last none mid) := by
  induction n generalizing run with
  | zero => exact (ends_throw he).elim
  | succ n ih =>
    simp only [Search.loop, ends_bind, ends_getTree] at he
    obtain ⟨t, u, ⟨rfl, rfl⟩, he⟩ := he
    split at he
    · next hv =>
      obtain ⟨rfl, rfl⟩ := ends_pure.1 he
      exact ⟨_, h, .inl ⟨hv, rfl⟩⟩
    · next hv =>
      simp only [ends_bind] at he
      obtain ⟨next, mid, hn, he⟩ := he
      cases next with
      | none =>
        obtain ⟨rfl, -⟩ := ends_pure.1 he
        exact ⟨u, h, .inr ⟨hv, rfl, mid, hn⟩⟩
      | some g =>
        simp only [ends_bind, ends_modify] at he
        obtain ⟨-, v, rfl, ⟨⟩, w, hx, he⟩ := he
        exact ih (h.pass hv hn hx) he

theorem verdict?_none {t : Tree} (h : search.verdict? t = none) :
    (t.goal Tree.root).state = .unknown := by
  unfold verdict? at h
  cases hs : (t.goal Tree.root).state <;>
    simp [Tree.rootIsProven, Tree.rootIsUnprovable, GoalState.isProven, GoalState.isUnprovable,
      hs] at h ⊢

theorem verdict?_proven {t : Tree} (h : search.verdict? t = some none) :
    (t.goal Tree.root).state.isProven = true := by
  unfold verdict? at h
  dsimp only at h
  split at h
  · next hproven => exact hproven
  · repeat' split at h
    all_goals simp at h

theorem verdict?_ne_exhausted {t : Tree} : search.verdict? t ≠ some (some .exhausted) := by
  unfold verdict?
  dsimp only
  split
  · simp
  · split
    · simp
    · split
      · simp
      · split <;> simp

/-- The loop never runs out of goals. -/
theorem loop_ne_exhausted {first run' : Run} {spent : SearchError} {n : Nat}
    (hf : Steady search Tree.nowhere first.tree first.queue) :
    ¬ Ends (search.loop spent n) first (some .exhausted) run' := by
  intro he
  obtain ⟨last, hlast, ⟨hv, -⟩ | ⟨hv, -, mid, hn⟩⟩ := Reached.first.loop he
  · exact verdict?_ne_exhausted hv
  · obtain ⟨rest, hnone, -⟩ := ends_nextActiveGoal?.1 hn
    obtain ⟨k, rest', hsome⟩ := exists_firstActive?
      ((hlast.steady hf).exists_queued (verdict?_none hv))
    exact nomatch (congrArg Prod.fst hnone).symm.trans (congrArg Prod.fst hsome)

/-! ## Results -/

theorem finish_reason {run run' : Run} {verdict : Option FailureReason} {safePrefix : SafePrefix}
    {reason : FailureReason} {message : String} {stats : Stats}
    (h : Ends (search.finish verdict) run (.failed safePrefix reason message stats) run') :
    verdict = some reason := by
  cases verdict with
  | none =>
    simp only [finish, ends_bind, ends_pure] at h
    obtain ⟨_, _, -, _, _, -, _, _, -, hr, -⟩ := h
    cases hr
  | some r =>
    simp only [finish, ends_bind] at h
    obtain ⟨u, v, -, h⟩ := h
    split at h
    · exact (ends_throw h).elim
    · simp only [ends_bind, ends_pure] at h
      obtain ⟨_, _, -, _, _, -, _, _, -, _, _, -, hr, -⟩ := h
      cases hr
      rfl

theorem runAll_eq (search : Search) : search.runAll =
    search.loop search.loopBudget.2 search.loopBudget.1 >>= search.finish := rfl

theorem runAll_ne_exhausted {first run' : Run} {safePrefix : SafePrefix} {message : String}
    {stats : Stats} (hf : Steady search Tree.nowhere first.tree first.queue) :
    ¬ Ends search.runAll first (.failed safePrefix .exhausted message stats) run' := by
  intro h
  rw [runAll_eq, ends_bind] at h
  obtain ⟨verdict, u, hloop, hfinish⟩ := h
  rw [finish_reason hfinish] at hloop
  exact loop_ne_exhausted hf hloop

theorem runAll_error_ne_exhausted {first run' : Run} {message : String}
    (hf : Steady search Tree.nowhere first.tree first.queue) :
    search.runAll.run.run first ≠ (.error (.nonTerminal .exhausted message), run') := by
  intro h
  rw [runAll_eq, run_bind] at h
  split at h
  · next verdict u hloop =>
    rcases search.finish_failsIn verdict u _ _ h with hinner | ⟨reason, m, rfl, he⟩
    · exact hinner
    · cases he
      exact loop_ne_exhausted hf hloop
  · next e u hloop =>
    cases h
    exact search.inner_loop _ _ _ _ hloop

/-- A search of a declared goal ends as its loop and the turning of the verdict into a result do. -/
theorem run_eq (search : Search) {s : Solver} {goal : Var} {vars : VarSet}
    (h : s.context.dependencies goal = .ok vars) : search.run s goal =
      let (result, final) := search.runAll.run.run (search.start s (.ofGoal goal vars s.state))
      { result := result.mapError fun e => ⟨e, final.tree, finalStats final⟩
        solver := final.solver
        journal := final.journal.reverse } := by
  simp only [Search.run, h]
  rfl

/-- No search of a declared goal runs out of goals.  At every pass with an undecided root an active
goal is queued and the next one is found. -/
theorem never_exhausted (search : Search) (s : Solver) (goal : Var)
    (hd : s.context.isDeclared goal = true) :
    ∃ vars, s.context.dependencies goal = .ok vars ∧
      (∀ run, Reached search (search.start s (.ofGoal goal vars s.state)) run →
        (run.tree.goal Tree.root).state = .unknown →
        (∃ e ∈ run.queue.pending, run.tree.isActive e.goal = true) ∧
          ∃ g mid, Ends nextActiveGoal? run (some g) mid ∧ run.tree.isActive g = true) ∧
      (∀ safePrefix message stats,
        (search.run s goal).result ≠ .ok (.failed safePrefix .exhausted message stats)) ∧
      ∀ failure message, (search.run s goal).result = .error failure →
        failure.error ≠ .nonTerminal .exhausted message := by
  obtain ⟨vars, hvars⟩ := Context.exists_dependencies hd
  have hsteady : Steady search Tree.nowhere _ _ := steady_start s goal vars
  have hrun := search.run_eq hvars
  refine ⟨vars, hvars, fun run hr hu => ?_, fun safePrefix message stats h => ?_,
    fun failure message h herr => ?_⟩
  · have hq := (hr.steady hsteady).exists_queued hu
    obtain ⟨k, rest, hk⟩ := exists_firstActive? hq
    exact ⟨hq, k, _, ends_nextActiveGoal?.2 ⟨rest, hk, rfl⟩, (firstActive?_some hk).1⟩
  · rw [hrun] at h
    cases hres : search.runAll.run.run (search.start s (.ofGoal goal vars s.state)) with
    | mk result final =>
      rw [hres] at h
      cases result with
      | ok r =>
        cases h
        exact runAll_ne_exhausted hsteady hres
      | error e => cases h
  · rw [hrun] at h
    cases hres : search.runAll.run.run (search.start s (.ofGoal goal vars s.state)) with
    | mk result final =>
      rw [hres] at h
      cases result with
      | ok r => cases h
      | error e =>
        cases h
        obtain rfl : e = .nonTerminal .exhausted message := herr
        exact runAll_error_ne_exhausted hsteady hres

/-- A search that splits `C` into `A` and `B`, with no rule for either. -/
def splitting : Search where
  rules := RuleQuery.all [⟨"c", .tentative .fifty, [],
    Clause.procedure ⟨"c", [], [.const "A", .const "B"], .const "C"⟩⟩]
  simplifier := .none
  options := {}
  fuel := 10

theorem never_exhausted_splitting : ∃ s : Solver, s.context.isDeclared ⟨1⟩ = true ∧
    (∃ run, Reached splitting (splitting.start s (.ofGoal ⟨1⟩ ∅ s.state)) run ∧
      run.tree.goals.size = 3 ∧ (run.tree.goal Tree.root).state = .unknown ∧
      ∃ e ∈ run.queue.pending, run.tree.isActive e.goal = true) ∧
    ∀ safePrefix message stats,
      (splitting.run s ⟨1⟩).result ≠ .ok (.failed safePrefix .exhausted message stats) := by
  obtain ⟨s, hs⟩ : ∃ s : Solver, s = ((Solver.mkGoal (.const "C") []).run .empty).2 := ⟨_, rfl⟩
  have hd : s.context.isDeclared ⟨1⟩ = true := by
    rw [hs]
    decide
  have hv : s.context.dependencies ⟨1⟩ = .ok ∅ := by
    rw [hs]
    rfl
  obtain ⟨vars, hvars, hpass, hresult, -⟩ := never_exhausted splitting s ⟨1⟩ hd
  obtain rfl : ∅ = vars := Except.ok.inj (hv.symm.trans hvars)
  obtain ⟨next, mid, hnext, hroot⟩ := exists_ends (x := nextActiveGoal?)
    (s := splitting.start s (.ofGoal ⟨1⟩ ∅ s.state)) (fun a _ => decide (a = some Tree.root)) (by
      rw [hs]
      decide +kernel)
  obtain rfl := of_decide_eq_true hroot
  obtain ⟨⟨⟩, run, hexpand, htest⟩ := exists_ends (x := splitting.expandGoal Tree.root)
    (s := countIteration mid) (fun _ run => decide (run.tree.goals.size = 3 ∧
      (run.tree.goal Tree.root).state = .unknown)) (by
      obtain ⟨rest, hfirst, rfl⟩ := ends_nextActiveGoal?.1 hnext
      obtain rfl : [] = rest := by
        have := congrArg Prod.snd hfirst
        rw [hs] at this
        exact this
      rw [hs]
      decide +kernel)
  obtain ⟨hsize, hu⟩ := of_decide_eq_true htest
  have hreach := Reached.first.pass (by rw [hs]; decide +kernel) hnext hexpand
  exact ⟨s, hd, ⟨run, hreach, hsize, hu, (hpass run hreach hu).1⟩, hresult⟩

end Search

end ProofSearch
