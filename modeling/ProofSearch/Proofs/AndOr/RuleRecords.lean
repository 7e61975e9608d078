import ProofSearch.Proofs.AndOr.Adding
import ProofSearch.Proofs.AndOr.Relevance
import ProofSearch.Search.Expand

/-!
# What a tree records about rules

A goal records which rules have failed on it, which ones wait and which are applied.  An application
records the rule and the candidate that it was made from.

1. `GoalRecord`, `Tree.SameRecord`: what a goal and its applications have on record.
2. `Tree.Enters`: one application more.  The records of the other goals stay as they are, and new
   goals have blank ones.
3. `Tree.Tried`, `Tree.Waits`, `Tree.Uncommitted`, `Tree.MadeFrom`: what records say.
-/

namespace ProofSearch

/-- The rule was applied at once, and no other rule is tried on the goal. -/
def RuleKind.isEager : RuleKind → Bool
  | .safe | .almostSafe => true
  | .tentative | .postponedSafe => false

theorem RuleKind.isSafe_iff {kind : RuleKind} : kind.isSafe = true ↔ kind = .safe := by
  cases kind <;> simp [isSafe]

theorem RuleKind.isEager_iff {kind : RuleKind} :
    kind.isEager = true ↔ kind = .safe ∨ kind = .almostSafe := by
  cases kind <;> simp [isEager]

theorem RuleKind.isEager_of_isSafe {kind : RuleKind} (h : kind.isSafe = true) :
    kind.isEager = true := by
  cases kind with
  | safe => rfl
  | almostSafe | tentative | postponedSafe => cases h

theorem Rule.isEager_eagerKind (r : Rule) : r.eagerKind.isEager = true := by
  unfold Rule.eagerKind
  split <;> rfl

theorem Goal.selected_of_not_wasExpanded {a : Goal} (h : ¬a.wasExpanded = true) :
    a.selected = false := by
  simp only [Goal.wasExpanded, Bool.or_eq_true, not_or] at h
  simpa using h.1

theorem Goal.norm_of_normVar? {goal : Goal} {x : Var} (h : goal.normVar? = some x) :
    ∃ post, goal.norm = .normal x post := by
  unfold Goal.normVar? at h
  split at h
  · next x post hnorm =>
    cases h
    exact ⟨post, hnorm⟩
  all_goals cases h

/-! ## Records -/

/-- What a goal has on record about the rules that are tried on it. -/
structure GoalRecord where
  norm : NormState
  vars : VarSet
  branch : BranchState
  applications : List ApplicationId
  selected : Bool
  queue : List QueuedRule
  failedRules : List String

def Goal.record (a : Goal) : GoalRecord :=
  ⟨a.norm, a.vars, a.branch, a.applications, a.selected, a.queue, a.failedRules⟩

/-- What an application has on record about the candidate that it was made from. -/
structure ApplicationRecord where
  parent : GoalId
  rule : AppliedRule
  post : Snapshot
  introduced : VarSet
  assigned : VarSet

def Application.record (a : Application) : ApplicationRecord :=
  ⟨a.parent, a.rule, a.post, a.introduced, a.assigned⟩

/-- The application that the candidate `c` is to become. -/
structure NewApplication.Offers (new : NewApplication) (c : Candidate) : Prop where
  post : new.post = c.post
  goals : new.goals = c.goals
  introduced : new.introduced = c.introduced
  assigned : new.assigned = c.assigned

/-- No rule has been tried on the goal. -/
structure Goal.Blank (a : Goal) : Prop where
  applications : a.applications = []
  selected : a.selected = false
  queue : a.queue = []

namespace Tree

variable {t t' t'' : Tree} {g k : GoalId}

/-- The goal and its applications have the same on record in both trees. -/
structure SameRecord (t t' : Tree) (g : GoalId) : Prop where
  goalRecord : (t'.goal g).record = (t.goal g).record
  applicationRecord : ∀ r ∈ (t.goal g).applications,
    (t'.application r).record = (t.application r).record

namespace SameRecord

theorem refl (t : Tree) (g : GoalId) : t.SameRecord t g := ⟨rfl, fun _ _ => rfl⟩

theorem norm (h : t.SameRecord t' g) : (t'.goal g).norm = (t.goal g).norm :=
  congrArg GoalRecord.norm h.goalRecord

theorem vars (h : t.SameRecord t' g) : (t'.goal g).vars = (t.goal g).vars :=
  congrArg GoalRecord.vars h.goalRecord

theorem branch (h : t.SameRecord t' g) : (t'.goal g).branch = (t.goal g).branch :=
  congrArg GoalRecord.branch h.goalRecord

theorem applications (h : t.SameRecord t' g) :
    (t'.goal g).applications = (t.goal g).applications :=
  congrArg GoalRecord.applications h.goalRecord

theorem selected (h : t.SameRecord t' g) : (t'.goal g).selected = (t.goal g).selected :=
  congrArg GoalRecord.selected h.goalRecord

theorem queue (h : t.SameRecord t' g) : (t'.goal g).queue = (t.goal g).queue :=
  congrArg GoalRecord.queue h.goalRecord

theorem failedRules (h : t.SameRecord t' g) :
    (t'.goal g).failedRules = (t.goal g).failedRules :=
  congrArg GoalRecord.failedRules h.goalRecord

theorem trans (h : t.SameRecord t' g) (h' : t'.SameRecord t'' g) : t.SameRecord t'' g :=
  ⟨h'.goalRecord.trans h.goalRecord,
    fun r hr => (h'.applicationRecord r (h.applications ▸ hr)).trans (h.applicationRecord r hr)⟩

end SameRecord

theorem Settling.sameRecord (h : t.Settling t') (g : GoalId) : t.SameRecord t' g :=
  ⟨by rw [(h.goal g).eq]; rfl, fun r _ => by rw [(h.application r).eq]; rfl⟩

theorem sameRecord_modifyGoal_of_ne (t : Tree) {f : Goal → Goal} (h : k ≠ g) :
    t.SameRecord (t.modifyGoal g f) k := by
  refine ⟨?_, fun _ _ => rfl⟩
  rw [goal_modifyGoal, if_neg fun hc => h hc.1]

theorem sameRecord_modifyGoal (t : Tree) (g : GoalId) {f : Goal → Goal}
    (hf : ∀ a, (f a).record = a.record) (k : GoalId) : t.SameRecord (t.modifyGoal g f) k := by
  refine ⟨?_, fun _ _ => rfl⟩
  rw [goal_modifyGoal]
  split
  · exact hf _
  · rfl

theorem sameRecord_markForcedUnprovable (t : Tree) (g k : GoalId) :
    t.SameRecord (t.markForcedUnprovable g) k := by
  unfold markForcedUnprovable
  split
  · exact .refl t k
  · refine SameRecord.trans ?_ ((settling_markUnprovable _ g).sameRecord k)
    exact sameRecord_modifyGoal t g (f := ({ · with forced := true })) (fun _ => rfl) k

theorem applications_modifyGoal {f : Goal → Goal} (hf : ∀ a, (f a).applications = a.applications) :
    ((t.modifyGoal g f).goal k).applications = (t.goal k).applications := by
  rw [goal_modifyGoal]
  split
  · exact hf _
  · rfl

theorem hasGoal_of_mem {r : ApplicationId} (h : r ∈ (t.goal g).applications) : t.HasGoal g := by
  by_contra hg
  rw [goal_of_not_has hg] at h
  cases h

theorem hasGoal_of_selected (h : (t.goal g).selected = true) : t.HasGoal g := by
  by_contra hg
  rw [goal_of_not_has hg] at h
  cases h

theorem blank_of_not_has (h : ¬ t.HasGoal g) : (t.goal g).Blank := by
  rw [goal_of_not_has h]
  exact ⟨rfl, rfl, rfl⟩

/-- A tree has been given an application made from `new`. -/
structure Enters (new : NewApplication) (t t' : Tree) : Prop where
  hasGoal : ∀ k, t.HasGoal k → t'.HasGoal k
  others : ∀ k, t.HasGoal k → k ≠ new.parent → t.SameRecord t' k
  blank : ∀ k, ¬ t.HasGoal k → (t'.goal k).Blank
  parent : (t'.goal new.parent).record = { (t.goal new.parent).record with
    applications := (t.goal new.parent).applications ++ [⟨t.applications.size⟩] }
  old : ∀ r ∈ (t.goal new.parent).applications,
    (t'.application r).record = (t.application r).record
  made : ∃ new' copies s s', Ends (t.carrySiblings new) s (new', copies) s' ∧
    (t'.application ⟨t.applications.size⟩).record =
      ⟨new.parent, new.rule, new'.post, new'.introduced, new'.assigned⟩

theorem Growth.enters {new new' : NewApplication} {copies : List GoalCopy}
    {groups : List (List Subgoal)} {s s' : Solver} (h : Growth new' copies groups t t')
    (hl : t.Linked) (hp : t.HasGoal new.parent)
    (hcarry : Ends (t.carrySiblings new) s (new', copies) s') : Enters new t t' := by
  have hnew := carrySiblings_ends hcarry
  have hparent : new'.parent = new.parent := by rw [hnew]
  have hrule : new'.rule = new.rule := by rw [hnew]
  have hmade {k : GoalId} (hk : t.HasGoal k) (r : ApplicationId)
      (hr : r ∈ (t.goal k).applications) :
      (t'.application r).record = (t.application r).record := by
    rw [h.application_old r (hl.applicationChild k hk r hr).1]
  refine ⟨fun k hk => h.hasGoal hk, fun k hg hk => ⟨?_, hmade hg⟩, fun k hg => ?_, ?_, hmade hp,
    new', copies, s, s', hcarry, ?_⟩
  · rw [h.goal_old k hg (hparent ▸ hk)]
  · by_cases hg' : t'.HasGoal k
    · obtain ⟨c, s, -, -, -, -, hmake⟩ := h.goal_new k hg hg'
      rw [hmake]
      exact ⟨rfl, rfl, rfl⟩
    · exact blank_of_not_has hg'
  · have hgoal := h.goal_parent
    rw [hparent] at hgoal
    rw [hgoal]
    rfl
  · rw [h.application_new, ← hparent, ← hrule]
    rfl

theorem Enters.settle {new : NewApplication} (h : Enters new t t') (hs : t'.Settling t'') :
    Enters new t t'' where
  hasGoal k hk := hs.hasGoal.2 (h.hasGoal k hk)
  others k hg hk := (h.others k hg hk).trans (hs.sameRecord k)
  blank k hg := by
    have hblank := h.blank k hg
    have hsame := hs.sameRecord k
    exact ⟨hsame.applications.trans hblank.applications, hsame.selected.trans hblank.selected,
      hsame.queue.trans hblank.queue⟩
  parent := (hs.sameRecord _).goalRecord.trans h.parent
  old r hr := by
    rw [(hs.application r).eq]
    exact h.old r hr
  made := by
    obtain ⟨new', copies, s, s', hcarry, hmade⟩ := h.made
    refine ⟨new', copies, s, s', hcarry, ?_⟩
    rw [(hs.application _).eq]
    exact hmade

theorem Enters.elsewhere {new : NewApplication} (h : Enters new t t') (hk : k ≠ new.parent) :
    t.SameRecord t' k ∨ (t'.goal k).Blank := by
  by_cases hg : t.HasGoal k
  · exact .inl (h.others k hg hk)
  · exact .inr (h.blank k hg)

theorem enters_addApplication {new : NewApplication} {added : AddedApplication} {s s' : Solver}
    (h : Ends (t.addApplication new) s (added, t') s') (hl : t.Linked)
    (hp : t.HasGoal new.parent) : Enters new t t' := by
  obtain ⟨new', copies, groups, u, hcarry, -, -, hgrow, -, -, ht⟩ := addApplication_growth h hp
  have henters : Enters new t u := hgrow.enters hl hp hcarry
  rcases ht with ⟨-, rfl⟩ | ⟨-, rfl⟩
  · exact henters.settle (settling_markApplicationProven u _)
  · exact henters

/-! ## What records say -/

/-- No application of the goal is an eager one. -/
def Uncommitted (t : Tree) (g : GoalId) : Prop :=
  ∀ r ∈ (t.goal g).applications, (t.application r).rule.kind.isEager = false

/-- A rule of that name is applied to the goal. -/
def Applied (t : Tree) (g : GoalId) (name : String) : Prop :=
  ∃ r ∈ (t.goal g).applications, (t.application r).rule.name = name

theorem Enters.applied {new : NewApplication} (h : Enters new t t') :
    t'.Applied new.parent new.rule.name := by
  obtain ⟨new', copies, s, s', -, hmade⟩ := h.made
  have happs : (t'.goal new.parent).applications = _ := congrArg GoalRecord.applications h.parent
  refine ⟨⟨t.applications.size⟩, ?_, ?_⟩
  · rw [happs]
    exact List.mem_append_right _ (List.mem_singleton_self _)
  · rw [show (t'.application ⟨t.applications.size⟩).rule = _ from
      congrArg ApplicationRecord.rule hmade]

/-- A rule of that name has failed on the goal or is applied to it. -/
def Tried (t : Tree) (g : GoalId) (name : String) : Prop :=
  name ∈ (t.goal g).failedRules ∨ t.Applied g name

/-- A rule of that name waits to be tried on the goal. -/
def Waits (t : Tree) (g : GoalId) (name : String) : Prop :=
  ∃ e ∈ (t.goal g).queue, e.rule.name = name

/-- The application was made from the candidate `c`.  The siblings that depend on what `c` assigned
are copied into its state. -/
def MadeFrom (t : Tree) (r : ApplicationId) (c : Candidate) : Prop :=
  ∃ (before : Tree) (new new' : NewApplication) (copies : List GoalCopy) (s s' : Solver),
    new.Offers c ∧ Ends (before.carrySiblings new) s (new', copies) s' ∧
    (t.application r).record =
      ⟨new.parent, new.rule, new'.post, new'.introduced, new'.assigned⟩

namespace SameRecord

variable {name : String} {r : ApplicationId}

theorem rule (h : t.SameRecord t' g) (hr : r ∈ (t.goal g).applications) :
    (t'.application r).rule = (t.application r).rule :=
  congrArg ApplicationRecord.rule (h.applicationRecord r hr)

theorem uncommitted (h : t.SameRecord t' g) : t'.Uncommitted g ↔ t.Uncommitted g := by
  unfold Uncommitted
  rw [h.applications]
  exact forall₂_congr fun r hr => by rw [h.rule hr]

theorem applied (h : t.SameRecord t' g) : t'.Applied g name ↔ t.Applied g name := by
  unfold Applied
  rw [h.applications]
  exact exists_congr fun r => and_congr_right fun hr => by rw [h.rule hr]

theorem tried (h : t.SameRecord t' g) : t'.Tried g name ↔ t.Tried g name := by
  rw [Tried, Tried, h.failedRules, h.applied]

theorem waits (h : t.SameRecord t' g) : t'.Waits g name ↔ t.Waits g name := by
  rw [Waits, Waits, h.queue]

theorem madeFrom {c : Candidate} (h : t.SameRecord t' g) (hr : r ∈ (t.goal g).applications) :
    t'.MadeFrom r c ↔ t.MadeFrom r c := by
  simp only [MadeFrom, h.applicationRecord r hr]

end SameRecord

end Tree

end ProofSearch
