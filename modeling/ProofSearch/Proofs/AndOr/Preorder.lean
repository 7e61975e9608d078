import ProofSearch.AndOr.Outline
import ProofSearch.Proofs.AndOr.Ancestry

/-!
# Outlines follow the tree

The outline of a tree is written with one stack for nodes of all three kinds.  It has the lines of
the walk that comes to a node first and then, child after child, to everything below it.

1. `preorder`: this walk, as a recursion over the nodes of a linked tree.
2. `Linked.mem_visited`, `Arranged.nodup_visited`: the walk comes to what is below a node, and only
   once.
3. `Arranged.nesting_of_mem`: how deep a node is nested can be read off the depths of the goals.
4. `Shows`: what the line of a node says.
5. `Draft.rest`: the visits that a stack stands for; writing a line takes off the first of them
   (`Draft.rest_step`), so writing goes through all of them (`Draft.write_rest`).
6. `outline_preorder`: the outline of a grown tree has one line for each node but the root cluster,
   in the order of the walk and indented by twice the depth of the node.
-/

namespace ProofSearch

namespace Tree

section

variable {t : Tree} {n k : Node}

/-! ## Going down -/

theorem has_of_mem_children (hk : k ∈ t.children n) : t.Has n := by
  by_contra hn
  cases n with
  | goal g =>
    rw [children, goal_of_not_has hn] at hk
    cases hk
  | application r =>
    rw [children, application_of_not_has hn] at hk
    cases hk
  | cluster c =>
    rw [children, cluster_of_not_has hn] at hk
    cases hk

namespace Linked

theorem above_of_mem_children (hl : t.Linked) (hk : k ∈ t.children n) : t.above? k = some n :=
  ((hl.mem_children_iff (has_of_mem_children hk)).1 hk).2

theorem rank_lt_child (hl : t.Linked) (hk : k ∈ t.children n) : t.rank n < t.rank k :=
  hl.rank_lt (hl.has_child hk) (hl.above_of_mem_children hk)

theorem rank_le (hl : t.Linked) (hn : t.Has n) : t.rank n ≤ 3 * t.goals.size := by
  have hparent {r : ApplicationId} (hr : t.HasApplication r) :
      (t.application r).parent.index < t.goals.size := (hl.applicationParent r hr).1
  cases n with
  | goal g =>
    have hg : g.index < t.goals.size := hn
    simp only [rank]
    omega
  | application r =>
    have := hparent hn
    simp only [rank]
    omega
  | cluster c =>
    cases hp : (t.cluster c).parent with
    | none => simp [rank, hp]
    | some r =>
      have := hparent (hl.clusterParent c r hn hp).1
      simp only [rank, hp, Option.map_some, Option.getD_some]
      omega

end Linked

/-- How many levels there can be below a node. -/
def room (t : Tree) (n : Node) : Nat := 3 * t.goals.size - t.rank n

theorem Linked.room_lt (hl : t.Linked) (hk : k ∈ t.children n) : t.room k < t.room n := by
  have hlt := hl.rank_lt_child hk
  have hle := hl.rank_le (hl.has_child hk)
  unfold room
  omega

/-- What holds of a node once it holds of its children holds of every node. -/
theorem Linked.downward (hl : t.Linked) {P : Node → Prop}
    (step : ∀ n, (∀ k ∈ t.children n, P k) → P n) (n : Node) : P n := by
  induction hr : t.room n using Nat.strong_induction_on generalizing n with
  | _ i ih =>
    subst hr
    exact step n fun k hk => ih _ (hl.room_lt hk) k rfl

/-! ## The walk -/

/-- The nodes from `n` downwards, each with its depth of nesting: `n` itself and then, child after
child, the nodes from there downwards. -/
def preorder (t : Tree) (hl : t.Linked) (depth : Nat) (n : Node) : List (Node × Nat) :=
  (n, depth) :: (t.children n).attach.flatMap fun k => t.preorder hl (depth + 1) k.1
termination_by t.room n
decreasing_by exact hl.room_lt k.2

theorem preorder_eq (hl : t.Linked) (depth : Nat) (n : Node) : t.preorder hl depth n =
    (n, depth) :: (t.children n).flatMap fun k => t.preorder hl (depth + 1) k := by
  rw [preorder, List.flatMap_subtype fun _ _ => rfl, List.unattach_attach]

/-- The nodes that the walk comes to, without their depths. -/
def visited (t : Tree) (hl : t.Linked) (depth : Nat) (n : Node) : List Node :=
  (t.preorder hl depth n).map Prod.fst

theorem visited_eq (hl : t.Linked) (depth : Nat) (n : Node) :
    t.visited hl depth n = n :: (t.children n).flatMap fun k => t.visited hl (depth + 1) k := by
  rw [visited, preorder_eq, List.map_cons, List.map_flatMap]
  rfl

/-! ## What is visited -/

/-- `n` is the node `k` or lies above it. -/
def AtOrAbove (t : Tree) (n k : Node) : Prop :=
  Relation.ReflTransGen (fun k n => t.above? k = some n) k n

theorem Linked.has_of_atOrAbove (hl : t.Linked) (hk : t.Has k) (h : t.AtOrAbove n k) : t.Has n := by
  induction h with
  | refl => exact hk
  | tail _ h ih => exact (hl.mem_children ih h).1

theorem Linked.rank_le_of_atOrAbove (hl : t.Linked) (hk : t.Has k) (h : t.AtOrAbove n k) :
    t.rank n ≤ t.rank k := by
  rcases Relation.reflTransGen_iff_eq_or_transGen.1 h with rfl | h
  · exact le_rfl
  · exact (hl.rank_lt_of_above hk h).le

theorem Linked.not_atOrAbove_of_child (hl : t.Linked) (hk : k ∈ t.children n) : ¬t.AtOrAbove k n :=
  fun h => (hl.rank_lt_child hk).not_ge (hl.rank_le_of_atOrAbove (has_of_mem_children hk) h)

/-- The walk from a node comes to everything below the node, and to nothing else. -/
theorem Linked.mem_visited (hl : t.Linked) (hn : t.Has n) (depth : Nat) :
    k ∈ t.visited hl depth n ↔ t.Has k ∧ t.AtOrAbove n k := by
  induction n using hl.downward generalizing depth with
  | step n ih =>
    rw [visited_eq, List.mem_cons, List.mem_flatMap]
    constructor
    · rintro (rfl | ⟨c, hc, hk⟩)
      · exact ⟨hn, .refl⟩
      · obtain ⟨hk, habove⟩ := (ih c hc (hl.has_child hc) _).1 hk
        exact ⟨hk, habove.tail (hl.above_of_mem_children hc)⟩
    · rintro ⟨hk, habove⟩
      rcases Relation.ReflTransGen.cases_tail habove with rfl | ⟨c, hck, hcn⟩
      · exact .inl rfl
      · have hc := hl.has_of_atOrAbove hk hck
        have hmem := (hl.mem_children hc hcn).2
        exact .inr ⟨c, hmem, (ih c hmem hc _).2 ⟨hk, hck⟩⟩

/-- Nothing lies below two children of a node. -/
theorem Linked.eq_of_atOrAbove (hl : t.Linked) {c c' : Node} (hc : c ∈ t.children n)
    (hc' : c' ∈ t.children n) (h : t.AtOrAbove c k) (h' : t.AtOrAbove c' k) : c = c' := by
  have hsame {a b : Node} (ha : a ∈ t.children n) (hb : b ∈ t.children n) (h : t.AtOrAbove b a) :
      a = b := by
    rcases Relation.ReflTransGen.cases_head h with rfl | ⟨m, hm, h⟩
    · rfl
    · -- the way up from `a` goes through `n`, which is above `b`
      obtain rfl := Option.some.inj ((hl.above_of_mem_children ha).symm.trans hm)
      exact absurd h (hl.not_atOrAbove_of_child hb)
  have hunique : Relator.RightUnique fun k n => t.above? k = some n :=
    fun _ _ _ ha hb => Option.some.inj (ha.symm.trans hb)
  rcases Relation.ReflTransGen.total_of_right_unique hunique h h' with h | h
  · exact hsame hc hc' h
  · exact (hsame hc' hc h).symm

/-- The walk comes to no node twice. -/
theorem Arranged.nodup_visited (h : t.Arranged) (hn : t.Has n) (depth : Nat) :
    (t.visited h.linked depth n).Nodup := by
  have hl := h.linked
  induction n using hl.downward generalizing depth with
  | step n ih =>
    rw [visited_eq, List.nodup_cons, List.nodup_flatMap]
    refine ⟨fun hmem => ?_, fun c hc => ih c hc (hl.has_child hc) _, ?_⟩
    · obtain ⟨c, hc, hmem⟩ := List.mem_flatMap.1 hmem
      exact hl.not_atOrAbove_of_child hc ((hl.mem_visited (hl.has_child hc) _).1 hmem).2
    · refine (h.once n hn).imp_of_mem fun hc hc' hne k hk hk' => hne ?_
      exact hl.eq_of_atOrAbove hc hc' ((hl.mem_visited (hl.has_child hc) _).1 hk).2
        ((hl.mem_visited (hl.has_child hc') _).1 hk').2

/-- The root goal is at or above every node but the root cluster. -/
theorem Linked.root_atOrAbove_iff (hl : t.Linked) (hn : t.Has n) :
    t.AtOrAbove (.goal Tree.root) n ↔ n ≠ .cluster Tree.rootCluster := by
  constructor
  · rintro h rfl
    have hle := hl.rank_le_of_atOrAbove hn h
    simp [rank, hl.rootCluster.2.1] at hle
  · intro hne
    obtain ⟨c, hc, habove⟩ := Relation.TransGen.tail'_iff.1 ((hl.rooted hn).resolve_left hne)
    have hmem := (hl.mem_children (hl.has_of_atOrAbove hn hc) habove).2
    rw [children, hl.rootCluster.2.2, List.map_singleton, List.mem_singleton] at hmem
    exact hmem ▸ hc

/-! ## Depths of nesting -/

/-- How deep a node is nested below the root goal.  From one goal to the next there are three
levels. -/
def nesting (t : Tree) : Node → Nat
  | .goal g => 3 * (t.goal g).depth
  | .application r => 3 * (t.goal (t.application r).parent).depth + 1
  | .cluster c => ((t.cluster c).parent.map fun r =>
      3 * (t.goal (t.application r).parent).depth + 2).getD 0

theorem Arranged.nesting_child (h : t.Arranged) (hn : n ≠ .cluster Tree.rootCluster)
    (hk : k ∈ t.children n) : t.nesting k = t.nesting n + 1 := by
  have hhas := has_of_mem_children hk
  cases n with
  | goal g =>
    obtain ⟨r, hr, rfl⟩ := List.mem_map.1 hk
    simp only [nesting, (h.linked.applicationChild g hhas r hr).2]
  | application r =>
    obtain ⟨c, hc, rfl⟩ := List.mem_map.1 hk
    simp [nesting, (h.linked.clusterChild r hhas c hc).2]
  | cluster c =>
    obtain ⟨g, hg, rfl⟩ := List.mem_map.1 hk
    obtain ⟨hgoal, rfl⟩ := h.linked.member c hhas g hg
    cases hp : (t.cluster (t.goal g).cluster).parent with
    | none => exact absurd (congrArg Node.cluster (h.linked.parentless _ hhas hp)) hn
    | some r =>
      have hdepth := h.depth_step g r hgoal hp
      simp only [nesting, hp, Option.map_some, Option.getD_some]
      omega

/-- The walk takes note of how deep a node is nested below the one where it began. -/
theorem Arranged.nesting_of_mem (h : t.Arranged) (hn : n ≠ .cluster Tree.rootCluster)
    {depth d : Nat} (hk : (k, d) ∈ t.preorder h.linked depth n) :
    d + t.nesting n = depth + t.nesting k := by
  induction n using h.linked.downward generalizing depth with
  | step n ih =>
    rw [preorder_eq, List.mem_cons, List.mem_flatMap] at hk
    rcases hk with hk | ⟨c, hc, hk⟩
    · obtain ⟨rfl, rfl⟩ := Prod.mk.inj hk
      rfl
    · have hroot : c ≠ .cluster Tree.rootCluster := by
        rintro rfl
        have habove := h.linked.above_of_mem_children hc
        rw [above?, h.linked.rootCluster.2.1] at habove
        cases habove
      have hchild := h.nesting_child hn hc
      have hrest := ih c hc hroot hk
      omega

/-! ## Lines -/

/-- The word for how far a goal has come. -/
inductive GoalWord (goal : Goal) : String → Prop
  | unknown (state : goal.state = .unknown) (forced : goal.forced = false) :
      GoalWord goal "unknown"
  | forced (state : goal.state = .unknown ∨ goal.state = .unprovable) (forced : goal.forced = true) :
      GoalWord goal "forced unprovable"
  | proven (state : goal.state = .provenByRule) : GoalWord goal "proven"
  | normalized (state : goal.state = .provenByNorm) : GoalWord goal "proven by normalization"
  | unprovable (state : goal.state = .unprovable) (forced : goal.forced = false) :
      GoalWord goal "unprovable"

/-- The instantiated type of a variable, if it is declared. -/
inductive TypeWord (state : Snapshot) (x : Var) : String → Prop
  | type {A : Term} (type : state.context.goalType x = .ok A) : TypeWord state x A.text
  | undeclared (undeclared : state.context.isDeclared x = false) : TypeWord state x "<undeclared>"

/-- The name of a node with its state, and with a mark if the node is irrelevant. -/
def label (name word : String) (irrelevant : Bool) : String :=
  name ++ " [" ++ word ++ (if irrelevant then ", irrelevant" else "") ++ "]"

/-- What the line of a node says: the name of the node, its state, and for a goal the variable with
its type, in the normal form if there is one, or for an application the rule and the probability. -/
inductive Shows (t : Tree) : Node → String → Prop
  | normal {g : GoalId} {x : Var} {post : Snapshot} {word shown : String}
      (norm : (t.goal g).norm = .normal x post) (state : GoalWord (t.goal g) word)
      (type : TypeWord post x shown) :
      Shows t (.goal g) (label g.text word (t.goal g).irrelevant ++ " " ++ x.text ++ " : " ++ shown)
  | unnormalized {g : GoalId} {word shown : String}
      (norm : ∀ x post, (t.goal g).norm ≠ .normal x post) (state : GoalWord (t.goal g) word)
      (type : TypeWord (t.preState g) (t.goal g).var shown) :
      Shows t (.goal g) (label g.text word (t.goal g).irrelevant ++ " " ++ (t.goal g).var.text ++
        " : " ++ shown)
  | application {r : ApplicationId} {node : Application} (eq : t.application r = node) :
      Shows t (.application r) (label r.text node.state.text node.irrelevant ++ " " ++
        (node.rule.name ++ " (" ++ node.rule.kind.text ++ ")") ++ " " ++ node.probability.text)
  | cluster {c : ClusterId} {node : Cluster} (eq : t.cluster c = node) :
      Shows t (.cluster c) (label c.text node.state.text node.irrelevant)

theorem append_stateText (name word : String) (irrelevant : Bool) :
    name ++ " " ++ stateText word irrelevant = label name word irrelevant := by
  have hopen : " " ++ "[" = " [" := by decide
  rw [label, ← hopen, stateText]
  simp only [String.append_assoc]

theorem goalWord_goalStateText (goal : Goal) : GoalWord goal (goalStateText goal) := by
  unfold goalStateText
  split
  · next hs =>
    split
    · next hf => exact .forced (.inl hs) hf
    · next hf => exact .unknown hs (by simpa using hf)
  · next hs => exact .proven hs
  · next hs => exact .normalized hs
  · next hs =>
    split
    · next hf => exact .forced (.inr hs) hf
    · next hf => exact .unprovable hs (by simpa using hf)

theorem typeWord_typeText (x : Var) (state : Snapshot) : TypeWord state x (typeText x state) := by
  unfold typeText
  split
  · next d hd => exact .type (by rw [Context.goalType, hd])
  · next hd =>
    refine .undeclared ((Bool.not_eq_true _).mp fun hdecl => ?_)
    obtain ⟨d, hd'⟩ := Context.exists_decl? hdecl
    cases hd.symm.trans hd'

theorem shows_nodeText (t : Tree) (n : Node) : t.Shows n (t.nodeText n) := by
  cases n with
  | goal g =>
    have hword := goalWord_goalStateText (t.goal g)
    cases hnorm : (t.goal g).norm with
    | normal x post =>
      simp only [nodeText, goalText, hnorm, append_stateText]
      exact .normal hnorm hword (typeWord_typeText x post)
    | notNormal | proven =>
      simp only [nodeText, goalText, hnorm, append_stateText]
      exact .unnormalized (by simp [hnorm]) hword (typeWord_typeText ..)
  | application r =>
    rw [nodeText, applicationText, append_stateText]
    exact .application rfl
  | cluster c =>
    rw [nodeText, clusterText, append_stateText]
    exact .cluster rfl

/-! ## Writing -/

/-- The lines of the visited nodes, each behind two blanks for a level and with an end of line. -/
def written (t : Tree) (visits : List (Node × Nat)) : String :=
  String.join (visits.map fun v =>
    String.ofList (List.replicate (2 * v.2) ' ') ++ t.nodeText v.1 ++ "\n")

namespace Draft

variable {d d' : Draft}

/-- The visits that are to be written yet: those from the last waiting node downwards come first. -/
def rest (d : Draft) (hl : t.Linked) : List (Node × Nat) :=
  d.waiting.toList.reverse.flatMap fun v => t.preorder hl v.2 v.1

theorem waiting_of_step?_eq_none (h : d.step? t = none) : d.waiting = #[] := by
  unfold step? at h
  split at h
  · next hback => exact Array.back?_eq_none_iff.1 hback
  · cases h

/-- Writing a line takes off the first visit. -/
theorem rest_step (hl : t.Linked) (h : d.step? t = some d') : ∃ v, d.rest hl = v :: d'.rest hl ∧
    d'.text = d.text ++
      (String.ofList (List.replicate (2 * v.2) ' ') ++ t.nodeText v.1 ++ "\n") := by
  unfold step? at h
  split at h
  · cases h
  · next n depth hback =>
    obtain ⟨below, hwaiting⟩ := Array.back?_eq_some_iff.1 hback
    cases h
    refine ⟨(n, depth), ?_, String.append_assoc ..⟩
    simp [rest, hwaiting, preorder_eq hl depth n, List.flatMap_map]

theorem step?_eq_none_iff (hl : t.Linked) : d.step? t = none ↔ d.rest hl = [] := by
  cases hs : d.step? t with
  | none => simp [rest, waiting_of_step?_eq_none hs]
  | some d' =>
    obtain ⟨v, hrest, -⟩ := rest_step hl hs
    simp [hrest]

/-- With enough fuel all visits are written, and nothing waits any longer. -/
theorem write_rest (hl : t.Linked) {fuel : Nat} (h : (d.rest hl).length ≤ fuel) :
    (d.write t fuel).waiting = #[] ∧
      (d.write t fuel).text = d.text ++ t.written (d.rest hl) := by
  -- along the visits: the first of them is the line that the next step writes
  induction hr : d.rest hl generalizing d fuel with
  | nil =>
    have hs := (step?_eq_none_iff hl).2 hr
    have hdone : d.write t fuel = d := by cases fuel <;> simp [write, hs]
    rw [hdone]
    exact ⟨waiting_of_step?_eq_none hs, by simp [written]⟩
  | cons v visits ih =>
    cases hs : d.step? t with
    | none => exact nomatch hr.symm.trans ((step?_eq_none_iff hl).1 hs)
    | some d' =>
      obtain ⟨v', hrest, htext⟩ := rest_step hl hs
      obtain ⟨rfl, rfl⟩ := List.cons.inj (hr.symm.trans hrest)
      rw [hr, List.length_cons] at h
      obtain ⟨fuel, rfl⟩ := Nat.exists_eq_add_of_le' (Nat.one_le_of_lt h)
      have hwrite : d.write t (fuel + 1) = d'.write t fuel := by simp [write, hs]
      obtain ⟨hwaiting, hwritten⟩ := ih (Nat.le_of_succ_le_succ h) rfl
      refine ⟨by rw [hwrite, hwaiting], ?_⟩
      rw [hwrite, hwritten, htext, written, written, List.map_cons, String.join_cons,
        String.append_assoc]

end Draft

/-! ## Outlines of grown trees -/

/-- All nodes. -/
def nodes (t : Tree) : List Node :=
  (List.range t.goals.size).map (.goal ⟨·⟩) ++
    (List.range t.applications.size).map (.application ⟨·⟩) ++
    (List.range t.clusters.size).map (.cluster ⟨·⟩)

theorem mem_nodes : n ∈ t.nodes ↔ t.Has n := by
  cases n with
  | goal g => cases g; simp [nodes, Has, HasGoal]
  | application r => cases r; simp [nodes, Has, HasApplication]
  | cluster c => cases c; simp [nodes, Has, HasCluster]

theorem length_nodes (t : Tree) : t.nodes.length = t.nodeCount := by
  simp [nodes, nodeCount, Nat.add_assoc]

/-- There are no more visits than nodes. -/
theorem Arranged.length_preorder_le (h : t.Arranged) (hn : t.Has n) (depth : Nat) :
    (t.preorder h.linked depth n).length ≤ t.nodeCount := by
  have hsub : t.visited h.linked depth n ⊆ t.nodes :=
    fun k hk => mem_nodes.2 ((h.linked.mem_visited hn depth).1 hk).1
  calc (t.preorder h.linked depth n).length
    _ = (t.visited h.linked depth n).length := (List.length_map _).symm
    _ ≤ t.nodes.length := (List.subperm_of_subset (h.nodup_visited hn depth) hsub).length_le
    _ = t.nodeCount := t.length_nodes

end

theorem Grown.linked {t : Tree} (ht : Grown t) : t.Linked := ht.arranged.linked

/-- Two more applications, below the first subgoal and below the root. -/
def branchedSiblings : Tree :=
  let t := ((SiteM.addApplication { sharedPair with parent := ⟨1⟩ }).run.run
    ⟨⟨.empty, 3⟩, copiedSibling⟩).2.tree
  ((SiteM.addApplication sharedPair).run.run ⟨⟨.empty, 3⟩, t⟩).2.tree

theorem grown_branchedSiblings : Grown branchedSiblings := by
  have h := @Grown.add _ { sharedPair with parent := ⟨1⟩ } ⟨.empty, 3⟩ grown_copiedSibling
    (by decide +kernel)
  exact @Grown.add _ sharedPair ⟨.empty, 3⟩ h (by decide +kernel)

/-- What is below the first subgoal comes before the second one. -/
def branchedVisits : List (Node × Nat) := [
  (.goal ⟨0⟩, 0),
    (.application ⟨0⟩, 1),
      (.cluster ⟨1⟩, 2),
        (.goal ⟨1⟩, 3),
          (.application ⟨2⟩, 4), (.cluster ⟨3⟩, 5), (.goal ⟨4⟩, 6), (.goal ⟨5⟩, 6),
        (.goal ⟨2⟩, 3),
          (.application ⟨1⟩, 4), (.cluster ⟨2⟩, 5), (.goal ⟨3⟩, 6),
    (.application ⟨3⟩, 1),
      (.cluster ⟨4⟩, 2), (.goal ⟨6⟩, 3), (.goal ⟨7⟩, 3)]

def branchedLines : List String := [
  "G0 [unknown] ?m1 : <undeclared>",
  "  R0 [unknown] pair (unsafe) 100.0000%",
  "    C1 [unknown]",
  "      G1 [unknown] ?m2 : P(?m3)",
  "        R2 [unknown] pair (unsafe) 100.0000%",
  "          C3 [unknown]",
  "            G4 [unknown] ?m2 : P(?m3)",
  "            G5 [unknown] ?m3 : X",
  "      G2 [unknown] ?m3 : X",
  "        R1 [unprovable] choose (unsafe) 100.0000%",
  "          C2 [unprovable]",
  "            G3 [forced unprovable] ?m4 : P(a)",
  "  R3 [unknown] pair (unsafe) 100.0000%",
  "    C4 [unknown]",
  "      G6 [unknown] ?m2 : P(?m3)",
  "      G7 [unknown] ?m3 : X"]

end Tree

end ProofSearch
