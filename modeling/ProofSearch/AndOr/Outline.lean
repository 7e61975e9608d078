import ProofSearch.AndOr.Prune
import ProofSearch.Text.Blank

/-!
# Outlines of search trees

A tree is written as one line per node, each node before its children and indented below its parent.
The root cluster has no line.
-/

namespace ProofSearch

namespace Tree

/-- The word for the state of a goal. -/
def goalStateText (goal : Goal) : String :=
  match goal.state with
  | .unknown => if goal.forced then "forced unprovable" else "unknown"
  | .provenByRule => "proven"
  | .provenByNorm => "proven by normalization"
  | .unprovable => if goal.forced then "forced unprovable" else "unprovable"

/-- A state between brackets, with a mark for irrelevant nodes. -/
def stateText (state : String) (irrelevant : Bool) : String :=
  "[" ++ state ++ (if irrelevant then ", irrelevant" else "") ++ "]"

/-- The instantiated type of a variable in a state. -/
def typeText (x : Var) (state : Snapshot) : String :=
  match state.context.decl? x with
  | some decl => (state.context.instantiate decl.type).text
  | none => "<undeclared>"

/-- A goal is shown in its normal form once it has one. -/
def goalText (t : Tree) (g : GoalId) : String :=
  let goal := t.goal g
  let (x, state) := match goal.norm with
    | .normal x post => (x, post)
    | .notNormal | .proven _ => (goal.var, t.preState g)
  g.text ++ " " ++ stateText (goalStateText goal) goal.irrelevant ++ " " ++ x.text ++ " : " ++
    typeText x state

def applicationText (t : Tree) (r : ApplicationId) : String :=
  let node := t.application r
  r.text ++ " " ++ stateText node.state.text node.irrelevant ++ " " ++ node.rule.text ++ " " ++
    node.probability.text

def clusterText (t : Tree) (c : ClusterId) : String :=
  let node := t.cluster c
  c.text ++ " " ++ stateText node.state.text node.irrelevant

def nodeText (t : Tree) : Node → String
  | .goal g => t.goalText g
  | .application r => t.applicationText r
  | .cluster c => t.clusterText c

/-- The line of a node at the given depth of nesting. -/
def line (t : Tree) (depth : Nat) (n : Node) : String :=
  String.ofList (List.replicate (2 * depth) ' ') ++ t.nodeText n

/-! ## Writing -/

/-- An outline that is being written: the nodes that wait for their lines, each with its depth of
nesting and the next one last, and the text so far. -/
structure Draft where
  waiting : Array (Node × Nat)
  text : String

/-- Writes the line of the next node.  Its children take its place, the first of them last. -/
def Draft.step? (t : Tree) (d : Draft) : Option Draft :=
  match d.waiting.back? with
  | none => none
  | some (n, depth) => some {
      waiting := d.waiting.pop ++ (t.children n).reverse.map (·, depth + 1)
      text := d.text ++ t.line depth n ++ "\n" }

/-- Writes line after line until no node waits, at most `fuel` lines. -/
def Draft.write (t : Tree) : Nat → Draft → Draft
  | 0, d => d
  | fuel + 1, d =>
    match d.step? t with
    | none => d
    | some d' => d'.write t fuel

/-- The number of nodes. -/
def nodeCount (t : Tree) : Nat := t.goals.size + t.applications.size + t.clusters.size

/-- Writes the outline behind a text.  Every node is written once, so there are no more lines than
nodes. -/
def write (t : Tree) (before : String) : Draft :=
  Draft.write t t.nodeCount ⟨#[(.goal root, 0)], before⟩

/-- The outline with an end of line behind every line. -/
def outline (t : Tree) : String := (t.write "").text

/-- The outline without white space at its end. -/
def text (t : Tree) : String := Text.trimEnd t.outline

end Tree

end ProofSearch
