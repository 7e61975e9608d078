import ProofSearch.AndOr.Tree
import ProofSearch.Search.Options

/-!
# Goal queues

The goals still to be expanded, in the order in which they will be taken.  Entries keep what was
known of a goal when it was pushed; goals that are no longer active are skipped when they are
taken.
-/

namespace ProofSearch

structure QueueEntry where
  goal : GoalId
  probability : Percent
  expandedIn : Nat
  addedIn : Nat
deriving DecidableEq, Repr

namespace QueueEntry

def ofGoal (g : GoalId) (goal : Goal) : QueueEntry :=
  ⟨g, goal.probability, goal.expandedIn, goal.addedIn⟩

/-- The order of best-first search: the higher probability, then the goal expanded least recently,
then the goal added earliest, then the smaller number. -/
def order (a b : QueueEntry) : Ordering :=
  (compare b.probability a.probability)
    |>.then (compare a.expandedIn b.expandedIn)
    |>.then (compare a.addedIn b.addedIn)
    |>.then (compare a.goal.index b.goal.index)

end QueueEntry

/-- Pending goals, the next one first. -/
structure GoalQueue where
  strategy : Strategy
  pending : List QueueEntry
deriving Repr

namespace GoalQueue

def empty (strategy : Strategy) : GoalQueue := ⟨strategy, []⟩

def push (q : GoalQueue) (e : QueueEntry) : GoalQueue :=
  match q.strategy with
  | .bestFirst => { q with pending := insertOrdered (fun a b => (a.order b).isLE) e q.pending }
  | .depthFirst => { q with pending := e :: q.pending }
  | .breadthFirst => { q with pending := q.pending ++ [e] }

/-- Pushes several goals; depth-first search takes the first of them first. -/
def pushAll (q : GoalQueue) (es : List QueueEntry) : GoalQueue :=
  match q.strategy with
  | .depthFirst => es.reverse.foldl push q
  | .bestFirst | .breadthFirst => es.foldl push q

def pop? (q : GoalQueue) : Option (GoalId × GoalQueue) :=
  match q.pending with
  | [] => none
  | e :: rest => some (e.goal, { q with pending := rest })

def size (q : GoalQueue) : Nat := q.pending.length

def isEmpty (q : GoalQueue) : Bool := q.pending.isEmpty

end GoalQueue

end ProofSearch
