import ProofSearch.Rule.Basic

/-!
# Rule sets

Rules are kept by class, each class in the order in which its rules are tried: norm and safe rules
by rising penalty, tentative rules by falling probability, and then by name.  A rule is selected
for a goal if it has no index key or if some key matches the head of the target or of a
hypothesis.
-/

namespace ProofSearch

/-- A rule selected for a goal, with the places where its keys matched. -/
structure IndexMatch where
  rule : Rule
  locations : List MatchLocation

/-- How rules are selected for a target and hypotheses, each class in the order to try them. -/
structure RuleQuery where
  norm : Term → LocalContext → List IndexMatch
  safe : Term → LocalContext → List IndexMatch
  tentative : Term → LocalContext → List IndexMatch

/-! ## Selection -/

/-- The places where a key matches. -/
def IndexKey.locations (target : Term) (hyps : LocalContext) : IndexKey → List MatchLocation
  | .target head => if target.head? = some head then [.target] else []
  | .hyp head => (hyps.filter (·.type.head? = some head)).map (.hyp ·.name)

/-- The places where a rule matches, without repetition; none at all if it is not selected. -/
def Rule.locations? (r : Rule) (target : Term) (hyps : LocalContext) :
    Option (List MatchLocation) :=
  if r.index.isEmpty then some []
  else match (r.index.flatMap (·.locations target hyps)).eraseDups with
    | [] => none
    | found => some found

def selectRules (rules : List Rule) (target : Term) (hyps : LocalContext) : List IndexMatch :=
  rules.filterMap fun r => (r.locations? target hyps).map (⟨r, ·⟩)

/-- Selects all rules of a list in every class and for every goal. -/
def RuleQuery.all (rules : List Rule) : RuleQuery :=
  let select : Term → LocalContext → List IndexMatch := fun _ _ => rules.map (⟨·, []⟩)
  ⟨select, select, select⟩

/-! ## Order -/

/-- Inserts before the first element that has to stand behind the new one, and so behind all equal
elements. -/
def insertOrdered {α : Type} (le : α → α → Bool) (a : α) : List α → List α
  | [] => [a]
  | b :: bs => if le b a then b :: insertOrdered le a bs else a :: b :: bs

/-- Sorts by inserting one element after the other; equal elements keep their order. -/
def sortOrdered {α : Type} (le : α → α → Bool) (as : List α) : List α :=
  as.foldl (fun sorted a => insertOrdered le a sorted) []

namespace Rule

def penalty (r : Rule) : Int :=
  match r.priority with
  | .norm penalty | .safe penalty _ => penalty
  | .tentative _ => 0

def probability (r : Rule) : Percent :=
  match r.priority with
  | .tentative probability => probability
  | .norm _ | .safe .. => .hundred

/-- Smaller penalties first, then by name. -/
def penaltyLE (r s : Rule) : Bool :=
  ((compare r.penalty s.penalty).then (compare r.name s.name)).isLE

/-- Greater probabilities first, then by name. -/
def probabilityLE (r s : Rule) : Bool :=
  ((compare s.probability r.probability).then (compare r.name s.name)).isLE

end Rule

/-! ## Rule sets -/

/-- Rules by class, each class in order. -/
structure RuleSet where
  norm : List Rule := []
  safe : List Rule := []
  tentative : List Rule := []

namespace RuleSet

def empty : RuleSet := {}

/-- Adds a rule to its class and sorts the class again. -/
def add (rs : RuleSet) (r : Rule) : RuleSet :=
  match r.priority with
  | .norm _ => { rs with norm := sortOrdered Rule.penaltyLE (rs.norm ++ [r]) }
  | .safe .. => { rs with safe := sortOrdered Rule.penaltyLE (rs.safe ++ [r]) }
  | .tentative _ => { rs with tentative := sortOrdered Rule.probabilityLE (rs.tentative ++ [r]) }

def ofList (rules : List Rule) : RuleSet := rules.foldl add empty

/-- All rules, class by class. -/
def toList (rs : RuleSet) : List Rule := rs.norm ++ rs.safe ++ rs.tentative

def size (rs : RuleSet) : Nat := rs.norm.length + rs.safe.length + rs.tentative.length

def isEmpty (rs : RuleSet) : Bool := rs.size = 0

def query (rs : RuleSet) : RuleQuery where
  norm := selectRules rs.norm
  safe := selectRules rs.safe
  tentative := selectRules rs.tentative

end RuleSet

end ProofSearch
