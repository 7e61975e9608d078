import ProofSearch.Text.Blank

/-!
# Search options

The limits and switches of a search, and how a text setting changes them.  A limit of 0 means no
limit.  Names of settings are compared without case, underscores and hyphens.
-/

namespace ProofSearch

/-- The order in which active goals are expanded. -/
inductive Strategy where
  /-- Highest success probability first. -/
  | bestFirst
  | depthFirst
  | breadthFirst
deriving DecidableEq, Repr, Inhabited

/-- Why a text setting is refused. -/
inductive OptionError where
  | unknownOption (name : String)
  | invalidValue (name value expected : String)
deriving DecidableEq, Repr

def OptionError.message : OptionError → String
  | .unknownOption name => "unknown option '" ++ name ++ "'"
  | .invalidValue name value expected =>
    "invalid value '" ++ value ++ "' for option '" ++ name ++ "': expected " ++ expected

/-- The form in which names are compared: ASCII lower case without underscores and hyphens. -/
def normalizeKey (key : String) : String :=
  String.ofList ((key.toList.filter fun c => c ≠ '_' && c ≠ '-').map Char.toLower)

namespace Strategy

def text : Strategy → String
  | .bestFirst => "bestFirst"
  | .depthFirst => "depthFirst"
  | .breadthFirst => "breadthFirst"

def ofText (value : String) : Except OptionError Strategy :=
  match normalizeKey value with
  | "bestfirst" => .ok .bestFirst
  | "depthfirst" => .ok .depthFirst
  | "breadthfirst" => .ok .breadthFirst
  | _ => .error (.invalidValue "strategy" value "bestFirst, depthFirst or breadthFirst")

end Strategy

/-- The settings of a search. -/
structure Options where
  strategy : Strategy := .bestFirst
  /-- The search stops once the tree has this many goals. -/
  maxGoals : Nat := 0
  /-- The search stops once the tree has this many rule applications. -/
  maxRuleApplications : Nat := 200
  /-- Goals at this depth are given up without trying any rule. -/
  maxRuleApplicationDepth : Nat := 30
  /-- The rounds after which normalization of a goal is taken not to end. -/
  maxNormIterations : Nat := 100
  /-- The safe rule applications that may be added after a failed search; 0 allows none. -/
  maxSafePrefixRuleApplications : Nat := 50
  /-- The bound on search iterations and on the nesting of copying and extraction. -/
  maxRecursionDepth : Nat := 512
  /-- A search without a proof is an error. -/
  terminal : Bool := false
  warnOnNonterminal : Bool := true
  /-- The variables a rule reports are compared with those it introduced and assigned. -/
  checkRuleEffects : Bool := true
  /-- The simplifier takes part in normalization. -/
  enableSimp : Bool := true
deriving DecidableEq, Repr, Inhabited

namespace Options

/-- The value of a run of decimal digits. -/
def digitsValue (digits : List Char) : Nat :=
  digits.foldl (fun n c => 10 * n + (c.toNat - '0'.toNat)) 0

/-- A natural number below `2 ^ 64`, written in decimal digits behind an optional plus sign. -/
def readWord? (s : String) : Option Nat :=
  let digits := match s.toList with
    | '+' :: rest => rest
    | cs => cs
  if digits.isEmpty || !digits.all Char.isDigit then none
  else
    let n := digitsValue digits
    if n < Nat.pow 2 64 then some n else none

/-- The number that a setting gives. -/
def readCount (name value : String) : Except OptionError Nat :=
  match readWord? (Text.trim value) with
  | some n => .ok n
  | none => .error (.invalidValue name value "a non-negative integer")

/-- The switch that a setting gives. -/
def readFlag (name value : String) : Except OptionError Bool :=
  match Text.trim value with
  | "true" => .ok true
  | "false" => .ok false
  | _ => .error (.invalidValue name value "true or false")

/-- The options after one setting. -/
def assign (o : Options) (name value : String) : Except OptionError Options :=
  match normalizeKey name with
  | "strategy" => (Strategy.ofText value).map fun s => { o with strategy := s }
  | "maxgoals" => (readCount name value).map fun n => { o with maxGoals := n }
  | "maxruleapplications" =>
    (readCount name value).map fun n => { o with maxRuleApplications := n }
  | "maxruleapplicationdepth" =>
    (readCount name value).map fun n => { o with maxRuleApplicationDepth := n }
  | "maxnormiterations" => (readCount name value).map fun n => { o with maxNormIterations := n }
  | "maxsafeprefixruleapplications" =>
    (readCount name value).map fun n => { o with maxSafePrefixRuleApplications := n }
  | "maxrecursiondepth" => (readCount name value).map fun n => { o with maxRecursionDepth := n }
  | "terminal" => (readFlag name value).map fun b => { o with terminal := b }
  | "warnonnonterminal" => (readFlag name value).map fun b => { o with warnOnNonterminal := b }
  | "checkruleeffects" => (readFlag name value).map fun b => { o with checkRuleEffects := b }
  | "enablesimp" => (readFlag name value).map fun b => { o with enableSimp := b }
  | _ => .error (.unknownOption name)

/-- The options after several settings, up to the first that is refused. -/
def assignAll (o : Options) (settings : List (String × String)) : Except OptionError Options :=
  settings.foldlM (fun o setting => o.assign setting.1 setting.2) o

/-- The limits under the names of their settings. -/
def limits (o : Options) : List (String × Nat) :=
  [("max_goals", o.maxGoals),
   ("max_rule_applications", o.maxRuleApplications),
   ("max_rule_application_depth", o.maxRuleApplicationDepth),
   ("max_norm_iterations", o.maxNormIterations),
   ("max_safe_prefix_rule_applications", o.maxSafePrefixRuleApplications),
   ("max_recursion_depth", o.maxRecursionDepth)]

/-- The switches under the names of their settings. -/
def flags (o : Options) : List (String × Bool) :=
  [("terminal", o.terminal),
   ("warn_on_nonterminal", o.warnOnNonterminal),
   ("check_rule_effects", o.checkRuleEffects),
   ("enable_simp", o.enableSimp)]

end Options

end ProofSearch
