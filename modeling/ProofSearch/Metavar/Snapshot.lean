import ProofSearch.Metavar.Unify

/-!
# Snapshots

A snapshot is all that a rule can change and a search can take back: the metavariable context and
the global declarations made on the way.
-/

namespace ProofSearch

/-- Global declarations, such as auxiliary lemmas made by a rule, by name. -/
structure Environment where
  decls : SortedMap String Term
deriving DecidableEq, Inhabited

namespace Environment

def empty : Environment := ⟨∅⟩

def get? (env : Environment) (name : String) : Option Term := env.decls.get? name

def contains (env : Environment) (name : String) : Bool := (env.get? name).isSome

def size (env : Environment) : Nat := env.decls.size

def isEmpty (env : Environment) : Bool := env.decls.isEmpty

/-- The declarations in the order of their names. -/
def toList (env : Environment) : List (String × Term) := env.decls.entries

/-- Declares a name, replacing an earlier declaration of it. -/
def add (env : Environment) (name : String) (value : Term) : Environment :=
  ⟨env.decls.insert name value⟩

@[simp] theorem get?_add (env : Environment) (name other : String) (value : Term) :
    (env.add name value).get? other = if other = name then some value else env.get? other :=
  SortedMap.get?_insert ..

/-- The declarations whose names `earlier` lacks. -/
def addedSince (env earlier : Environment) : List (String × Term) :=
  env.toList.filter fun decl => !earlier.contains decl.1

end Environment

/-- The state of a solver at one moment. -/
structure Snapshot where
  context : Context
  env : Environment
deriving DecidableEq, Inhabited

def Snapshot.empty : Snapshot := ⟨.empty, .empty⟩

end ProofSearch
