/-
ExactCover.Search.Limits — ceilings on a search, and what happens at them.
-/

namespace ExactCover

/-- Ceilings on a search. -/
structure SearchLimits where
  /-- How many candidates may be chosen one inside the other. -/
  maxDepth : Nat := 150
  /-- How many candidates a constraint that is branched on may have. -/
  maxBranching : Nat := 1000
  /-- After how many solutions the search ends. -/
  maxSolutions : Option Nat := none
  deriving DecidableEq, Repr

/-- The default ceilings, with an end after `limit` solutions. -/
def SearchLimits.solutions (limit : Nat) : SearchLimits := { maxSolutions := some limit }

/-- Why a search does not start or breaks off. -/
inductive SearchError where
  | noConstraints
  | depthLimit (limit : Nat)
  | branchLimit (level degree limit : Nat)
  deriving DecidableEq, Repr

/-- The sentence that reports an error. -/
def SearchError.message : SearchError → String
  | .noConstraints => "cannot search a matrix without constraints"
  | .depthLimit limit => s!"search exceeded {limit} levels"
  | .branchLimit level degree limit =>
    s!"search branched {degree} ways at level {level}, limit is {limit}"

end ExactCover
