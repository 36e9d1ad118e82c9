/-
ExactCover.Strategy.LockedSets — all candidates of a constraint lie in a larger one.

Whichever candidate satisfies the smaller constraint satisfies the larger one as
well, so the rest of the larger one is impossible.
-/
import ExactCover.Strategy.Elimination
import ExactCover.Strategy.Tuple

namespace ExactCover.Strategy

variable {P : Type}

/-- The word for a locked set, by the kinds of its two constraints. -/
def lockedSetWord : Kind → Kind → String
  | .box, _ => "pointing"
  | _, .box => "box/line reduction"
  | _, _ => "locked set"

/-- The deduction that empties `superset` of all that is not in `subset`. -/
def lockedSet (m : Matrix P) (subset superset : ConstraintId) : Deduction :=
  let rest := m.minus superset subset
  let what := lockedSetWord (m.kind subset) (m.kind superset)
  let inner := m.constraintName subset
  let outer := m.constraintName superset
  { strategy := .lockedSets
    pattern := .lockedSet subset superset
    actions := rest.map .eliminate
    description :=
      s!"{what}: candidates of {inner} all lie in {outer}, removing {rest.length} from {outer}" }

/-- Two constraints of different length, if the shorter is a strict subset of the longer. -/
def checkLocked (m : Matrix P) (a b : ConstraintId) : Option Deduction :=
  if m.len a = m.len b then none
  else
    let (subset, superset) := if m.len a < m.len b then (a, b) else (b, a)
    if m.isStrictSubsetOf subset superset then some (lockedSet m subset superset) else none

/-- The first two active constraints of which one is locked in the other. -/
def findLockedSet (m : Matrix P) : Option Deduction :=
  firstPair (checkLocked m) (m.activeConstraints.filter fun c => m.len c > 0)

end ExactCover.Strategy
