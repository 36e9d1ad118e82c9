/-
ExactCover.Strategy.NakedPairs — two constraints with two candidates each, crossing.

Let the constraints be {n1, n2} and {n3, n4} without a common candidate. If n1
conflicts with n3 and n2 with n4, then either n1 and n4 or n2 and n3 are part of
the solution. So anything that conflicts with both n1 and n3 is impossible, and
likewise anything that conflicts with both n2 and n4.
-/
import ExactCover.Strategy.Elimination
import ExactCover.Strategy.Tuple

namespace ExactCover.Strategy

variable {P : Type}

/-- The ways to match the cells of two constraints so that matched cells conflict. -/
def crossings (m : Matrix P) (x y : CellPair) : List (CellPair × CellPair) :=
  [((x.1, y.1), (x.2, y.2)), ((x.1, y.2), (x.2, y.1))].filter fun matched =>
    m.cellsConflict matched.1.1 matched.1.2 && m.cellsConflict matched.2.1 matched.2.2

/-- The cells of the candidates that conflict with both cells of a matched pair. -/
def conflictsOfPair (m : Matrix P) (pair : CellPair) : List CellId :=
  m.commonConflicts [m.candidateOf pair.1, m.candidateOf pair.2]

/-- What two constraints of two candidates each allow to eliminate. -/
def checkPair (m : Matrix P) (first second : ConstraintId) : Option Deduction :=
  if m.intersects first second then none
  else
    match m.twoCells? first, m.twoCells? second with
    | some x, some y =>
      let matchings := crossings m x y
      let eliminated := m.distinct (matchings.flatMap fun matched =>
        conflictsOfPair m matched.1 ++ conflictsOfPair m matched.2)
      match matchings, eliminated with
      | matched :: _, _ :: _ =>
        some {
          strategy := .nakedPairs
          pattern := .pair (first, second) matched
          actions := eliminated.map .eliminate
          description := s!"pair in {m.constraintList [first, second]}" }
      | _, _ => none
    | _, _ => none

/-- The first two active constraints of two candidates each that allow an elimination. -/
def findNakedPair (m : Matrix P) : Option Deduction :=
  firstPair (checkPair m) (m.activeConstraintsOfLen 2)

end ExactCover.Strategy
