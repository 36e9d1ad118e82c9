/-
ExactCover.Strategy.NakedTriples — three constraints whose cells stand in three lines.

Let three constraints without a common candidate have two or three candidates
each. If their cells can be set out in three lines so that at most one cell of
each line can be part of the solution, then exactly one of each line is, because
three of them are. A candidate that conflicts with the whole of a line is
impossible.
-/
import ExactCover.Strategy.Elimination
import ExactCover.Strategy.Tuple

namespace ExactCover.Strategy

variable {P : Type}

/-- A line of a triple: one cell of each constraint, where it has one to give. -/
abbrev Line := List (Option CellId)

/-- The orders in which the cells of a constraint can be set out in three lines. -/
def lineOrders : List (Nat × Nat × Nat) :=
  [(0, 1, 2), (0, 2, 1), (1, 0, 2), (1, 2, 0), (2, 0, 1), (2, 1, 0)]

/-- The cells of three constraints in lines. The first keeps its order, since changing it would
only rename the lines. -/
def linesOf (x y z : List CellId) (p q : Nat × Nat × Nat) : List Line :=
  [[x[0]?, y[p.1]?, z[q.1]?],
   [x[1]?, y[p.2.1]?, z[q.2.1]?],
   [x[2]?, y[p.2.2]?, z[q.2.2]?]]

/-- The candidates of a line. -/
def lineMembers (m : Matrix P) (line : Line) : List CandidateId :=
  line.filterMap fun cell => cell.map m.candidateOf

/-- At most one candidate of the line can be part of the solution. -/
def isLocked (m : Matrix P) (line : Line) : Bool :=
  match lineMembers m line with
  | [a, b] => m.conflicts a b
  | [a, b, c] => (m.commonConstraint a [b, c]).isSome
  | _ => false

/-- What one arrangement of three constraints allows to eliminate. -/
def checkLines (m : Matrix P) (constraints : List ConstraintId) (lines : List Line) :
    Option Deduction :=
  if lines.all (isLocked m) then
    match m.distinct (lines.flatMap fun line => m.commonConflicts (lineMembers m line)) with
    | [] => none
    | eliminated =>
      some {
        strategy := .nakedTriples
        pattern := .triple constraints lines
        actions := eliminated.map .eliminate
        description := s!"triple in {m.constraintList constraints}" }
  else none

/-- The first arrangement of three constraints that allows an elimination. -/
def checkTriple (m : Matrix P) (a b c : ConstraintId) : Option Deduction :=
  let x := m.column a
  let y := m.column b
  let z := m.column c
  lineOrders.findSome? fun p => lineOrders.findSome? fun q =>
    checkLines m [a, b, c] (linesOf x y z p q)

/-- The first three constraints of two or three candidates each, without a common candidate, that
allow an elimination. -/
def findNakedTriple (m : Matrix P) : Option Deduction :=
  firstTriple (fun a b => !m.intersects a b) (checkTriple m)
    (m.activeConstraints.filter fun c => m.len c == 2 || m.len c == 3)

end ExactCover.Strategy
