/-
ExactCover.Strategy.Wings — a hinge and two wings.

Let three constraints without a common candidate have two candidates each: a
hinge {h1, h2} and two wings {a1, a2} and {b1, b2}. If h1 conflicts with a1 and
h2 with b1, then whichever way the hinge goes forces a2 or b2. A candidate that
conflicts with both of these pincers is impossible.
-/
import ExactCover.Strategy.Elimination
import ExactCover.Strategy.Tuple

namespace ExactCover.Strategy

variable {P : Type}

/-- A constraint with its two cells. -/
structure Bivalue where
  constraint : ConstraintId
  cells : CellPair

/-- A pair and the same pair the other way round. -/
def flips {α : Type} (x : α × α) : List (α × α) := [x, (x.2, x.1)]

/-- The ways to make one of three the hinge and the others the wings. -/
def wingRoles {α : Type} (a b c : α) : List (α × α × α) :=
  [(a, b, c), (a, c, b), (b, a, c), (b, c, a), (c, a, b), (c, b, a)]

/-- The deduction that one of two pincers holds. -/
def wing (m : Matrix P) (cellsOnly : Bool) (hinge : ConstraintId)
    (wings : ConstraintId × ConstraintId) (pincers : CellPair) (eliminated : List CellId) :
    Deduction :=
  let allCells := [hinge, wings.1, wings.2].all fun c => m.kind c == .cell
  let word := if allCells then "Y-Wing" else "XY-Wing"
  let center := m.constraintName hinge
  let others := m.constraintList [wings.1, wings.2]
  let what := s!"{word} with hinge {center} and wings {others}"
  { strategy := if cellsOnly then .yWing else .xyWing
    pattern := .wing hinge wings pincers
    actions := eliminated.map .eliminate
    description := s!"{what}: one of {m.nameAt pincers.1} and {m.nameAt pincers.2} holds" }

/-- What a hinge and two wings, each turned one way, allow to eliminate. -/
def checkPincers (m : Matrix P) (cellsOnly : Bool) (hinge a b : Bivalue) (x y : CellPair) :
    Option Deduction :=
  match m.distinct (m.commonConflicts [m.candidateOf x.2, m.candidateOf y.2]) with
  | [] => none
  | eliminated =>
    some (wing m cellsOnly hinge.constraint (a.constraint, b.constraint) (x.2, y.2) eliminated)

/-- The first turns of two wings that the hinge excludes one candidate of, each by one of its
own, and that allow an elimination. -/
def checkRoles (m : Matrix P) (cellsOnly : Bool) (hinge a b : Bivalue) : Option Deduction :=
  (flips a.cells).findSome? fun x =>
    if m.cellsConflict hinge.cells.1 x.1 then
      (flips b.cells).findSome? fun y =>
        if m.cellsConflict hinge.cells.2 y.1 then checkPincers m cellsOnly hinge a b x y else none
    else none

/-- The first roles of three constraints that allow an elimination. -/
def checkWing (m : Matrix P) (cellsOnly : Bool) (a b c : ConstraintId) : Option Deduction :=
  match m.twoCells? a, m.twoCells? b, m.twoCells? c with
  | some x, some y, some z =>
    (wingRoles (Bivalue.mk a x) (Bivalue.mk b y) (Bivalue.mk c z)).findSome? fun (hinge, v, w) =>
      checkRoles m cellsOnly hinge v w
  | _, _, _ => none

/-- The active constraints with two candidates, of every kind or cells only. -/
def bivalueConstraints (m : Matrix P) (cellsOnly : Bool) : List ConstraintId :=
  (m.activeConstraintsOfLen 2).filter fun c => !cellsOnly || m.kind c == .cell

/-- The first three constraints of two candidates each that allow an elimination. -/
def findWing (m : Matrix P) (cellsOnly : Bool) : Option Deduction :=
  firstTriple (fun a b => !m.intersects a b) (checkWing m cellsOnly)
    (bivalueConstraints m cellsOnly)

end ExactCover.Strategy
