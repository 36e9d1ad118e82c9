/-
ExactCover.Strategy.Basic — the strategies by name.

A strategy looks at a matrix for one kind of pattern. What the constraints stand
for is not its business, so the usual techniques of sudoku appear in general
form. `Strategy.all` lists the strategies, simplest first; the two rectangle
strategies are sound only where there is exactly one solution.
-/

namespace ExactCover

/-- A kind of deduction. -/
inductive Strategy where
  /-- A constraint with a single candidate left. -/
  | singles
  /-- All candidates of a constraint lie in a larger one. -/
  | lockedSets
  /-- Two constraints with two candidates each that exclude each other crosswise. -/
  | nakedPairs
  /-- A hinge and two wings, all of them cells. -/
  | yWing
  /-- Three constraints whose candidates stand in three lines. -/
  | nakedTriples
  /-- Three cells and a fourth constraint that would allow two solutions. -/
  | uniqueRectangle
  /-- The same with any constraints as corners. -/
  | hiddenUniqueRectangle
  /-- A hinge and two wings of any kind. -/
  | xyWing
  deriving DecidableEq, Repr

namespace Strategy

/-- All strategies, simplest first. -/
def all : List Strategy :=
  [singles, lockedSets, nakedPairs, yWing, nakedTriples, uniqueRectangle, hiddenUniqueRectangle,
    xyWing]

/-- The name under which a strategy is chosen and reported. -/
def name : Strategy → String
  | singles => "singles"
  | lockedSets => "locked-sets"
  | nakedPairs => "naked-pairs"
  | yWing => "y-wing"
  | nakedTriples => "naked-triples"
  | uniqueRectangle => "unique-rectangle"
  | hiddenUniqueRectangle => "hidden-unique-rectangle"
  | xyWing => "xy-wing"

/-- The strategy of that name. -/
def ofName? (s : String) : Option Strategy := all.find? fun x => x.name == s

/-- The strategy is sound only for problems with exactly one solution. -/
def assumesUnique : Strategy → Bool
  | uniqueRectangle | hiddenUniqueRectangle => true
  | _ => false

end Strategy

end ExactCover
