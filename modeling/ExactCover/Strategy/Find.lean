/-
ExactCover.Strategy.Find — what a strategy sees in a matrix.

`Strategy.find` gives the first deduction of a kind, and nothing if there is
none. It only looks; the deduction changes the matrix when it is applied.
-/
import ExactCover.Log
import ExactCover.Strategy.LockedSets
import ExactCover.Strategy.NakedPairs
import ExactCover.Strategy.NakedTriples
import ExactCover.Strategy.Rectangles
import ExactCover.Strategy.Singles
import ExactCover.Strategy.Wings

namespace ExactCover

/-- The first deduction that a strategy sees. -/
def Strategy.find {P : Type} (m : Matrix P) : Strategy → Option Deduction
  | .singles => findSingle m
  | .lockedSets => findLockedSet m
  | .nakedPairs => findNakedPair m
  | .yWing => findWing m true
  | .nakedTriples => findNakedTriple m
  | .uniqueRectangle => findRectangle m true
  | .hiddenUniqueRectangle => findRectangle m false
  | .xyWing => findWing m false

/-- The line of the log that tells of a deduction when it is found. -/
def Deduction.logEntry (d : Deduction) : Log.Entry := ⟨.debug, d.description⟩

end ExactCover
