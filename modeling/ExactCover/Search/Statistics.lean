/-
ExactCover.Search.Statistics — what a search cost.

The statistics belong to the caller and add up over searches. Each level of the
search tree has its updates, the constraints and cells that covering took out,
and a profile: how often a constraint with a given number of candidates, its
degree, was branched on at that level.
-/

namespace ExactCover

/-- What searches have cost so far. -/
structure Statistics where
  /-- How many nodes of the search tree were visited. -/
  nodes : Nat := 0
  /-- How many constraints and cells were taken out by covering. -/
  updates : Nat := 0
  /-- How many solutions were reported. -/
  solutions : Nat := 0
  /-- The deepest level that was reached. -/
  maxDepth : Nat := 0
  /-- The most candidates of a constraint that was branched on. -/
  maxBranching : Nat := 0
  /-- How many constraints and cells were taken out at each level. -/
  levelUpdates : Array Nat := #[]
  /-- For each level, how often each degree occurred. -/
  profiles : Array (Array Nat) := #[]
  deriving DecidableEq, Repr, Inhabited

/-- An array with as many copies of `fill` at its end as it needs to have an entry `i`. -/
def extendTo {α : Type} (fill : α) (i : Nat) (xs : Array α) : Array α :=
  xs ++ Array.replicate (i + 1 - xs.size) fill

namespace Statistics

/-- How often a constraint with `degree` candidates was branched on at `level`. -/
def profile (s : Statistics) (level degree : Nat) : Nat :=
  (s.profiles.getD level #[]).getD degree 0

/-- Counts a visit to a node. -/
def recordNode (s : Statistics) (level : Nat) : Statistics :=
  { s with nodes := s.nodes + 1, maxDepth := max s.maxDepth level }

/-- Counts a solution. -/
def recordSolution (s : Statistics) : Statistics := { s with solutions := s.solutions + 1 }

/-- Counts a constraint that is branched on. -/
def recordBranch (s : Statistics) (level degree : Nat) : Statistics :=
  { s with
    profiles := (extendTo #[] level s.profiles).modify level fun degrees =>
      (extendTo 0 degree degrees).modify degree (· + 1)
    maxBranching := max s.maxBranching degree }

/-- Counts what one cover or choice took out. -/
def recordUpdates (s : Statistics) (level updates : Nat) : Statistics :=
  { s with
    levelUpdates := (extendTo 0 level s.levelUpdates).modify level (· + updates)
    updates := s.updates + updates }

/-- A number with blanks before it up to a width. -/
def padded (width n : Nat) : String :=
  let digits := toString n
  "".pushn ' ' (width - digits.length) ++ digits

/-- The line for one level: how often each degree from 1 occurred, then its updates. -/
def levelLine (s : Statistics) (level : Nat) (degrees : Array Nat) : String :=
  let counts := String.join ((degrees.toList.drop 1).map fun n => " " ++ padded 5 n)
  let updates := padded 8 (s.levelUpdates.getD level 0)
  s!"{padded 3 level}:{counts} {updates} updates\n"

/-- The statistics as text: a line of totals, then a line for each level. -/
def text (s : Statistics) : String :=
  let costs := s!"{s.nodes} nodes, {s.updates} updates, {s.solutions} solutions, "
  let shape := s!"depth {s.maxDepth}, branching {s.maxBranching}\n"
  costs ++ shape ++ String.join (s.profiles.toList.mapIdx s.levelLine)

end Statistics

end ExactCover
