/-
ExactCover.Search.Descent — enumerating exact covers by backtracking.

At every level the active constraint with the fewest candidates left is covered,
the lowest such constraint if there are several, and each of its candidates is
tried in turn: its other constraints are covered, it goes onto the solution
stack, and the search descends. When no active constraint is left, the stack
holds a solution and the visitor sees the matrix. Whatever ends a descent, the
covers it made are undone on the way back, so a search hands back the matrix it
was given.

The levels that `maxDepth` still allows are the recursion's measure; a descent
that needs one more fails with `SearchError.depthLimit`.
-/
import ExactCover.Log
import ExactCover.Matrix.Cover
import ExactCover.Search.Limits
import ExactCover.Search.Statistics

namespace ExactCover

/-- Who watches a search, with a state of type `σ`. -/
structure Visitor (P σ : Type) where
  /-- A cell was chosen at a level. -/
  onTry : σ → Nat → CellId → Matrix P → σ
  /-- The matrix holds a solution. Answers whether to go on. -/
  onSolution : σ → Matrix P → σ × Bool

/-- How a search, or the part of it below a node, ended. -/
inductive Ending where
  /-- Everything was searched. -/
  | exhausted
  /-- The visitor or the number of solutions put an end to it. -/
  | stopped
  /-- A ceiling was hit, or there was nothing to search. -/
  | failed (e : SearchError)
  deriving DecidableEq, Repr

/-- The error of an ending that has one. -/
def Ending.error? : Ending → Option SearchError
  | .failed e => some e
  | _ => none

/-- A search under way. -/
structure Descent (P σ : Type) where
  matrix : Matrix P
  stats : Statistics
  /-- How many solutions this search has reported. -/
  found : Nat
  /-- The state of the visitor. -/
  state : σ

namespace Search

variable {P σ : Type}

/-- Of the best constraint so far and one more, the one with fewer candidates left; the best so far
if there is nothing between them. -/
def shorter (m : Matrix P) (best : Option (ConstraintId × Nat)) (c : ConstraintId) :
    Option (ConstraintId × Nat) :=
  let n := m.len c
  match best with
  | none => some (c, n)
  | some (_, least) => if n < least then some (c, n) else best

/-- The active constraint with the fewest candidates left, the first of these in their order. -/
def chooseConstraint (m : Matrix P) : Option ConstraintId :=
  (m.activeConstraints.foldl (shorter m) none).map (·.1)

/-- Shows a solution to the visitor. -/
def report (limits : SearchLimits) (v : Visitor P σ) (d : Descent P σ) : Descent P σ × Ending :=
  match d with
  | ⟨m, stats, found, state⟩ =>
    let found := found + 1
    match v.onSolution state m with
    | (state, goOn) =>
      let more := match limits.maxSolutions with
        | none => true
        | some most => found < most
      (⟨m, stats.recordSolution, found, state⟩, if goOn && more then .exhausted else .stopped)

/-- Covers a constraint, searches, and uncovers it again. -/
def underCover (level : Nat) (c : ConstraintId)
    (inner : Descent P σ → Descent P σ × Ending) (d : Descent P σ) : Descent P σ × Ending :=
  match d with
  | ⟨m, stats, found, state⟩ =>
    match m.cover c with
    | ⟨m, _, updates⟩ =>
      match inner ⟨m, stats.recordUpdates level updates, found, state⟩ with
      | (⟨m, stats, found, state⟩, ending) =>
        (⟨(m.uncover c).matrix, stats, found, state⟩, ending)

/-- Chooses a cell whose constraint is covered, searches, and takes the choice back. -/
def underChoice (v : Visitor P σ) (level : Nat) (h : CellId)
    (inner : Descent P σ → Descent P σ × Ending) (d : Descent P σ) : Descent P σ × Ending :=
  match d with
  | ⟨m, stats, found, state⟩ =>
    match m.coverRow h with
    | ⟨m, _, updates⟩ =>
      let m := m.pushSolution h
      let state := v.onTry state level h m
      match inner ⟨m, stats.recordUpdates level updates, found, state⟩ with
      | (⟨m, stats, found, state⟩, ending) =>
        (⟨(m.popSolution.uncoverRow h).matrix, stats, found, state⟩, ending)

/-- Chooses one cell after another until a search below one of them does not run to its end. -/
def tryRows (v : Visitor P σ) (level : Nat) (inner : Descent P σ → Descent P σ × Ending) :
    List CellId → Descent P σ → Descent P σ × Ending
  | [], d => (d, .exhausted)
  | h :: rest, d =>
    match underChoice v level h inner d with
    | (d, .exhausted) => tryRows v level inner rest d
    | (d, ending) => (d, ending)

/-- Searches below a node at `level`, with `remaining` more levels allowed. -/
def descend (limits : SearchLimits) (v : Visitor P σ) :
    Nat → Nat → Descent P σ → Descent P σ × Ending
  | remaining, level, ⟨m, stats, found, state⟩ =>
    let stats := stats.recordNode level
    match chooseConstraint m with
    | none => report limits v ⟨m, stats, found, state⟩
    | some c =>
      let degree := m.len c
      if degree = 0 then (⟨m, stats, found, state⟩, .exhausted)
      else match remaining with
        | 0 => (⟨m, stats, found, state⟩, .failed (.depthLimit limits.maxDepth))
        | remaining + 1 =>
          if degree > limits.maxBranching then
            (⟨m, stats, found, state⟩, .failed (.branchLimit level degree limits.maxBranching))
          else
            underCover level c
              (fun d =>
                let rows := d.matrix.column c
                tryRows v level (fun d => descend limits v remaining (level + 1) d) rows d)
              ⟨m, stats.recordBranch level degree, found, state⟩

/-- Enumerates the exact covers of a matrix, adding what it costs to `stats`. -/
def search (limits : SearchLimits) (v : Visitor P σ) (m : Matrix P) (stats : Statistics)
    (state : σ) : Descent P σ × Ending :=
  if m.constraintCount = 0 then (⟨m, stats, 0, state⟩, .failed .noConstraints)
  else descend limits v limits.maxDepth 0 ⟨m, stats, 0, state⟩

/-- The line of the log that tells of a choice. -/
def tryEntry (level : Nat) (h : CellId) (m : Matrix P) : Log.Entry :=
  ⟨.trace, s!"level {level}: trying {m.rowName h}"⟩

end Search

/-- The same visitor, keeping a log of all choices besides. -/
def Visitor.logged {P σ : Type} (v : Visitor P σ) : Visitor P (σ × Array Log.Entry) where
  onTry := fun (state, log) level h m =>
    (v.onTry state level h m, log.push (Search.tryEntry level h m))
  onSolution := fun (state, log) m =>
    match v.onSolution state m with
    | (state, goOn) => ((state, log), goOn)

end ExactCover
