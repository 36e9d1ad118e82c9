/-
ExactCover.Solver — solving by deductions.

A solver has a list of strategies. A step is the deduction of the first strategy
that sees one. A run applies steps until the matrix is solved, until some
constraint can no longer be satisfied (blocked), or until no strategy sees
anything (stuck), and leaves the matrix in its final state. Its `Report` lists
the deductions and all changes; `Report.rewind` takes the whole run back.

Every deduction rules out or places at least one candidate, so a run has no more
deductions than the matrix has active candidates; that number bounds the run.
-/
import ExactCover.Strategy.Find

namespace ExactCover

/-- Which strategies to use. -/
structure SolverConfig where
  /-- The strategies to try, in order. -/
  strategies : List Strategy := Strategy.all
  /-- Permission to look for tuples in several threads. It makes no difference where there is only
  one, as here: the first tuple with an answer is found. With several threads it may be a tuple with
  another first member instead, and so another deduction of the same strategy. -/
  parallel : Bool := false
  /-- Whether strategies may take it for granted that there is exactly one solution. -/
  assumeUnique : Bool := true
  deriving DecidableEq, Repr

/-- The strategies of a configuration without those that it rules out. -/
def SolverConfig.effective (config : SolverConfig) : List Strategy :=
  config.strategies.filter fun s => config.assumeUnique || !s.assumesUnique

/-- How a run ended. -/
inductive Outcome where
  /-- Every constraint is satisfied. -/
  | solved
  /-- Some constraint has no candidate left. -/
  | blocked
  /-- No strategy sees anything. -/
  | stuck
  deriving DecidableEq, Repr

/-- Why a run does not start. -/
inductive SolveError where
  | noConstraints
  deriving DecidableEq, Repr

/-- The sentence that reports an error. -/
def SolveError.message : SolveError → String
  | .noConstraints => "cannot solve a matrix without constraints"

/-- What a run did. -/
structure Report where
  outcome : Outcome
  /-- The deductions, in the order in which they were applied. -/
  deductions : List Deduction
  /-- The changes of all deductions, in order. -/
  changes : List Change
  /-- How many candidates were still possible at the end. -/
  remaining : Nat
  deriving DecidableEq, Repr

namespace Solver

variable {P : Type}

/-- The deduction of the first strategy that sees one. -/
def step (strategies : List Strategy) (m : Matrix P) : Option Deduction :=
  strategies.findSome? fun s => s.find m

/-- The report of a run that ends where it starts. -/
def halt (m : Matrix P) (outcome : Outcome) : Matrix P × Report :=
  let remaining := m.activeCandidateCount
  (m, { outcome, deductions := [], changes := [], remaining })

/-- A run of at most `n` deductions. -/
def run (strategies : List Strategy) : Nat → Matrix P → Matrix P × Report
  | n, m =>
    if m.isBlocked then halt m .blocked
    else if m.isSolved then halt m .solved
    else match step strategies m, n with
      | none, _ => halt m .stuck
      | some _, 0 => halt m .stuck
      | some d, n + 1 =>
        match d.apply m with
        | (m, changes) =>
          match run strategies n m with
          | (m, report) =>
            (m, { report with
              deductions := d :: report.deductions
              changes := changes ++ report.changes })

/-- Applies deductions until the matrix is solved, blocked or stuck. -/
def solve (strategies : List Strategy) (m : Matrix P) : Except SolveError (Matrix P × Report) :=
  if m.constraintCount = 0 then .error .noConstraints
  else
    let bound := m.activeCandidateCount
    .ok (run strategies bound m)

end Solver

namespace Report

/-- The run ended with every constraint satisfied. -/
def isSolved (r : Report) : Bool := r.outcome == .solved

/-- Takes every deduction of the run back, last first. -/
def rewind {P : Type} (r : Report) (m : Matrix P) : Matrix P × List Change :=
  runChanges (fun m d => d.undo m) m r.deductions.reverse

/-- The line that tells how the run ended. -/
def summary (r : Report) : Log.Entry :=
  let n := r.deductions.length
  match r.outcome with
  | .blocked => ⟨.error, s!"blocked after {n} deductions"⟩
  | .solved => ⟨.info, s!"solved with {n} deductions"⟩
  | .stuck => ⟨.warn, s!"stuck after {n} deductions, {r.remaining} candidates left"⟩

/-- The lines of the log for the run. -/
def log (r : Report) : List Log.Entry := r.deductions.map Deduction.logEntry ++ [r.summary]

end Report

end ExactCover
