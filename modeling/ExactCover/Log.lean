/-
ExactCover.Log — lines that say what a solver is doing.

A line has a level of importance, and a reader chooses the least important level
that is still shown. On a terminal the level stands in a column of its own.
-/

namespace ExactCover

namespace Log

/-- How important a line is. -/
inductive Level where
  | error
  | warn
  | info
  | debug
  | trace
  deriving DecidableEq, Repr

/-- The name a line shows for its level. -/
def Level.name : Level → String
  | .error => "ERROR"
  | .warn => "WARN"
  | .info => "INFO"
  | .debug => "DEBUG"
  | .trace => "TRACE"

/-- How far a level is from the most important one. -/
def Level.detail : Level → Nat
  | .error => 1
  | .warn => 2
  | .info => 3
  | .debug => 4
  | .trace => 5

/-- A line of the log. -/
structure Entry where
  level : Level
  text : String
  deriving DecidableEq, Repr

/-- The line as it is written: the level in five columns, then the text. -/
def Entry.render (e : Entry) : String :=
  e.level.name.pushn ' ' (5 - e.level.name.length) ++ " " ++ e.text

/-- The lines that are at least as important as `least`. -/
def upTo (least : Level) (entries : List Entry) : List Entry :=
  entries.filter fun e => e.level.detail ≤ least.detail

end Log

end ExactCover
