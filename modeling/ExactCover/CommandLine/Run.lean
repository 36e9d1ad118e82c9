/-
ExactCover.CommandLine.Run — from a command line to what it prints.

A run reads at most one text, from a file or from standard input, and ends with
an exit code, the text of standard output and the text of standard error. The
log goes to standard error: warnings and worse at first, and one level more for
each time more output is asked for. Exit code 1 means that the error in the last
line of standard error ended the run, and code 2 that the command line could not
be understood.
-/
import ExactCover.CommandLine.Arguments
import ExactCover.Sudoku.Puzzle
import ExactCover.Sudoku.Samples

namespace ExactCover.CommandLine

open Sudoku

/-- Where a text comes from. -/
inductive Source where
  | file (path : String)
  | standardInput
  deriving DecidableEq, Repr

/-- Why a text cannot be read. -/
inductive ReadError where
  | notFound
  | isDirectory
  | notDirectory
  | notText
  /-- Any other reason, as the system words it. -/
  | system (reason : String)
  deriving DecidableEq, Repr

/-- The words for a reason. -/
def ReadError.message : ReadError → String
  | .notFound => "No such file or directory (os error 2)"
  | .isDirectory => "Is a directory (os error 21)"
  | .notDirectory => "Not a directory (os error 20)"
  | .notText => "stream did not contain valid UTF-8"
  | .system reason => reason

/-- Why a run fails. -/
inductive RunError where
  | unknownSample (name : String)
  | read (e : ReadError)
  | parse (e : ParseError)
  | search (e : SearchError)
  | solve (e : SolveError)
  deriving DecidableEq, Repr

/-- The sentence that reports an error. -/
def RunError.message : RunError → String
  | .unknownSample name => s!"no canned puzzle named {Text.quoted name}, try --list"
  | .read e => s!"failed to read puzzle: {e.message}"
  | .parse e => e.message
  | .search e => e.message
  | .solve e => e.message

/-- What a run leaves behind. -/
structure Output where
  code : Nat
  stdout : String
  stderr : String
  deriving DecidableEq, Repr

/-- What a run prints and logs, and the error that ended it, if one did. -/
structure Transcript where
  stdout : String := ""
  log : List Log.Entry := []
  error : Option RunError := none

/-- A run that an error ends before it prints anything. -/
def Transcript.failed (e : RunError) (log : List Log.Entry) : Transcript := { log, error := some e }

/-- A text and the end of its line. -/
def line (s : String) : String := s ++ "\n"

/-- The least important level that is shown. -/
def Arguments.level (a : Arguments) : Log.Level :=
  match a.verbosity with
  | 0 => .warn
  | 1 => .info
  | 2 => .debug
  | _ => .trace

/-- The text that a run reads, if it reads one. -/
def Arguments.source? (a : Arguments) : Option Source :=
  if a.list || a.canned.isSome then none
  else match a.input with
    | some path => some (.file path)
    | none => some .standardInput

/-- The puzzle of a run: a sample, or the text of its source. -/
def Arguments.puzzle (a : Arguments) (text : Except ReadError String) : Except RunError Puzzle :=
  match a.canned with
  | some name =>
    match Sample.ofName? name with
    | none => .error (.unknownSample name)
    | some sample => (Puzzle.ofRows sample.rows).mapError .parse
  | none =>
    match text with
    | .error e => .error (.read e)
    | .ok text => (Puzzle.parse text).mapError .parse

/-- A search with its log, which is kept only if it is going to be shown. -/
def searchLogged {σ : Type} (a : Arguments) (limits : SearchLimits) (v : Visitor Placement σ)
    (start : σ) (m : Matrix Placement) : Statistics × σ × List Log.Entry × Ending :=
  if a.level = .trace then
    match Search.search limits v.logged m {} (start, #[]) with
    | (d, ending) => (d.stats, d.state.1, d.state.2.toList, ending)
  else
    match Search.search limits v m {} start with
    | (d, ending) => (d.stats, d.state, [], ending)

/-- The statistics, if they were asked for. -/
def profileText (a : Arguments) (stats : Statistics) : String :=
  if a.profile then line "" ++ stats.text else ""

/-- Counts solutions. With a limit of 0 nothing is searched. -/
def countUpTo (a : Arguments) (limit : Nat) (p : Puzzle) : Transcript :=
  if limit = 0 then { stdout := line "0" ++ profileText a {} }
  else
    let limits := { a.limits with maxSolutions := some limit }
    match searchLogged a limits Search.counter 0 p.matrix with
    | (_, _, log, .failed e) => .failed (.search e) log
    | (stats, n, log, _) => { stdout := line (toString n) ++ profileText a stats, log }

/-- Solves by search and looks for a second solution. -/
def solveBySearch (a : Arguments) (p : Puzzle) : Transcript :=
  let limits := { a.limits with maxSolutions := some 2 }
  match searchLogged a limits Search.collector #[] p.matrix with
  | (_, _, log, .failed e) => .failed (.search e) log
  | (stats, found, log, _) =>
    let answer := match found.toList with
      | [] => line "no solution"
      | [only] => line (p.gridOf only).text
      | first :: _ => line (p.gridOf first).text ++ line "" ++ line "solution is not unique"
    { stdout := answer ++ profileText a stats, log }

/-- The line of the log for a change, if the change has one. -/
def changeLine (m : Matrix Placement) : Change → Option Log.Entry
  | .added r => some ⟨.trace, s!"+ {m.candidateName r}"⟩
  | .removed r => some ⟨.trace, s!"- {m.candidateName r}"⟩
  | .solved r => some ⟨.trace, s!"= {m.candidateName r}"⟩
  | .unsolved _ | .hinted _ => none

/-- The strategies and permissions that a command line gives the solver. -/
def Arguments.solverConfig (a : Arguments) : SolverConfig where
  strategies := a.strategies.getD Strategy.all
  parallel := a.parallel
  assumeUnique := !a.noUnique

/-- Solves by deductions and tells them. -/
def solveByLogic (a : Arguments) (p : Puzzle) : Transcript :=
  match p.solveLogically a.solverConfig with
  | .error e => .failed (.solve e) []
  | .ok (p, report) =>
    let told := report.deductions.map fun d => line s!"{d.strategy.name}: {d.description}"
    let ending := match report.outcome with
      | .solved => "solved"
      | .blocked => "blocked"
      | .stuck => s!"stuck with {report.remaining} candidates left"
    { stdout := String.join told ++ line "" ++ line p.grid.text ++ line "" ++ line ending
      log := report.log ++ report.changes.filterMap (changeLine p.matrix) }

/-- What a command line that was understood does with its text. -/
def Arguments.transcript (a : Arguments) (text : Except ReadError String) : Transcript :=
  if a.list then { stdout := String.join (Sample.all.map fun s => line s.name) }
  else match a.puzzle text with
    | .error e => .failed e []
    | .ok p =>
      match a.count with
      | some limit => countUpTo a limit p
      | none =>
        match a.mode.getD .logic with
        | .logic => solveByLogic a p
        | .search => solveBySearch a p

/-- What a transcript leaves behind, with the lines of the log down to a level. -/
def Transcript.output (t : Transcript) (least : Log.Level) : Output :=
  let log := String.join ((Log.upTo least t.log).map fun e => line e.render)
  match t.error with
  | none => { code := 0, stdout := t.stdout, stderr := log }
  | some e => { code := 1, stdout := t.stdout, stderr := log ++ line s!"error: {e.message}" }

/-- Runs a command line, with `read` to get at texts. -/
def run (words : List String) (read : Source → Except ReadError String) : Output :=
  match Arguments.parse words with
  | .error e => { code := 2, stdout := "", stderr := line s!"error: {e.message}" }
  | .ok a =>
    let text := match a.source? with
      | some source => read source
      | none => .ok ""
    (a.transcript text).output a.level

end ExactCover.CommandLine
