/-
ExactCover.CommandLine.Arguments — what a command line asks for.

A command line names at most one input file and any of these options:

  --list              list the sample puzzles
  --canned NAME       solve a sample puzzle
  --mode MODE         `logic` (the default) or `search`
  --count LIMIT       count solutions up to a limit
  --profile           print what the search cost
  --strategies LIST   the strategies to try, separated by commas
  --no-unique         leave out strategies that assume a unique solution
  --parallel          permit several threads
  --max-depth LEVELS  how deep the search may go
  -v, --verbose       log more, and with each repetition more still

A value follows its option as the next word or after `=`. As a word of its own it
does not begin with a hyphen, unless it is just that. `--` ends the options. Only
`--verbose` may be repeated, and `--strategies`, whose lists are joined. A sample
and an input file exclude each other.
-/
import ExactCover.Search.Limits
import ExactCover.Strategy.Basic
import ExactCover.Text.Line

namespace ExactCover.CommandLine

/-- How to solve. -/
inductive Mode where
  | logic
  | search
  deriving DecidableEq, Repr

/-- An option without a value. -/
inductive Flag where
  | list
  | profile
  | noUnique
  | parallel
  | verbose
  deriving DecidableEq, Repr

/-- An option with a value. -/
inductive Setting where
  | canned
  | mode
  | count
  | strategies
  | maxDepth
  deriving DecidableEq, Repr

/-- The flag of that name. -/
def Flag.ofName? : String → Option Flag
  | "list" => some .list
  | "profile" => some .profile
  | "no-unique" => some .noUnique
  | "parallel" => some .parallel
  | "verbose" => some .verbose
  | _ => none

/-- The setting of that name. -/
def Setting.ofName? : String → Option Setting
  | "canned" => some .canned
  | "mode" => some .mode
  | "count" => some .count
  | "strategies" => some .strategies
  | "max-depth" => some .maxDepth
  | _ => none

/-- What a command line asks for. -/
structure Arguments where
  input : Option String := none
  canned : Option String := none
  list : Bool := false
  mode : Option Mode := none
  count : Option Nat := none
  profile : Bool := false
  strategies : Option (List Strategy) := none
  noUnique : Bool := false
  parallel : Bool := false
  maxDepth : Option Nat := none
  /-- How often more output was asked for. -/
  verbosity : Nat := 0
  deriving DecidableEq, Repr

/-- Why a command line cannot be understood. -/
inductive UsageError where
  | unknownOption (word : String)
  | missingValue
  | unexpectedValue (word : String)
  | invalidValue (value : String)
  | repeated (word : String)
  | severalInputs (word : String)
  | sampleAndInput
  deriving DecidableEq, Repr

/-- The sentence that reports an error. -/
def UsageError.message : UsageError → String
  | .unknownOption word => s!"unexpected argument '{word}' found"
  | .missingValue => "a value is required for the last option"
  | .unexpectedValue word => s!"unexpected value in '{word}'"
  | .invalidValue value => s!"invalid value '{value}'"
  | .repeated word => s!"the argument '{word}' cannot be used multiple times"
  | .severalInputs word => s!"unexpected argument '{word}' found"
  | .sampleAndInput => "the argument '--canned' cannot be used with an input file"

/-- A number below 2^64 in decimal digits, with or without a plus sign before them. -/
def readNumber? (s : String) : Option Nat :=
  let digits := match s.toList with
    | '+' :: rest => rest
    | cs => cs
  if digits.isEmpty || !digits.all (fun c => '0' ≤ c && c ≤ '9') then none
  else
    let n := digits.foldl (fun n c => 10 * n + (c.toNat - '0'.toNat)) 0
    if n < UInt64.size then some n else none

/-- The mode of that name. -/
def Mode.ofName? : String → Option Mode
  | "logic" => some .logic
  | "search" => some .search
  | _ => none

/-- The strategies of a list with commas. -/
def readStrategies? (s : String) : Option (List Strategy) :=
  (Text.splitAt (· == ',') s.toList).mapM fun w => Strategy.ofName? (String.ofList w)

/-- A command line read up to some word. -/
structure Scan where
  args : Arguments
  /-- The option whose value the next word has to be. -/
  pending : Option Setting := none
  /-- No further word is an option. -/
  plain : Bool := false

namespace Scan

/-- Takes a word as the input file. -/
def addInput (s : Scan) (word : String) : Except UsageError Scan :=
  if s.args.input.isSome then .error (.severalInputs word)
  else if word.isEmpty then .error (.invalidValue word)
  else .ok { s with args := { s.args with input := some word } }

/-- Sets a flag. -/
def addFlag (s : Scan) (word : String) : Flag → Except UsageError Scan
  | .list =>
    if s.args.list then .error (.repeated word)
    else .ok { s with args := { s.args with list := true } }
  | .profile =>
    if s.args.profile then .error (.repeated word)
    else .ok { s with args := { s.args with profile := true } }
  | .noUnique =>
    if s.args.noUnique then .error (.repeated word)
    else .ok { s with args := { s.args with noUnique := true } }
  | .parallel =>
    if s.args.parallel then .error (.repeated word)
    else .ok { s with args := { s.args with parallel := true } }
  | .verbose => .ok { s with args := { s.args with verbosity := s.args.verbosity + 1 } }

/-- The value that a setting takes from a word, unless it was set before. -/
def once {α : Type} (old : Option α) (value : String) (new : Option α) :
    Except UsageError (Option α) :=
  match new, old with
  | none, _ => .error (.invalidValue value)
  | some _, some _ => .error (.repeated value)
  | some a, none => .ok (some a)

/-- Gives a setting its value. -/
def addValue (s : Scan) (setting : Setting) (value : String) : Except UsageError Scan :=
  let a := s.args
  let args : Except UsageError Arguments :=
    match setting with
    | .canned => (once a.canned value (some value)).map fun canned => { a with canned }
    | .mode => (once a.mode value (Mode.ofName? value)).map fun mode => { a with mode }
    | .count => (once a.count value (readNumber? value)).map fun count => { a with count }
    | .maxDepth =>
      (once a.maxDepth value (readNumber? value)).map fun maxDepth => { a with maxDepth }
    | .strategies =>
      match readStrategies? value with
      | none => .error (.invalidValue value)
      | some more => .ok { a with strategies := some (a.strategies.getD [] ++ more) }
  args.map fun args => { s with args, pending := none }

/-- Reads a long option, given what follows its two hyphens. -/
def addLong (s : Scan) (word : String) (body : List Char) : Except UsageError Scan :=
  let name := String.ofList (body.takeWhile (· != '='))
  match Flag.ofName? name, Setting.ofName? name, body.dropWhile (· != '=') with
  | some flag, _, [] => s.addFlag word flag
  | some _, _, _ :: _ => .error (.unexpectedValue word)
  | none, some setting, [] => .ok { s with pending := some setting }
  | none, some setting, _ :: value => s.addValue setting (String.ofList value)
  | none, none, _ => .error (.unknownOption word)

/-- Reads one word. -/
def addWord (s : Scan) (word : String) : Except UsageError Scan :=
  match s.pending with
  | some setting =>
    match word.toList with
    | '-' :: _ :: _ => .error .missingValue
    | _ => s.addValue setting word
  | none =>
    if s.plain then s.addInput word
    else match word.toList with
      | ['-', '-'] => .ok { s with plain := true }
      | '-' :: '-' :: body => s.addLong word body
      | '-' :: c :: cs =>
        if (c :: cs).all (· == 'v') then
          .ok { s with args := { s.args with verbosity := s.args.verbosity + (cs.length + 1) } }
        else .error (.unknownOption word)
      | _ => s.addInput word

end Scan

/-- Reads a command line. -/
def Arguments.parse (words : List String) : Except UsageError Arguments :=
  match words.foldlM Scan.addWord { args := {} } with
  | .error e => .error e
  | .ok s =>
    if s.pending.isSome then .error .missingValue
    else if s.args.canned.isSome && s.args.input.isSome then .error .sampleAndInput
    else .ok s.args

/-- The configuration of the search that a command line asks for. -/
def Arguments.limits (a : Arguments) : SearchLimits :=
  let base : SearchLimits := {}
  { base with maxDepth := a.maxDepth.getD base.maxDepth }

end ExactCover.CommandLine
