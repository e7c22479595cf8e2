import LoxLanguage.Machine.Step
import LoxLanguage.Report.Escape
import LoxLanguage.Scope.Resolve
import LoxLanguage.Token.Scan
import LoxLanguage.Tree.Parser
import LoxLanguage.Tree.PrefixForm

/-! A session runs entries one after the other on one store, so a global name that one entry declares is
known to the next. Sites are numbered on through the session, so the distances of an entry never touch
those of an earlier one. -/

namespace LoxLanguage

/-- What a session needs from outside: how many calls may be open at once, and the readings of the clock. -/
structure Host where
  callLimit : Nat
  clock : Nat → Number

/-- A session: its reports, where its source comes from, and what its entries have left behind. -/
structure Session where
  host : Host
  reporter : Reporter
  path : String
  state : State
  distances : Distances
  nextSite : Site

/-- How running an entry ends. Static errors keep it from starting. -/
inductive RunResult where
  | rejected
  | ran (outcome : Machine.Outcome)
  deriving DecidableEq

/-- The path that stands for entries typed in. -/
def interactivePath : String := "<in>"

/-- Why there is no session: a file has the name that stands for entries typed in. -/
inductive SessionError where
  | reservedPath
  deriving DecidableEq

/-- The wording of each cause. -/
def SessionError.message : SessionError → String
  | .reservedPath => "'" ++ interactivePath ++ "' is a reserved filename"

/-- The wording for what is missed where there is no frame. -/
def Store.Missing.message : Store.Missing → String
  | .parent => "'NoneType' object has no attribute 'enclosing'"
  | .names => "'NoneType' object has no attribute 'values'"

/-- What escapes from a run that has failed. -/
def Fault.escape : Fault → Escape
  | .runtime error => .runtime error.cause.message (some error.token)
  | .strayed missing => .foreign "AttributeError" missing.message

/-- What escapes from a run. -/
def RunResult.escape? : RunResult → Option Escape
  | .ran (.failed fault) => some fault.escape
  | _ => none

namespace Session

/-- A session in which nothing has run. -/
def start (host : Host) (reporter : Reporter) (path : String) : Session :=
  { host, reporter, path, state := .initial, distances := .empty, nextSite := 0 }

/-- A session for entries typed in. Errors end an entry, never the session. -/
def interactive (host : Host) (reporter : Reporter) (path : String) : Session :=
  start host { reporter with fatal := false } path

/-- A session for a file, whose path must not be the reserved one. -/
def forFile (host : Host) (reporter : Reporter) (path : String) : Except SessionError Session :=
  if path = interactivePath then .error .reservedPath else .ok (start host reporter path)

/-- What the machine is given for an entry. -/
def setting (s : Session) : Setting :=
  ⟨s.distances, s.host.callLimit, s.host.clock⟩

/-- Reads an entry. There is no result as long as the flag for static errors is set. -/
def parse (s : Session) (source : String) : Session × Option Parsed :=
  let (tokens, lexical) := scan source
  let parsed := LoxLanguage.parse s.nextSite tokens
  let reporter := ((s.reporter.register s.path source).problems lexical).problems parsed.problems
  ({ s with reporter }, if reporter.hadError then none else some parsed)

/-- Reads and resolves an entry, and gives the machine that is about to run it. Sites are used up only by
    an entry that is about to run; one that is rejected leaves nothing behind but its reports. -/
def load (s : Session) (source : String) : Session × Option Machine :=
  match s.parse source with
  | (s, none) => (s, none)
  | (s, some parsed) =>
    let resolution := resolve parsed.statements
    let reporter := s.reporter.problems resolution.problems.toList
    if reporter.hadError then ({ s with reporter }, none)
    else
      ({ s with
          reporter
          distances := s.distances.insertAll resolution.distances.toList
          nextSite := parsed.nextSite },
        some (Machine.ofProgram parsed.statements s.state))

/-- Takes over what a run has left behind. -/
def finish (s : Session) (m : Machine) : Session × RunResult :=
  ({ s with state := m.rest }, .ran m.outcome)

/-- Runs an entry, for at most `fuel` steps. -/
def run (fuel : Nat) (s : Session) (source : String) : Session × RunResult :=
  match s.load source with
  | (s, none) => (s, .rejected)
  | (s, some m) => s.finish (m.run s.setting fuel)

/-- Lets the reporter deal with what has escaped. -/
def leave (s : Session) (escape : Option Escape) : Session × Departure :=
  let (reporter, departure) := s.reporter.leave escape
  ({ s with reporter }, departure)

/-- Runs an entry and reports the error that ends it, if there is one. -/
def runGuarded (fuel : Nat) (s : Session) (source : String) : Session × Departure :=
  let (s, result) := s.run fuel source
  s.leave result.escape?

/-- Clears the error flags. -/
def reset (s : Session) : Session :=
  { s with reporter := s.reporter.reset }

/-- The expression that a statement shows in prefix form. -/
def shown? : Stmt → Option Expr
  | .expression e => some e
  | .print e => some e
  | _ => none

/-- The prefix form of each expression and each printed expression at the top level of an entry, one a
    line. Nothing is resolved or run. -/
def render (s : Session) (source : String) : Session × String :=
  match s.parse source with
  | (s, none) => (s, "")
  | (s, some parsed) =>
    (s, "\n".intercalate ((parsed.statements.filterMap shown?).map Expr.prefixForm))

end Session

end LoxLanguage
