import LoxLanguage.Report.Reporter

/-! What can escape from a guarded piece of work, and what the guard makes of it. Errors of the language
are reported and absorbed, or end the program when errors are fatal. A foreign error is reported and goes
on its way. -/

namespace LoxLanguage

/-- What ends a piece of work early. A foreign error is known by the name of its kind. -/
inductive Escape where
  | interrupted
  | exit (status : Int)
  | tooDeep
  | runtime (message : String) (token : Option Token)
  | general (message : String) (isInternal : Bool)
  | foreign (kind message : String)
  deriving DecidableEq

/-- How guarded work is left: normally, by the end of the program, or by an escape that goes on. -/
inductive Departure where
  | stays
  | exits (status : Int)
  | passes (escape : Escape)
  deriving DecidableEq

namespace Reporter

/-- The end of the program when errors are fatal. -/
def departure (r : Reporter) (status : Int) : Departure :=
  if r.fatal then .exits status else .stays

/-- Leaves guarded work by an escape. -/
def absorb (r : Reporter) (escape : Escape) : Reporter × Departure :=
  match escape with
  | .interrupted => (r.announce "keyboard interrupt" false, r.departure 1)
  | .exit status => (r, .exits status)
  | .tooDeep => (r.announce "maximum recursion depth exceeded" false, r.departure 1)
  | .runtime message token => (r.runtimeError message token, r.departure runtimeStatus)
  | .general message isInternal => (r.announce message isInternal, r.departure generalStatus)
  | .foreign kind message =>
    (r.announce ("unknown error: '" ++ kind ++ ": " ++ message ++ "'") true, .passes escape)

/-- Leaves guarded work by an escape, if there is one. -/
def leave (r : Reporter) : Option Escape → Reporter × Departure
  | none => (r, .stays)
  | some escape => r.absorb escape

end Reporter

end LoxLanguage
