import LoxLanguage.CommandLine.Arguments
import LoxLanguage.Session.Shell
import LoxLanguage.Text.Utf8

/-! The program as a whole: it runs a file, shows the trees of a file, or starts the shell. What it needs
from outside, the files and the lines typed in, is given to it. -/

namespace LoxLanguage.CommandLine

/-- What is behind a path: a file with its bytes, or nothing that can be opened. -/
inductive FileContent where
  | unreadable
  | bytes (bytes : List UInt8)

/-- How the program ends: with a status, by itself, or by a foreign error of which the name is known. -/
inductive Ending where
  | exit (status : Int)
  | returns
  | escapes (kind message : String)
  deriving DecidableEq

/-- What a run of the program has written, and how it ended. -/
structure Transcript where
  stdout : String
  stderr : String
  ending : Ending

/-- The exit status after a usage error. -/
def usageStatus : Int := 2

/-- Reads the text of a file. A path with a null character names no file at all. -/
def readText (path : String) (content : FileContent) : Except Escape String :=
  if path.toList.contains '\x00' then .error (.foreign "ValueError" "embedded null byte")
  else
    match content with
    | .unreadable => .error (.general ("'" ++ path ++ "' could not be opened") false)
    | .bytes bytes =>
      match Text.decodeUtf8 bytes with
      | .ok text => .ok (Text.withNewlines text)
      | .error error => .error (.foreign "UnicodeDecodeError" error.message)

/-- How the program ends when guarded work is left. -/
def Ending.ofDeparture (status : Int) : Departure → Ending
  | .stays => .exit status
  | .exits status => .exit status
  | .passes (.foreign kind message) => .escapes kind message
  | .passes _ => .exit status

/-- Leaves the guarded work on a file; without an escape the flags decide the status. -/
def conclude (reporter : Reporter) (escape : Option Escape) (stdout : String) : Transcript :=
  let (left, departure) := reporter.leave escape
  ⟨stdout, left.stream 0, .ofDeparture left.exitStatus departure⟩

/-- Shows the trees of a text. -/
def showTrees (session : Session) (text : String) : Transcript :=
  let (session, rendered) := session.render text
  conclude session.reporter none (if rendered.isEmpty then "" else rendered ++ "\n")

/-- Runs a text. -/
def runText (fuel : Nat) (session : Session) (text : String) : Transcript :=
  let (session, result) := session.run fuel text
  conclude session.reporter result.escape? (session.state.output 0)

/-- Runs a file or shows its trees. Errors are fatal. -/
def runFile (host : Host) (colour : Bool) (fuel : Nat) (path : String) (tree : Bool) (content : FileContent) :
    Transcript :=
  let reporter := Reporter.new true colour
  match Session.forFile host reporter path with
  | .error error => conclude reporter (some (.general error.message false)) ""
  | .ok session =>
    match readText path content with
    | .error escape => conclude reporter (some escape) ""
    | .ok text => if tree then showTrees session text else runText fuel session text

/-- The lines typed in, without their newlines. A last line need not have one. -/
def inputLines (input : String) : List String :=
  let parts := input.splitOn "\n"
  if parts.getLast? = some "" then parts.dropLast else parts

/-- The shell reads lines until one stops it or its entry is left by an escape that goes on; the end of the
    lines counts as one more line. Each prompt stands in front of what its line leads to. -/
def shellLoop (fuel : Nat) : List String → Shell → String → Shell × String × Departure
  | [], shell, shown =>
    let (after, reply) := shell.read fuel "EOF"
    (after, shown ++ shell.prompt ++ reply.shown, reply.departure)
  | line :: rest, shell, shown =>
    let (after, reply) := shell.read fuel line
    let printed := after.session.state.output shell.session.state.printed.size
    let shown := shown ++ shell.prompt ++ reply.shown ++ printed
    if reply.stop || reply.departure != .stays then (after, shown, reply.departure) else shellLoop fuel rest after shown

/-- Leaves the guarded work of the shell. An escape that has passed through the guard around an entry is
    reported again by the guard around the shell. -/
def concludeShell (reporter : Reporter) (departure : Departure) (stdout : String) : Transcript :=
  match departure with
  | .stays => ⟨stdout, reporter.stream 0, .returns⟩
  | .exits status => ⟨stdout, reporter.stream 0, .exit status⟩
  | .passes escape => conclude reporter (some escape) stdout

/-- Runs the shell on the lines typed in. -/
def runShell (host : Host) (colour : Bool) (fuel : Nat) (input : String) : Transcript :=
  let session := Session.interactive host (Reporter.new true colour) interactivePath
  let (shell, shown, departure) := shellLoop fuel (inputLines input) (Shell.start session) (Shell.intro ++ "\n")
  concludeShell shell.session.reporter departure shown

/-- Runs the program on the words of a command line. -/
def run (host : Host) (colour : Bool) (fuel : Nat) (words : List String) (files : String → FileContent)
    (input : String) : Transcript :=
  match parseArguments words with
  | .help => ⟨helpText, "", .exit 0⟩
  | .wrong error => ⟨"", error.report, .exit usageStatus⟩
  | .run (some path) tree => runFile host colour fuel path tree (files path)
  | .run none _ => runShell host colour fuel input

end LoxLanguage.CommandLine
