import LoxLanguage.CommandLine.Basic
import Std.Time.DateTime.Timestamp

/-! The command line program. It lends the library the files, the terminal and the clock, and decides
nothing itself: a program runs in slices, and what a slice has printed is shown before the next one. -/

namespace LoxLanguage.Program

/-- How many calls may be open at once. -/
def callLimit : Nat := 10000

/-- How many steps a program makes before what it has printed is shown. -/
def slice : Nat := 20000

/-- The time of day in seconds. -/
def now : IO Number := do
  let time ← Std.Time.Timestamp.now
  return Float.ofInt time.toNanosecondsSinceUnixEpoch.val / 1000000000.0

/-- What sessions are given. The clock is set anew for every slice. -/
def host : Host := ⟨callLimit, fun _ => 0.0⟩

/-- Shows a text at once. -/
def display (text : String) : IO Unit := do
  let stdout ← IO.getStdout
  stdout.putStr text
  stdout.flush

/-- Reports are in colour on a terminal. -/
def inColour : IO Bool := do
  (← IO.getStderr).isTty

/-- Shows what a reporter has written since an earlier moment. -/
def showErrors (before : Nat) (reporter : Reporter) : IO Unit := do
  let stderr ← IO.getStderr
  stderr.putStr (reporter.stream before)
  stderr.flush

/-- Shows what has been written and gives the exit status. -/
def conclude (transcript : CommandLine.Transcript) : IO UInt32 := do
  display transcript.stdout
  let stderr ← IO.getStderr
  stderr.putStr transcript.stderr
  match transcript.ending with
  | .exit status => return status.toNat.toUInt32
  | .returns => return 0
  | .escapes kind message =>
    stderr.putStrLn (kind ++ ": " ++ message)
    return 1

/-- Runs the machine to its end, slice by slice. -/
def drive (setting : Setting) (start : Machine) : IO Machine := do
  let mut m := start
  repeat
    if m.stopped then break
    let time ← now
    let shown := m.state.printed.size
    m := m.run { setting with clock := fun _ => time } slice
    display (m.state.output shown)
  return m

/-- Runs an entry and shows what it prints. -/
def runEntry (session : Session) (source : String) : IO (Session × RunResult) := do
  match session.load source with
  | (session, none) => return (session, .rejected)
  | (session, some m) => return session.finish (← drive session.setting m)

/-- What is behind a path. -/
def readFile (path : String) : IO CommandLine.FileContent := do
  try
    return .bytes (← IO.FS.readBinFile path).toList
  catch _ => return .unreadable

/-- Runs a file. -/
def runFile (path : String) : IO UInt32 := do
  let content ← readFile path
  let colour ← inColour
  match Session.forFile host (Reporter.new true colour) path, CommandLine.readText path content with
  | .ok session, .ok text =>
    let (session, result) ← runEntry session text
    conclude (CommandLine.conclude session.reporter result.escape? "")
  | _, _ => conclude (CommandLine.runFile host colour 0 path false content)

/-- Reads a line without its end, or the word that stands for the end of the input. -/
def readLine : IO String := do
  let line ← (← IO.getStdin).getLine
  if line.isEmpty then return "EOF"
  return if line.endsWith "\n" then (line.dropEnd 1).toString else line

/-- Runs the shell until a line stops it or an escape goes on. -/
def runShell : IO UInt32 := do
  display (Shell.intro ++ "\n")
  let mut shell := Shell.start (Session.interactive host (Reporter.new true (← inColour)) interactivePath)
  let mut departure := Departure.stays
  repeat
    display shell.prompt
    let before := shell.session.reporter.written.size
    let (next, reply) := shell.take (← readLine)
    display reply.shown
    shell := next
    if let some source := reply.entry then
      let (ran, result) ← runEntry shell.session.reset source
      let (session, left) := ran.leave result.escape?
      shell := { shell with session }
      departure := left
    showErrors before shell.session.reporter
    if reply.stop || departure != .stays then break
  let last := { shell.session.reporter with written := #[] }
  conclude (CommandLine.concludeShell last departure "")

/-- Does what the words of a command line ask for. -/
def run (words : List String) : IO UInt32 := do
  match CommandLine.parseArguments words with
  | .run (some path) false => runFile path
  | .run (some path) true => conclude (CommandLine.runFile host (← inColour) 0 path true (← readFile path))
  | .run none _ => runShell
  | _ => conclude (CommandLine.run host (← inColour) 0 words (fun _ => .unreadable) "")

end LoxLanguage.Program

/-- Runs the program on the words of its command line. -/
def main (words : List String) : IO UInt32 :=
  LoxLanguage.Program.run words
