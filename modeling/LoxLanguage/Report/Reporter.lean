import LoxLanguage.Problem
import LoxLanguage.Report.Quote
import LoxLanguage.Store.RuntimeError
import LoxLanguage.Text.Lines

/-! Reports. A reporter keeps the plain text of everything reported, two flags that decide the exit status,
and what it has written to the error stream, in colour or not. It knows the source that is being run, so a
report at a token can quote its line. -/

namespace LoxLanguage

/-- What has been reported. -/
structure Reporter where
  fatal : Bool
  colour : Bool
  diagnostics : Array String
  hadError : Bool
  hadRuntimeError : Bool
  path : String
  lines : List String
  written : Array String

namespace Reporter

/-- Nothing reported, no source known. -/
def new (fatal colour : Bool) : Reporter :=
  { fatal, colour, diagnostics := #[], hadError := false, hadRuntimeError := false, path := "", lines := [],
    written := #[] }

/-- The exit status after a static error. -/
def staticStatus : Int := 65

/-- The exit status after a runtime error. -/
def runtimeStatus : Int := 70

/-- The exit status after an error that is tied to no source. -/
def generalStatus : Int := 66

/-- Sets the source that is being run. -/
def register (r : Reporter) (path source : String) : Reporter :=
  { r with path, lines := Text.lines source }

/-- Clears the flags. -/
def reset (r : Reporter) : Reporter :=
  { r with hadError := false, hadRuntimeError := false }

/-- The exit status that the flags call for. A static error counts more than a runtime error. -/
def exitStatus (r : Reporter) : Int :=
  if r.hadError then staticStatus else if r.hadRuntimeError then runtimeStatus else 0

/-- Writes a text and a newline to the error stream. -/
def write (r : Reporter) (text : String) : Reporter :=
  { r with written := r.written.push (text ++ "\n") }

/-- The text that has been written to the error stream behind the first texts. -/
def stream (r : Reporter) (first : Nat) : String :=
  String.join (r.written.toList.drop first)

/-- Adds a plain text to the list of diagnostics. -/
def record (r : Reporter) (text : String) : Reporter :=
  { r with diagnostics := r.diagnostics.push text }

/-- The line that is quoted for a token: the one with its number, if there is one and the token stands in it. -/
def quotedLine? (lines : List String) (token : Token) : Option String :=
  (Text.lineAt? lines token.line).filter fun line => !token.lexeme.isEmpty && Quote.occurs token.lexeme line

/-- Quotes the line of a token, if there is one to be quoted. -/
def quote (r : Reporter) (token : Token) : Reporter :=
  match quotedLine? r.lines token with
  | none => r
  | some line =>
    r.write ("  File '" ++ r.path ++ "', line " ++ toString token.line ++ ":\n" ++
      (Quote.quote? r.colour line token.lexeme).getD "")

/-- Reports a static error at a place on a line. -/
def report (r : Reporter) (line : Int) (place message : String) : Reporter :=
  let text := "[line " ++ toString line ++ "] Error" ++ place ++ ": " ++ message
  let r := { r with hadError := true }
  (r.record text).write (alert r.colour text)

/-- Reports a static error that has no token. -/
def errorOnLine (r : Reporter) (line : Int) (message : String) : Reporter :=
  r.report line "" message

/-- Reports a static error at a token. The end mark has no text to quote. -/
def errorAtToken (r : Reporter) (token : Token) (message : String) : Reporter :=
  if token.kind = .eof then r.report token.line " at end" message
  else (r.report token.line (" at '" ++ token.lexeme ++ "'") message).quote token

/-- Reports a static problem. -/
def problem (r : Reporter) : Problem → Reporter
  | .onLine line complaint => r.errorOnLine line complaint.message
  | .atToken token complaint => r.errorAtToken token complaint.message

/-- Reports static problems in order. -/
def problems (r : Reporter) (found : List Problem) : Reporter :=
  found.foldl problem r

/-- The line of a token in words; a missing token has none. -/
def lineText : Option Token → String
  | some token => toString token.line
  | none => "None"

/-- Reports a runtime error: the message, then the line. -/
def runtimeError (r : Reporter) (message : String) (token : Option Token) : Reporter :=
  let place := "\n[line " ++ lineText token ++ "]"
  let r := { r with hadRuntimeError := true }
  let r := (r.record (message ++ place)).write (alert r.colour message ++ place)
  match token with
  | some token => r.quote token
  | none => r

/-- Reports an error that is tied to no line of the source. No flag is set. -/
def announce (r : Reporter) (message : String) (isInternal : Bool) : Reporter :=
  let mark := if isInternal then alert r.colour "[internal] " else ""
  (r.record ("error: " ++ message)).write (mark ++ alert r.colour "error: " ++ message)

end Reporter

end LoxLanguage
