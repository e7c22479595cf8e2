import LoxLanguage.Session.Basic
import LoxLanguage.Text.Blank

/-! The interactive shell. A line is a command or a piece of program text; a text with an unclosed block is
held back until the lines behind it close the block. -/

namespace LoxLanguage

/-- A shell: its session, the lines held back, and the prompt for the next line. -/
structure Shell where
  session : Session
  pending : String
  prompt : String

namespace Shell

/-- What a line asks for. -/
inductive Command where
  | nothing
  | tree (text : String)
  | help
  | quit
  | endOfInput
  | entry (line : String)
  deriving DecidableEq

/-- The greeting. -/
def intro : String :=
  "Lox interpreter :: Python backend\nType 'help' for more information."

/-- What `help` shows. -/
def helpText : String :=
  "Welcome to the Lox interpreter!\n\n" ++
  "Lox is a small dynamically-typed scripting language with closures and classes. \n" ++
  "Each entry is run as soon as it is complete; blocks may span several lines.\n\n" ++
  "Try it out by typing 'var greeting = \"hi\";'. Next, try typing\n" ++
  "'print greeting + \" there\";'. Type 'ast <expression>' to see how an expression\n" ++
  "is parsed, and 'exit' to leave."

/-- The prompt for the first line of an entry. -/
def entryPrompt : String := "> "

/-- The prompt for the lines behind it. -/
def continuationPrompt : String := ". "

/-- A shell at its start. -/
def start (session : Session) : Shell := ⟨session, "", entryPrompt⟩

/-- How deep the braces of a row of tokens leave a block. -/
def braceDepth (tokens : List Token) : Int :=
  tokens.foldl (fun depth t =>
    if t.kind = .leftBrace then depth + 1 else if t.kind = .rightBrace then depth - 1 else depth) 0

/-- Whether a text has an unclosed block. Braces in texts and comments do not count. -/
def needsContinuation (source : String) : Bool :=
  0 < braceDepth (scan source).1

/-- The command that a word names, with what stands behind the word. -/
def named? (word argument : List Char) : Option Command :=
  match String.ofList word with
  | "ast" => some (.tree (String.ofList argument))
  | "help" => some .help
  | "exit" => some .quit
  | "EOF" => some .endOfInput
  | _ => none

/-- Reads a line. A question mark asks for help, an exclamation mark marks program text; otherwise the
    letters, digits and underscores at the start may name a command, and all else is program text. -/
def Command.ofLine (line : String) : Command :=
  match Text.trim line.toList with
  | [] => .nothing
  | '?' :: _ => .help
  | '!' :: rest => .entry (String.ofList ('!' :: rest))
  | text =>
    (named? (text.takeWhile Lexeme.isWordPart) (Text.trim (text.dropWhile Lexeme.isWordPart))).getD
      (.entry (String.ofList text))

/-- What has to be done for a line of program text: nothing yet, or to run an entry. -/
def offer (shell : Shell) (line : String) : Shell × Option String :=
  let source := shell.pending ++ line ++ "\n"
  if needsContinuation source then ({ shell with pending := source, prompt := continuationPrompt }, none)
  else ({ shell with pending := "", prompt := entryPrompt }, some source)

/-- The text of which `ast` shows the tree: the semicolon behind it may be left out. -/
def treeSource (argument : String) : String :=
  let text := Text.trimEnd argument.toList
  if text.getLast? = some ';' then String.ofList text else String.ofList (text ++ [';'])

/-- Shows the tree of an expression. -/
def showTree (shell : Shell) (argument : String) : Shell × String :=
  let (session, rendered) := shell.session.reset.render (treeSource argument)
  ({ shell with session }, if rendered.isEmpty then "" else rendered ++ "\n")

/-- What a line leads to: the text that the shell itself shows, whether the shell stops, the entry that is
    to be run, and how the guard around its run is left. -/
structure Reply where
  shown : String
  stop : Bool
  entry : Option String
  departure : Departure

/-- Takes a line. -/
def take (shell : Shell) (line : String) : Shell × Reply :=
  match Command.ofLine line with
  | .nothing => (shell, ⟨"", false, none, .stays⟩)
  | .tree argument =>
    let (shell, shown) := shell.showTree argument
    (shell, ⟨shown, false, none, .stays⟩)
  | .help => (shell, ⟨helpText ++ "\n", false, none, .stays⟩)
  | .quit => (shell, ⟨"", true, none, .stays⟩)
  | .endOfInput => (shell, ⟨"\n", true, none, .stays⟩)
  | .entry text =>
    let (shell, source) := shell.offer text
    (shell, ⟨"", false, source, .stays⟩)

/-- Takes a line and runs the entry that it completes, for at most `fuel` steps. -/
def read (fuel : Nat) (shell : Shell) (line : String) : Shell × Reply :=
  let (shell, reply) := shell.take line
  match reply.entry with
  | none => (shell, reply)
  | some source =>
    let (session, departure) := shell.session.reset.runGuarded fuel source
    ({ shell with session }, { reply with departure })

end Shell

end LoxLanguage
