import LoxLanguage.Token.Lexeme
import LoxLanguage.Problem

/-! Scanning. A program text is read from left to right in one pass. The first character of what is left tells what begins
there: a symbol, a comment, a blank, a newline, a string, a number, a word, or nothing that belongs into a program. The
scan goes on behind it with the tokens, the problems and the line that it has come to. The line is counted on the way, at
each newline between the tokens and at each one inside a string. -/

namespace LoxLanguage

open Token (Kind)

/-- Tokens and problems, with the line reached so far. -/
structure Scan where
  line : Int
  tokens : Array Token
  problems : Array Problem

namespace Scan

/-- Before any text: the first line. -/
def start : Scan := ⟨1, #[], #[]⟩

/-- Goes on to the next line. -/
def newline (s : Scan) : Scan :=
  { s with line := s.line + 1 }

/-- Adds the token of a lexeme, on the line reached. -/
def addToken (s : Scan) (kind : Kind) (lexeme : List Char) : Scan :=
  { s with tokens := s.tokens.push ⟨kind, String.ofList lexeme, Lexeme.literal kind lexeme, s.line⟩ }

/-- Adds a problem, on the line reached. -/
def report (s : Scan) (complaint : Complaint) : Scan :=
  { s with problems := s.problems.push (.onLine s.line complaint) }

/-- What is left behind a comment: it runs up to a newline, which is not part of it. -/
def behindComment : List Char → List Char
  | [] => []
  | c :: rest => if c = '\n' then c :: rest else behindComment rest

/-- Reads on behind a slash. A second one begins a comment. -/
def slash (s : Scan) (rest : List Char) : Scan × List Char :=
  match rest with
  | '/' :: after => (s, behindComment after)
  | _ => (s.addToken .slash ['/'], rest)

/-- Reads on in a string up to its closing quote, over any number of lines. What has been read of it is held back, the last
    character first; the token is added on the line of the quote. -/
def string (s : Scan) (held : List Char) : List Char → Scan × List Char
  | [] => (s.report .unterminatedString, [])
  | c :: rest =>
    if c = '"' then (s.addToken .string (c :: held).reverse, rest)
    else if c = '\n' then s.newline.string (c :: held) rest
    else s.string (c :: held) rest

/-- Reads what begins at the start of `c :: rest`, and gives what is left. -/
def step (s : Scan) (c : Char) (rest : List Char) : Scan × List Char :=
  match Lexeme.single? c with
  | some kind => (s.addToken kind [c], rest)
  | none =>
    match Lexeme.double? c with
    | some (long, short) =>
      match rest with
      | '=' :: after => (s.addToken long [c, '='], after)
      | _ => (s.addToken short [c], rest)
    | none =>
      if c = '/' then s.slash rest
      else if Lexeme.isSpace c then (s, rest)
      else if c = '\n' then (s.newline, rest)
      else if c = '"' then s.string [c] rest
      else if Lexeme.isDigit c then
        let (lexeme, after) := Lexeme.number c rest
        (s.addToken .number lexeme, after)
      else if Lexeme.isLetter c then
        let (lexeme, after) := Lexeme.word c rest
        (s.addToken (Lexeme.wordKind lexeme) lexeme, after)
      else (s.report .unexpectedCharacter, rest)

/-- Reads at most `fuel` steps of a text. Each takes a character or more, so the length of the text is enough. -/
def run (fuel : Nat) (s : Scan) (text : List Char) : Scan :=
  match fuel, text with
  | fuel + 1, c :: rest =>
    let (next, after) := s.step c rest
    run fuel next after
  | _, _ => s

/-- The token that marks the end of the text. -/
def eof (s : Scan) : Token :=
  ⟨.eof, "", .nil, s.line⟩

end Scan

/-- The tokens of a program text, an end mark behind them, and the problems met on the way. -/
def scan (source : String) : List Token × List Problem :=
  let s := Scan.run source.toList.length Scan.start source.toList
  ((s.tokens.push s.eof).toList, s.problems.toList)

end LoxLanguage
