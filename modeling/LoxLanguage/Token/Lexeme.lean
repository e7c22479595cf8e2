import LoxLanguage.Token.Basic

/-! The lexical grammar: which characters make up names, numbers and symbols, and which words are
reserved. A character belongs to one class at most, so the first character of a piece decides its class. -/

namespace LoxLanguage.Lexeme

open Token (Kind)

/-- Digits are the ten of ASCII. -/
def isDigit (c : Char) : Bool :=
  '0' ≤ c && c ≤ '9'

/-- A name starts with an ASCII letter or an underscore. -/
def isLetter (c : Char) : Bool :=
  ('a' ≤ c && c ≤ 'z') || ('A' ≤ c && c ≤ 'Z') || c == '_'

/-- A name goes on with letters and digits. -/
def isWordPart (c : Char) : Bool :=
  isLetter c || isDigit c

/-- Characters between tokens that mean nothing, newlines apart. -/
def isSpace (c : Char) : Bool :=
  c == ' ' || c == '\r' || c == '\t'

/-- The symbols of one character that begin no longer one. -/
def single? : Char → Option Kind
  | '(' => some .leftParen
  | ')' => some .rightParen
  | '{' => some .leftBrace
  | '}' => some .rightBrace
  | ',' => some .comma
  | '.' => some .dot
  | '-' => some .minus
  | '+' => some .plus
  | ';' => some .semicolon
  | '*' => some .star
  | _ => none

/-- The symbols that an equals sign makes longer: first the long kind, then the short one. -/
def double? : Char → Option (Kind × Kind)
  | '!' => some (.bangEqual, .bang)
  | '=' => some (.equalEqual, .equal)
  | '<' => some (.lessEqual, .less)
  | '>' => some (.greaterEqual, .greater)
  | _ => none

/-- The reserved words. -/
def keywords : List (String × Kind) :=
  [("and", .andWord), ("class", .classWord), ("else", .elseWord), ("false", .falseWord), ("for", .forWord),
    ("fun", .funWord), ("if", .ifWord), ("nil", .nilWord), ("or", .orWord), ("print", .printWord),
    ("return", .returnWord), ("super", .superWord), ("this", .thisWord), ("true", .trueWord),
    ("var", .varWord), ("while", .whileWord)]

/-- A whole word is a keyword or a name. -/
def wordKind (word : List Char) : Kind :=
  (keywords.lookup (String.ofList word)).getD .identifier

/-- A number at the start of `c :: rest`, and what is left. Its digits go on over a point only if another digit follows it. -/
def number (c : Char) (rest : List Char) : List Char × List Char :=
  let whole := c :: rest.takeWhile isDigit
  match rest.dropWhile isDigit with
  | '.' :: d :: after =>
    if isDigit d then (whole ++ '.' :: d :: after.takeWhile isDigit, after.dropWhile isDigit)
    else (whole, '.' :: d :: after)
  | after => (whole, after)

/-- A word at the start of `c :: rest`, and what is left. -/
def word (c : Char) (rest : List Char) : List Char × List Char :=
  (c :: rest.takeWhile isWordPart, rest.dropWhile isWordPart)

/-- The value that a lexeme writes down: a text without its quotes, a number, or nothing. -/
def literal (kind : Kind) (lexeme : List Char) : Literal :=
  match kind with
  | .string => .text (String.ofList lexeme.tail.dropLast)
  | .number =>
    .number (Number.ofDecimal (lexeme.takeWhile isDigit) ((lexeme.dropWhile isDigit).drop 1))
  | _ => .nil

end LoxLanguage.Lexeme
