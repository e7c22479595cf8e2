import LoxLanguage.Text.Digit
import LoxLanguage.Text.Quoted

/-! The words of a command line. There are two options, `-h` or `--help` and `--ast`, and at most one
operand, the file. Long options may be cut short as long as only one fits. -/

namespace LoxLanguage.CommandLine

/-- The options. -/
inductive Flag where
  | help
  | tree
  deriving DecidableEq

/-- What is wrong with a command line. -/
inductive UsageError where
  | unrecognized (words : List String)
  | ignoredArgument (flag : Flag) (argument : String)
  | ambiguous (word : String)
  deriving DecidableEq

/-- What a command line asks for. -/
inductive Request where
  | run (file : Option String) (tree : Bool)
  | help
  | wrong (error : UsageError)
  deriving DecidableEq

/-- A word: an option with what is attached to it, the letter `h` with what is attached to it, a word that
    looks like an option and is none, the mark behind which there are no more options, or an operand. -/
inductive Word where
  | flag (flag : Flag) (attached : Option String)
  | letters (attached : List Char)
  | unknown (word : String)
  | separator
  | operand (word : String)
  deriving DecidableEq

/-- The names of an option as a usage error shows them. -/
def Flag.names : Flag → String
  | .help => "-h/--help"
  | .tree => "--ast"

/-- The long name of an option, without its dashes. -/
def Flag.long : Flag → List Char
  | .help => "help".toList
  | .tree => "ast".toList

/-- How to use the program. -/
def usage : String := "usage: lox [-h] [--ast] [file]\n"

/-- The text behind `--help`. -/
def helpText : String :=
  usage ++ "\nTree-walking interpreter for Lox.\n\npositional arguments:\n" ++
  "  file        file to interpret and run (if empty, goes to command-line mode)\n\noptions:\n" ++
  "  -h, --help  show this help message and exit\n" ++
  "  --ast       print expression trees instead of running the file\n"

/-- The wording of each cause. -/
def UsageError.message : UsageError → String
  | .unrecognized words => "unrecognized arguments: " ++ " ".intercalate words
  | .ignoredArgument flag argument =>
    "argument " ++ flag.names ++ ": ignored explicit argument " ++ Text.quoted argument
  | .ambiguous word => "ambiguous option: " ++ word ++ " could match --help, --ast"

/-- What is written for a usage error. -/
def UsageError.report (e : UsageError) : String :=
  usage ++ "lox: error: " ++ e.message ++ "\n"

/-- Whether characters write a number: digits, or digits behind a point with or without others in front. -/
def isNumber (text : List Char) : Bool :=
  match text.dropWhile Text.isDigit with
  | [] => !text.isEmpty
  | '.' :: fraction => !fraction.isEmpty && fraction.all Text.isDigit
  | _ => false

/-- Whether the characters behind a dash make up a negative number. A newline at the end does not count. -/
def isNegativeNumber (rest : List Char) : Bool :=
  isNumber (if rest.getLast? = some '\n' then rest.dropLast else rest)

/-- A word of which only the dash in front says that it is an option. Numbers and words with a blank in
    them are operands. -/
def looseWord (word : List Char) : Word :=
  let text := String.ofList word
  if isNegativeNumber word.tail || word.contains ' ' then .operand text else .unknown text

/-- What follows an equals sign in a word. -/
def attached? (rest : List Char) : Option String :=
  match rest.dropWhile (· != '=') with
  | [] => none
  | _ :: after => some (String.ofList after)

/-- A word that starts with two dashes, given what is behind them. -/
def longWord (rest : List Char) : Except UsageError Word :=
  let name := rest.takeWhile (· != '=')
  match name.isPrefixOf Flag.help.long, name.isPrefixOf Flag.tree.long with
  | true, true => .error (.ambiguous (String.ofList ('-' :: '-' :: rest)))
  | true, false => .ok (.flag .help (attached? rest))
  | false, true => .ok (.flag .tree (attached? rest))
  | false, false => .ok (looseWord ('-' :: '-' :: rest))

/-- What a word in front of the separator is. -/
def classify (word : String) : Except UsageError Word :=
  match word.toList with
  | ['-', '-'] => .ok .separator
  | '-' :: '-' :: rest => longWord rest
  | ['-', 'h'] => .ok (.flag .help none)
  | '-' :: 'h' :: '=' :: argument => .ok (.letters argument)
  | '-' :: 'h' :: argument => .ok (.letters argument)
  | '-' :: c :: rest => .ok (looseWord ('-' :: c :: rest))
  | _ => .ok (.operand word)

/-- Classifies the words of a command line. Behind the separator all words are operands. -/
def classifyAll : List String → Except UsageError (List Word)
  | [] => .ok []
  | word :: rest => do
    match ← classify word with
    | .separator => return .separator :: rest.map .operand
    | w => return w :: (← classifyAll rest)

/-- What the words before have asked for. The place of the operand is closed once it has been looked for. -/
structure Collected where
  file : Option String
  closed : Bool
  tree : Bool
  extra : List String

/-- What is attached to `-h`, directly or by an equals sign, is read as further options of one letter. Only
    `h` is one; from the first other character on it is an argument that the option does not take. -/
def lettersRequest : List Char → Request
  | ['h'] => .help
  | 'h' :: argument => lettersRequest argument
  | argument => .wrong (.ignoredArgument .help (String.ofList argument))

/-- Goes through the words in order. Help and a wrong option act as soon as they are met; words that are
    not recognised are collected. -/
def collect : List Word → Collected → Request
  | [], c => if c.extra.isEmpty then .run c.file c.tree else .wrong (.unrecognized c.extra)
  | .flag flag (some argument) :: _, _ => .wrong (.ignoredArgument flag argument)
  | .flag .help none :: _, _ => .help
  | .flag .tree none :: rest, c => collect rest { c with tree := true }
  | .letters attached :: _, _ => lettersRequest attached
  | .unknown word :: rest, c => collect rest { c with extra := c.extra ++ [word] }
  | .operand word :: .separator :: rest, c =>
    if c.closed then collect rest { c with extra := c.extra ++ [word, "--"] }
    else collect rest { c with file := some word, closed := true }
  | .operand word :: rest, c =>
    if c.closed then collect rest { c with extra := c.extra ++ [word] }
    else collect rest { c with file := some word, closed := true }
  | .separator :: rest, c =>
    if c.closed then collect rest { c with extra := c.extra ++ ["--"] } else collect rest c

/-- Reads a command line. -/
def parseArguments (words : List String) : Request :=
  match classifyAll words with
  | .ok words => collect words ⟨none, false, false, []⟩
  | .error error => .wrong error

end LoxLanguage.CommandLine
