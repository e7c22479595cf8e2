import LoxLanguage.Report.Alert

/-! A source line quoted in a report: the first place where the offending lexeme stands in it is made to
stand out and underlined. -/

namespace LoxLanguage.Quote

/-- Where a lexeme first stands in a line, counted in characters from `start`. -/
def find? (lexeme : List Char) : List Char → Nat → Option Nat
  | [], start => if lexeme.isEmpty then some start else none
  | c :: rest, start =>
    if lexeme.isPrefixOf (c :: rest) then some start else find? lexeme rest (start + 1)

/-- Whether a lexeme stands in a line. -/
def occurs (lexeme line : String) : Bool :=
  (find? lexeme.toList line.toList 0).isSome

/-- The blanks in front of a quoted line. -/
def margin : String := "    "

/-- A caret and as many tildes as make up a width. -/
def marker (width : Nat) : String :=
  String.ofList ('^' :: List.replicate (width - 1) '~')

/-- A line with the first occurrence of a lexeme underlined, or nothing if there is none. An empty lexeme
    stands for the character at its place. -/
def quote? (colour : Bool) (line lexeme : String) : Option String :=
  let source := line.toList
  (find? lexeme.toList source 0).map fun start =>
    let width := max lexeme.length 1
    margin ++ String.ofList (source.take start) ++ alert colour (String.ofList ((source.drop start).take width)) ++
      String.ofList (source.drop (start + width)) ++ "\n" ++
      margin ++ String.ofList (List.replicate start ' ') ++ alert colour (marker width)

end LoxLanguage.Quote
