/-! Lines of a text, as they are quoted in reports. Besides the newline a good many control characters
end a line here. The line numbers of tokens count newlines only, so the two can differ. -/

namespace LoxLanguage.Text

/-- The characters that end a line. -/
def isLineEnd (c : Char) : Bool :=
  let n := c.toNat
  (0x0a ≤ n && n ≤ 0x0d) || (0x1c ≤ n && n ≤ 0x1e) || n == 0x85 || n == 0x2028 || n == 0x2029

/-- Reads on in a line. The characters of the line so far are held in reverse, the lines before it too. A
    carriage return and a newline behind it end one line. A text that ends with a line end has no further
    line behind it. -/
def linesFrom : List Char → List Char → List String → List String
  | [], [], before => before.reverse
  | [], line, before => (String.ofList line.reverse :: before).reverse
  | '\r' :: '\n' :: rest, line, before => linesFrom rest [] (String.ofList line.reverse :: before)
  | c :: rest, line, before =>
    if isLineEnd c then linesFrom rest [] (String.ofList line.reverse :: before)
    else linesFrom rest (c :: line) before

/-- The lines of a text, without their ends. -/
def lines (text : String) : List String :=
  linesFrom text.toList [] []

/-- The line with a number, counted from one. -/
def lineAt? (lines : List String) (line : Int) : Option String :=
  if 0 < line then lines[(line - 1).toNat]? else none

/-- Turns the two other common line ends into newlines. The part that is done is held in reverse. -/
def unifyNewlines : List Char → List Char → List Char
  | [], done => done.reverse
  | '\r' :: '\n' :: rest, done => unifyNewlines rest ('\n' :: done)
  | '\r' :: rest, done => unifyNewlines rest ('\n' :: done)
  | c :: rest, done => unifyNewlines rest (c :: done)

/-- A text as it is read from a file: every line ends with a newline character alone. -/
def withNewlines (text : String) : String :=
  String.ofList (unifyNewlines text.toList [])

end LoxLanguage.Text
