import LoxLanguage.Number.Text

/-! What a program can write down as a value: nil, a truth value, a number or a text. -/

namespace LoxLanguage

/-- A value that stands in the program text. -/
inductive Literal where
  | nil
  | bool (b : Bool)
  | number (x : Number)
  | text (s : String)
  deriving DecidableEq

namespace Literal

/-- The text that `print` shows. -/
def display : Literal → String
  | .nil => "nil"
  | .bool true => "true"
  | .bool false => "false"
  | .number x => Number.displayText x
  | .text s => s

/-- The text in the description of a token and in a dump of a frame. -/
def inspect : Literal → String
  | .nil => "None"
  | .bool true => "True"
  | .bool false => "False"
  | .number x => Number.literalText x
  | .text s => s

end Literal

end LoxLanguage
