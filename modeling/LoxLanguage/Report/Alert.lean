/-! Text that stands out on a terminal. With colours on it is written between escape codes, with colours off as it is. -/

namespace LoxLanguage

/-- The escape codes in front of a text that stands out: bold and red. -/
def alertOn : String := "\x1b[1m\x1b[31m"

/-- The escape code behind it. -/
def alertOff : String := "\x1b[0m"

/-- A text that stands out, as it is sent to the terminal. -/
def alert (colour : Bool) (text : String) : String :=
  if colour then alertOn ++ text ++ alertOff else text

end LoxLanguage
