import LoxLanguage.Number.Shortest

/-! The two written forms of a number. Programs print numbers in the display form, where a whole number
shows all its digits and no point. Tokens and scope dumps use the literal form, where a number always
shows a point or an exponent. -/

namespace LoxLanguage.Number

/-- Which decimals are written without an exponent: those whose leading digit stands for a power of ten
    from `lowest` up to and without `beyond`. -/
structure Layout where
  lowest : Int
  beyond : Int

/-- Decimals are written without an exponent from `0.0001` up to sixteen digits before the point. -/
def plainLayout : Layout := ⟨-4, 16⟩

/-- The digits of a decimal, the leading one first. -/
def Decimal.digits (d : Decimal) : List Char :=
  Nat.toDigits 10 d.coefficient

/-- The power of ten that the leading digit stands for. -/
def Decimal.leading (d : Decimal) : Int :=
  d.exponent + (d.digits.length : Int) - 1

/-- Writes a decimal without an exponent, with at least one digit on each side of the point. -/
def Decimal.positional (d : Decimal) : String :=
  let digits := d.digits
  match d.leading with
  | .ofNat k =>
    let before := digits.take (k + 1)
    let after := digits.drop (k + 1)
    String.ofList (before ++ List.replicate (k + 1 - before.length) '0' ++ ['.'] ++
      (if after.isEmpty then ['0'] else after))
  | .negSucc k => String.ofList (['0', '.'] ++ List.replicate k '0' ++ digits)

/-- An exponent is written with its sign and at least two digits. -/
def exponentText (e : Int) : String :=
  let digits := Nat.toDigits 10 e.natAbs
  (if e < 0 then "e-" else "e+") ++ String.ofList (if digits.length < 2 then '0' :: digits else digits)

/-- Writes a decimal with one digit before the point and an exponent. -/
def Decimal.scientific (d : Decimal) : String :=
  match d.digits with
  | [] => ""
  | [c] => String.ofList [c] ++ exponentText d.leading
  | c :: rest => String.ofList (c :: '.' :: rest) ++ exponentText d.leading

/-- Writes a decimal as the layout says. -/
def Decimal.write (layout : Layout) (d : Decimal) : String :=
  if layout.lowest ≤ d.leading ∧ d.leading < layout.beyond then d.positional else d.scientific

/-- The sign in front of a written number. -/
def signText (negative : Bool) : String :=
  if negative then "-" else ""

/-- The fewest digits that read back as a finite number, laid out; zero is `0.0`. -/
def finiteText (mantissa : Nat) (exponent : Int) : String :=
  if mantissa = 0 then "0.0" else (shortest mantissa exponent).write plainLayout

/-- The literal form: the fewest digits that read back, always with a point or an exponent. -/
def literalText (x : Number) : String :=
  match parts x with
  | .notANumber => "nan"
  | .infinite negative => signText negative ++ "inf"
  | .finite negative mantissa exponent => signText negative ++ finiteText mantissa exponent

/-- The display form: all digits of a whole number, the fewest digits that read back of any other. -/
def displayText (x : Number) : String :=
  match parts x with
  | .notANumber => "NaN"
  | .infinite negative => signText negative ++ "Infinity"
  | .finite negative mantissa exponent =>
    signText negative ++
      match whole? mantissa exponent with
      | some n => String.ofList (Nat.toDigits 10 n)
      | none => finiteText mantissa exponent

/-- Reads a digit; only digits are ever given. -/
def digitValue (c : Char) : Nat :=
  c.toNat - '0'.toNat

/-- The whole number that a row of digits writes. -/
def ofDigits (digits : List Char) : Nat :=
  digits.foldl (fun n c => 10 * n + digitValue c) 0

/-- The number nearest to `before.after`, even on a tie, infinite when too large. -/
def ofDecimal (before after : List Char) : Number :=
  Float.ofScientific (ofDigits (before ++ after)) true after.length

end LoxLanguage.Number
