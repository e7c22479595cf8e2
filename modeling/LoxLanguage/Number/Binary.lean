/-! Numbers are double precision values. This module reads one apart: its sign and, when it is finite,
the whole numbers `m` and `q` with value `m * 2 ^ q`. Nothing is rounded here, so every statement about
the text of a number is one about whole numbers. -/

namespace LoxLanguage

/-- A number: a double precision value, with one not-a-number and two zeros. -/
abbrev Number := Float

namespace Number

/-- A number taken apart. A finite one is `mantissa * 2 ^ exponent`, with a sign of its own. -/
inductive Parts where
  | notANumber
  | infinite (negative : Bool)
  | finite (negative : Bool) (mantissa : Nat) (exponent : Int)
  deriving DecidableEq

/-- The sign bit: it is set on negative numbers and on the negative zero. -/
def negative (x : Number) : Bool :=
  x.toBits.toNat / Nat.pow 2 63 == 1

/-- Compares by value, except that the not-a-number equals itself and the two zeros differ. -/
def same (x y : Number) : Bool :=
  if x.isNaN || y.isNaN then x.isNaN && y.isNaN
  else x == y && negative x == negative y

/-- The eleven bits of the exponent. -/
def exponentField (x : Number) : Nat :=
  x.toBits.toNat / Nat.pow 2 52 % Nat.pow 2 11

/-- The fifty-two bits of the fraction. -/
def fractionField (x : Number) : Nat :=
  x.toBits.toNat % Nat.pow 2 52

/-- Reads a number apart. The exponent field 0 holds the numbers without a leading one. -/
def parts (x : Number) : Parts :=
  if exponentField x = 2047 then
    if fractionField x = 0 then .infinite (negative x) else .notANumber
  else if exponentField x = 0 then
    .finite (negative x) (fractionField x) (-1074)
  else
    .finite (negative x) (Nat.pow 2 52 + fractionField x) ((exponentField x : Int) - 1075)

/-- The whole number `mantissa * 2 ^ exponent`, when it is one. -/
def whole? (mantissa : Nat) (exponent : Int) : Option Nat :=
  match exponent with
  | .ofNat k => some (mantissa * Nat.pow 2 k)
  | .negSucc k => if mantissa % Nat.pow 2 (k + 1) = 0 then some (mantissa / Nat.pow 2 (k + 1)) else none

end Number

end LoxLanguage
