import LoxLanguage.Number.Binary

/-! The fewest decimal digits that read back as a given binary value.

The reals that round to `m * 2 ^ q` form an interval around it, whose ends belong to it when `m` is even.
For 1, 2, … 17 digits the value lies between two neighbours on the grid of decimals with that many
digits. The first grid with a neighbour in the interval wins; of two such neighbours the nearer one is
taken, and the even one when they are equally near. All of it is arithmetic on whole numbers. -/

namespace LoxLanguage.Number

/-- The decimal number `coefficient * 10 ^ exponent`. -/
structure Decimal where
  coefficient : Nat
  exponent : Int
  deriving DecidableEq, Inhabited

/-- How many decimal digits a whole number has, none for zero. -/
def digitCount (n : Nat) : Nat :=
  if n = 0 then 0 else (Nat.toDigits 10 n).length

/-- The power of ten of the leading digit of `m * 2 ^ q`, for a positive `m`. -/
def leadingPower (m : Nat) (q : Int) : Int :=
  match q with
  | .ofNat k => (digitCount (m * Nat.pow 2 k) : Int) - 1
  | .negSucc k =>
    let scale := Nat.pow 2 (k + 1)
    if scale ≤ m then (digitCount (m / scale) : Int) - 1
    else -(digitCount ((scale + m - 1) / m - 1) : Int)

/-- A value and the ends of its rounding interval on one whole-number scale, beside the unit of a
    decimal grid on that scale. -/
structure Rounding where
  value : Nat
  lower : Nat
  upper : Nat
  unit : Nat
  closed : Bool

/-- The rounding interval of `m * 2 ^ q` beside the grid of multiples of `10 ^ k`. Below a power of two
    the next value is only half as far away, unless the values there have no leading one. -/
def rounding (m : Nat) (q : Int) (k : Int) : Rounding :=
  let factor := Nat.pow 2 (q - 2).toNat * Nat.pow 10 (-k).toNat
  let below := if m = Nat.pow 2 52 ∧ -1074 < q then 1 else 2
  { value := 4 * m * factor
    lower := (4 * m - below) * factor
    upper := (4 * m + 2) * factor
    unit := Nat.pow 10 k.toNat * Nat.pow 2 (2 - q).toNat
    closed := m % 2 == 0 }

/-- A grid point reads back as the value when it lies in the rounding interval. -/
def Rounding.holds (r : Rounding) (d : Nat) : Bool :=
  if r.closed then r.lower ≤ d * r.unit && d * r.unit ≤ r.upper
  else r.lower < d * r.unit && d * r.unit < r.upper

/-- The grid point nearest to the value among its two neighbours, if any of them reads back. -/
def Rounding.nearest? (r : Rounding) : Option Nat :=
  let d := r.value / r.unit
  let toBelow := r.value - d * r.unit
  let toAbove := (d + 1) * r.unit - r.value
  match r.holds d, r.holds (d + 1) with
  | true, true =>
    if toBelow < toAbove then some d
    else if toAbove < toBelow then some (d + 1)
    else if d % 2 = 0 then some d else some (d + 1)
  | true, false => some d
  | false, true => some (d + 1)
  | false, false => none

/-- Drops trailing zeros of the coefficient, at most `fuel` of them. -/
def Decimal.dropZeros (fuel : Nat) (d : Decimal) : Decimal :=
  match fuel with
  | 0 => d
  | fuel + 1 =>
    if d.coefficient ≠ 0 ∧ d.coefficient % 10 = 0 then
      Decimal.dropZeros fuel ⟨d.coefficient / 10, d.exponent + 1⟩
    else d

/-- The fewest decimal digits that read back as `m * 2 ^ q`, for a positive `m`. Seventeen always do. -/
def shortest (m : Nat) (q : Int) : Decimal :=
  let lead := leadingPower m q
  let found := (List.range 17).findSome? fun (n : Nat) =>
    let k := lead - (n : Int)
    ((rounding m q k).nearest?).map fun d => (⟨d, k⟩ : Decimal)
  (found.getD ⟨m, q⟩).dropZeros 18

end LoxLanguage.Number
