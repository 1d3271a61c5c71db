import Deliberation.Number.Binary64

/-!
# Decimal text of numbers

The shortest decimal of a positive number `m * 2 ^ q` has the fewest digits
among the decimals that read back as the number, and lies nearest to it among
those.  The reals that read back form an interval around the number, whose ends
belong to it exactly when the significand is even.  On the grid of decimals
with a given number of digits, only the two neighbours of the number have to be
looked at.

A `NumberFormat` says how the digits are laid out.
-/

namespace Deliberation

/-- The number `coefficient * 10 ^ exponent`. -/
structure Decimal where
  coefficient : Nat
  exponent : Int
deriving DecidableEq

/-- Where a value halfway between two neighbours goes. -/
inductive Tie where
  | up
  | even
deriving DecidableEq

namespace Decimal

/-- Divide and round to the nearest integer, ties to even. -/
def roundDiv (numerator denominator : Nat) : Nat :=
  let quotient := numerator / denominator
  let twice := 2 * (numerator % denominator)
  if twice < denominator then quotient
  else if denominator < twice then quotient + 1
  else if quotient % 2 = 0 then quotient
  else quotient + 1

/--
Four times the number `m * 2 ^ q` and the ends of its interval, in units of
`2 ^ (q - 2)`: the lower end, the number, the upper end.  Below a power of two
the neighbours are half as far apart.
-/
def interval (m : Nat) (q : Int) : Nat × Nat × Nat :=
  (if m = Binary64.leadingWeight ∧ -1074 < q then 4 * m - 1 else 4 * m - 2, 4 * m, 4 * m + 2)

/-- The exponent of the leading decimal digit of `m * 2 ^ q`. -/
def leadingExponent (m : Nat) (q : Int) : Int :=
  let guess := ((m.log2 + q) * 30103).fdiv 100000
  let next := guess + 1
  if Nat.pow 10 next.toNat * Nat.pow 2 (-q).toNat ≤
      m * Nat.pow 2 q.toNat * Nat.pow 10 (-next).toNat then next
  else guess

/--
The neighbour of `m * 2 ^ q` on the grid of multiples of `10 ^ e` that reads
back, the nearer one when both do.
-/
def onGrid (tie : Tie) (m : Nat) (q e : Int) : Option Nat :=
  let (low, value, high) := interval m q
  let grid := Nat.pow 10 e.toNat * Nat.pow 2 (2 - q).toNat
  let scale := Nat.pow 2 (q - 2).toNat * Nat.pow 10 (-e).toNat
  let inside := fun c : Nat =>
    if m % 2 = 0 then low * scale ≤ c * grid ∧ c * grid ≤ high * scale
    else low * scale < c * grid ∧ c * grid < high * scale
  let below := value * scale / grid
  let above := below + 1
  if inside below then
    if inside above then
      let down := value * scale - below * grid
      let up := above * grid - value * scale
      if down < up then some below
      else if up < down then some above
      else match tie with
        | .up => some above
        | .even => some (if below % 2 = 0 then below else above)
    else some below
  else if inside above then some above
  else none

/-- Remove the zeros at the end of a coefficient. -/
def dropZeros : Nat → Nat → Int → Decimal
  | 0, c, e => ⟨c, e⟩
  | fuel + 1, c, e => if c % 10 = 0 then dropZeros fuel (c / 10) (e + 1) else ⟨c, e⟩

/-- Try the grids with a growing number of digits; seventeen digits always suffice. -/
def search (tie : Tie) (m : Nat) (q : Int) : Nat → Int → Decimal
  | 0, e => ⟨m, e⟩
  | fuel + 1, e =>
      match onGrid tie m q e with
      | some c => dropZeros 17 c e
      | none => search tie m q fuel (e - 1)

/-- The shortest decimal that reads back as `m * 2 ^ q`, for a positive `m`. -/
def shortest (tie : Tie) (m : Nat) (q : Int) : Decimal :=
  search tie m q 17 (leadingExponent m q)

/-- The digits of the coefficient. -/
def digits (d : Decimal) : List Char :=
  Nat.toDigits 10 d.coefficient

/-- The number of digits before the decimal point; not positive below one tenth. -/
def point (d : Decimal) : Int :=
  d.exponent + d.digits.length

/-- The digits with a decimal point, and zeros where there are no digits. -/
def positional (d : Decimal) (fraction : Bool) : List Char :=
  let ds := d.digits
  let tail := if fraction then ['.', '0'] else []
  if d.point ≤ 0 then '0' :: '.' :: (List.replicate (-d.point).toNat '0' ++ ds)
  else if 0 ≤ d.exponent then ds ++ List.replicate d.exponent.toNat '0' ++ tail
  else ds.take d.point.toNat ++ '.' :: ds.drop d.point.toNat

/-- One digit before the decimal point, and the power of ten behind an `e`. -/
def scientific (d : Decimal) (plus : Bool) : List Char :=
  let fraction := match d.digits with
    | [] => []
    | [digit] => [digit]
    | digit :: rest => digit :: '.' :: rest
  let exponent := d.point - 1
  let sign := if plus && 0 ≤ exponent then ['+'] else []
  fraction ++ 'e' :: (sign ++ (toString exponent).toList)

end Decimal

/-- How a number is written. -/
structure NumberFormat where
  /-- Whether a number with so many digits before the point is written without exponent. -/
  plain : Int → Bool
  /-- Whether a whole number ends in `.0`. -/
  fraction : Bool
  /-- Whether an exponent that is not negative has a plus sign. -/
  plus : Bool
  /-- The choice between two equally near shortest decimals. -/
  tie : Tie

namespace NumberFormat

/-- The text of a finite number without its sign. -/
def finite (format : NumberFormat) (x : Binary64) : List Char :=
  let (m, q) := x.parts
  if m = 0 then if format.fraction then ['0', '.', '0'] else ['0']
  else
    let d := Decimal.shortest format.tie m q
    if format.plain d.point then d.positional format.fraction else d.scientific format.plus

/-- The text of a number. -/
def write (format : NumberFormat) (x : Binary64) : String :=
  if x.isNaN then "NaN"
  else
    let body := if x.isInfinite then ['i', 'n', 'f'] else format.finite x
    String.ofList (if x.isNegative then '-' :: body else body)

end NumberFormat

namespace Binary64

/--
The exact value of a finite number rounded to a number of decimal places, ties
to even.  The sign of a negative zero is kept.
-/
def fixed (places : Nat) (x : Binary64) : String :=
  let (m, q) := x.parts
  let unit := Nat.pow 10 places
  let units := Decimal.roundDiv (m * Nat.pow 2 q.toNat * unit) (Nat.pow 2 (-q).toNat)
  let whole := units / unit
  let ds := Nat.toDigits 10 (units % unit)
  let body := Nat.toDigits 10 whole ++ '.' :: (List.replicate (places - ds.length) '0' ++ ds)
  String.ofList (if x.isNegative then '-' :: body else body)

end Binary64

end Deliberation
