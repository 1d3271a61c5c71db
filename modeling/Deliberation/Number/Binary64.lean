/-!
# Double precision numbers

A number is its sixty-four bit pattern, so two numbers are the same exactly
when all their bits agree: the two zeros differ, and a not-a-number equals
itself.  The numeric order is kept apart from this identity.  It is read off
the pattern as an integer, `rank`, which grows with the number and is zero for
both zeros; a not-a-number has no place in it.
-/

namespace Deliberation

/-- A double precision number, given by its bit pattern. -/
structure Binary64 where
  bits : UInt64
deriving DecidableEq

namespace Binary64

/-- The bit that tells negative from positive. -/
def signBit : UInt64 := 0x8000000000000000

def zero : Binary64 := ⟨0⟩

def one : Binary64 := ⟨0x3FF0000000000000⟩

/-- The pattern of the result of an operation without a meaningful value. -/
def indefinite : Binary64 := ⟨0xFFF8000000000000⟩

/-- What the sign bit weighs in a pattern. -/
def signWeight : Nat := 0x8000000000000000

/-- What the lowest exponent bit weighs in a pattern, and the leading bit in a significand. -/
def leadingWeight : Nat := 0x10000000000000

/-- The pattern with the sign removed. -/
def magnitude (x : Binary64) : Nat := x.bits.toNat % signWeight

/-- The magnitude of the two infinities. -/
def infiniteMagnitude : Nat := 0x7FF0000000000000

def isNegative (x : Binary64) : Bool := signWeight ≤ x.bits.toNat

def isNaN (x : Binary64) : Bool := infiniteMagnitude < x.magnitude

def isInfinite (x : Binary64) : Bool := x.magnitude = infiniteMagnitude

def isZero (x : Binary64) : Bool := x.magnitude = 0

/-! ## Order -/

/-- The place of a number among all numbers; meaningless for a not-a-number. -/
def rank (x : Binary64) : Int :=
  if x.isNegative then -(x.magnitude : Int) else x.magnitude

/-- Numeric comparison, undefined when either side is a not-a-number. -/
def compare? (x y : Binary64) : Option Ordering :=
  if x.isNaN || y.isNaN then none else some (compare x.rank y.rank)

/-- Numeric equality: the zeros are equal and a not-a-number equals nothing. -/
def numEq (x y : Binary64) : Bool := !x.isNaN && !y.isNaN && x.rank == y.rank

def lt (x y : Binary64) : Bool := !x.isNaN && !y.isNaN && decide (x.rank < y.rank)

def le (x y : Binary64) : Bool := !x.isNaN && !y.isNaN && decide (x.rank ≤ y.rank)

/-! ## Significand and exponent -/

/--
The significand `m` and exponent `q` of a finite number, whose absolute value
is `m * 2 ^ q`.
-/
def parts (x : Binary64) : Nat × Int :=
  let exponent : Nat := x.magnitude / leadingWeight
  let fraction : Nat := x.magnitude % leadingWeight
  if exponent = 0 then (fraction, -1074) else (fraction + leadingWeight, Int.ofNat exponent - 1075)

/-- Give a magnitude a sign. -/
def signed (negative : Bool) (magnitude : Nat) : Binary64 :=
  ⟨UInt64.ofNat (if negative then magnitude + signWeight else magnitude)⟩

/--
The number `m * 2 ^ q` with a sign, for `m ≤ 2 ^ 53` and `-1074 ≤ q`: the
significand is shifted up until its leading bit stands where the format wants
it, or the exponent can go no lower.
-/
def ofParts (negative : Bool) (m : Nat) (q : Int) : Binary64 :=
  let shift := min (52 - m.log2) (q + 1074).toNat
  let significand := m * Nat.pow 2 shift
  let exponent := (q - shift + 1075).toNat
  signed negative (if significand < leadingWeight then significand
    else exponent * leadingWeight + (significand - leadingWeight))

/-- A whole number without its last `bits` bits: the nearest one, of two the even one. -/
def roundOff (m bits : Nat) : Nat :=
  let unit := Nat.pow 2 bits
  let kept := m / unit
  let twice := 2 * (m % unit)
  if twice < unit || (twice = unit && kept % 2 = 0) then kept else kept + 1

/--
The nearest number to an integer, ties to even, for an integer of at most a
thousand bits.  What does not fit in a significand is rounded off; where this
carries into a further bit, the pattern goes on to the next exponent.
-/
def ofInt (i : Int) : Binary64 :=
  let bits := i.natAbs.log2 - 52
  ofParts (i < 0) (roundOff i.natAbs bits) bits

/-! ## Arithmetic -/

def toFloat (x : Binary64) : Float := Float.ofBits x.bits

def ofFloat (x : Float) : Binary64 := ⟨x.toBits⟩

/-- The bit that a not-a-number has when it passes quietly through an operation. -/
def quietBit : UInt64 := 0x8000000000000

/-- Whether a number is a not-a-number without the quiet bit. -/
def isSignaling (x : Binary64) : Bool := x.isNaN && x.bits &&& quietBit == 0

/-- A not-a-number with its quiet bit set. -/
def quiet (x : Binary64) : Binary64 := ⟨x.bits ||| quietBit⟩

/-- The not-a-number that an operation gives: the first operand that is one, else the indefinite. -/
def undefined (x y : Binary64) : Binary64 :=
  if x.isNaN then x.quiet
  else if y.isNaN then y.quiet
  else indefinite

/-- The result of an operation on two operands; a not-a-number takes its pattern from them. -/
def settle (x y result : Binary64) : Binary64 :=
  if result.isNaN then undefined x y else result

/-- The number with the other sign; this also holds for a not-a-number. -/
def neg (x : Binary64) : Binary64 := ⟨x.bits ^^^ signBit⟩

def add (x y : Binary64) : Binary64 := settle x y (ofFloat (x.toFloat + y.toFloat))

def sub (x y : Binary64) : Binary64 := settle x y (ofFloat (x.toFloat - y.toFloat))

def mul (x y : Binary64) : Binary64 := settle x y (ofFloat (x.toFloat * y.toFloat))

def div (x y : Binary64) : Binary64 := settle x y (ofFloat (x.toFloat / y.toFloat))

/-- Whether a number is a whole number that two does not divide. -/
def isOdd (x : Binary64) : Bool :=
  let (m, q) := x.parts
  !x.isNaN && !x.isInfinite && q ≤ 0 && m % Nat.pow 2 (-q).toNat = 0
    && m / Nat.pow 2 (-q).toNat % 2 = 1

/--
A power.  The power with exponent zero and the powers of one are one, whatever
the other operand is, unless that is a signaling not-a-number.  An odd power of
a not-a-number has no sign.
-/
def pow (x y : Binary64) : Binary64 :=
  let result := ofFloat (x.toFloat ^ y.toFloat)
  if !(x.isSignaling || y.isSignaling || result.isNaN) then result
  else if x.isNaN && y.isOdd then signed false x.quiet.magnitude
  else undefined x y

/--
The remainder of a division rounded toward zero.  It is exact, keeps the sign
of the dividend, and is undefined for an infinite dividend or a zero divisor.
-/
def rem (x y : Binary64) : Binary64 :=
  if x.isNaN || y.isNaN || x.isInfinite || y.isZero then undefined x y
  else if y.isInfinite then x
  else
    let (m, q) := x.parts
    let (n, r) := y.parts
    let low := min q r
    let dividend := m * Nat.pow 2 (q - low).toNat
    let divisor := n * Nat.pow 2 (r - low).toNat
    ofParts x.isNegative (dividend % divisor) low

/--
The nearest number to `coefficient * 10 ^ exponent` with a sign, ties to even;
a value beyond the largest number becomes infinite.
-/
def ofDecimal (negative : Bool) (coefficient : Nat) (exponent : Int) : Binary64 :=
  let magnitude := ofFloat (Float.ofScientific coefficient (exponent < 0) exponent.natAbs)
  if negative then neg magnitude else magnitude

end Binary64

end Deliberation
