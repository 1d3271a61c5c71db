import Deliberation.Document.Basic

/-!
# Reading documents

The usual text form of documents, with blanks between the parts.  A reading
function takes the characters that are left and gives back what it read and the
characters behind it.  Arrays and objects may be nested up to `maximalDepth`.

A number without fraction and exponent is an integer if it fits in sixty-four
bits.  Any other number is computed from the leading digits that fit in
sixty-four bits and one power of ten, both rounded, so it may differ from the
nearest number in its last bits; a number too large to be finite is refused.
-/

namespace Deliberation

namespace Document

namespace Reader

/-- How deep arrays and objects may be nested. -/
def maximalDepth : Nat := 127

def isBlank (c : Char) : Bool := c = ' ' || c = '\n' || c = '\t' || c = '\r'

def skipBlank (cs : List Char) : List Char := cs.dropWhile isBlank

/-! ## Numbers -/

/-- The largest significand. -/
def maximalSignificand : Nat := 0xFFFFFFFFFFFFFFFF

/--
Append digits to a significand as long as it fits, and count the digits that
were appended.
-/
def extend : Nat → Nat → List Char → Nat × Nat
  | significand, used, [] => (significand, used)
  | significand, used, d :: rest =>
      let next := significand * 10 + (d.toNat - '0'.toNat)
      if next ≤ maximalSignificand then extend next (used + 1) rest else (significand, used)

/-- The largest power of ten that is used at once. -/
def maximalPower : Nat := 308

/-- The number `10 ^ n`, rounded. -/
def powerOfTen (n : Nat) : Binary64 := Binary64.ofDecimal false 1 n

/--
Scale a number by a power of ten.  A power below the smallest one is taken in
several steps, and three of them make any significand vanish.
-/
def scale : Nat → Binary64 → Int → Option Binary64
  | 0, x, _ => some x
  | fuel + 1, x, exponent =>
      if exponent.natAbs ≤ maximalPower then
        if 0 ≤ exponent then
          let y := x.mul (powerOfTen exponent.natAbs)
          if y.isInfinite then none else some y
        else some (x.div (powerOfTen exponent.natAbs))
      else if x.isZero then some x
      else if 0 ≤ exponent then none
      else scale fuel (x.div (powerOfTen maximalPower)) (exponent + maximalPower)

/-- A number from its sign, its significand and the power of ten behind it. -/
def number (negative : Bool) (significand : Nat) (exponent : Int) : Option Document :=
  (scale 4 (Binary64.ofInt significand) exponent).map fun x =>
    .float (if negative then x.neg else x)

/-- The integer with a sign; a negative one that does not fit becomes a number. -/
def integer (negative : Bool) (significand : Nat) : Document :=
  if !negative then .int significand
  else if 1 ≤ significand && significand ≤ 0x8000000000000000 then .int (-(significand : Int))
  else .float (Binary64.ofInt significand).neg

/-- The value of a list of decimal digits. -/
def digitsValue (ds : List Char) : Nat :=
  ds.foldl (fun n d => n * 10 + (d.toNat - '0'.toNat)) 0

/-- Read an exponent, if there is one. -/
def readExponent (cs : List Char) : Option (Option Int × List Char) :=
  match cs with
  | c :: rest =>
      if c = 'e' || c = 'E' then
        let (negative, rest) := match rest with
          | '-' :: rest => (true, rest)
          | '+' :: rest => (false, rest)
          | rest => (false, rest)
        let ds := rest.takeWhile Char.isDigit
        if ds.isEmpty then none
        else
          let n : Int := digitsValue ds
          some (some (if negative then -n else n), rest.dropWhile Char.isDigit)
      else some (none, cs)
  | [] => some (none, cs)

/-- Read a number behind its sign. -/
def readNumber (negative : Bool) (cs : List Char) : Option (Document × List Char) := do
  let whole := cs.takeWhile Char.isDigit
  let rest := cs.dropWhile Char.isDigit
  if whole.isEmpty || (whole.head? = some '0' && 1 < whole.length) then none
  let (significand, used) := extend 0 0 whole
  let dropped : Int := whole.length - used
  let (significand, fraction, point, rest) ← match rest with
    | '.' :: rest =>
        let ds := rest.takeWhile Char.isDigit
        if ds.isEmpty then none
        else
          let (significand, used) := extend significand 0 ds
          some (significand, (used : Int), true, rest.dropWhile Char.isDigit)
    | rest => some (significand, 0, false, rest)
  let (exponent, rest) ← readExponent rest
  match exponent with
  | none =>
      if point || dropped ≠ 0 then
        let x ← number negative significand (dropped - fraction)
        some (x, rest)
      else some (integer negative significand, rest)
  | some e =>
      let x ← number negative significand (dropped - fraction + e)
      some (x, rest)

/-! ## Texts -/

def hexDigit? (c : Char) : Option Nat :=
  if '0' ≤ c && c ≤ '9' then some (c.toNat - '0'.toNat)
  else if 'a' ≤ c && c ≤ 'f' then some (c.toNat - 'a'.toNat + 10)
  else if 'A' ≤ c && c ≤ 'F' then some (c.toNat - 'A'.toNat + 10)
  else none

/-- Read four hexadecimal digits. -/
def readUnit : List Char → Option (Nat × List Char)
  | a :: b :: c :: d :: rest => do
      let a ← hexDigit? a
      let b ← hexDigit? b
      let c ← hexDigit? c
      let d ← hexDigit? d
      some (((a * 16 + b) * 16 + c) * 16 + d, rest)
  | _ => none

/-- Read a character behind the letter `u`; a high unit needs a low unit after it. -/
def readCodePoint (cs : List Char) : Option (Char × List Char) := do
  let (high, rest) ← readUnit cs
  if 0xDC00 ≤ high && high < 0xE000 then none
  else if 0xD800 ≤ high && high < 0xDC00 then
    match rest with
    | '\\' :: 'u' :: rest => do
        let (low, rest) ← readUnit rest
        if 0xDC00 ≤ low && low < 0xE000 then
          some (Char.ofNat (0x10000 + (high - 0xD800) * 0x400 + (low - 0xDC00)), rest)
        else none
    | _ => none
  else some (Char.ofNat high, rest)

/-- Read a character behind a backslash. -/
def readEscape : List Char → Option (Char × List Char)
  | '"' :: rest => some ('"', rest)
  | '\\' :: rest => some ('\\', rest)
  | '/' :: rest => some ('/', rest)
  | 'b' :: rest => some (Char.ofNat 8, rest)
  | 'f' :: rest => some (Char.ofNat 12, rest)
  | 'n' :: rest => some ('\n', rest)
  | 'r' :: rest => some ('\r', rest)
  | 't' :: rest => some ('\t', rest)
  | 'u' :: rest => readCodePoint rest
  | _ => none

/-- Read the rest of a text up to its closing quote; each step takes a character at least. -/
def readText : Nat → List Char → List Char → Option (String × List Char)
  | 0, _, _ => none
  | _, _, [] => none
  | fuel + 1, done, c :: rest =>
      if c = '"' then some (String.ofList done.reverse, rest)
      else if c = '\\' then
        match readEscape rest with
        | some (d, rest) => readText fuel (d :: done) rest
        | none => none
      else if c.toNat < 32 then none
      else readText fuel (c :: done) rest

/-! ## Arrays, objects and values -/

/-- Read the items of an array that is not empty, and its closing bracket. -/
def readItems (item : List Char → Option (Document × List Char)) :
    Nat → List Char → Option (List Document × List Char)
  | 0, _ => none
  | fuel + 1, cs => do
      let (x, cs) ← item cs
      match skipBlank cs with
      | ']' :: rest => some ([x], rest)
      | ',' :: rest => do
          let (xs, rest) ← readItems item fuel rest
          some (x :: xs, rest)
      | _ => none

/-- Read the entries of an object that is not empty, and its closing brace. -/
def readEntries (item : List Char → Option (Document × List Char)) :
    Nat → List Char → Option (List (String × Document) × List Char)
  | 0, _ => none
  | fuel + 1, cs => do
      match skipBlank cs with
      | '"' :: rest => do
          let (key, rest) ← readText (rest.length + 1) [] rest
          match skipBlank rest with
          | ':' :: rest => do
              let (x, rest) ← item rest
              match skipBlank rest with
              | '\x7d' :: rest => some ([(key, x)], rest)
              | ',' :: rest => do
                  let (xs, rest) ← readEntries item fuel rest
                  some ((key, x) :: xs, rest)
              | _ => none
          | _ => none
      | _ => none

/-- Read an array behind its opening bracket. -/
def readArray (item : List Char → Option (Document × List Char)) (cs : List Char) :
    Option (Document × List Char) :=
  match skipBlank cs with
  | ']' :: rest => some (.array [], rest)
  | rest => do
      let (items, rest) ← readItems item (rest.length + 1) rest
      some (.array items, rest)

/-- Read an object behind its opening brace. -/
def readObject (item : List Char → Option (Document × List Char)) (cs : List Char) :
    Option (Document × List Char) :=
  match skipBlank cs with
  | '\x7d' :: rest => some (.object [], rest)
  | rest => do
      let (entries, rest) ← readEntries item (rest.length + 1) rest
      some (.object entries, rest)

/-- Read a scalar. -/
def readScalar : List Char → Option (Document × List Char)
  | 'n' :: 'u' :: 'l' :: 'l' :: rest => some (.null, rest)
  | 't' :: 'r' :: 'u' :: 'e' :: rest => some (.bool true, rest)
  | 'f' :: 'a' :: 'l' :: 's' :: 'e' :: rest => some (.bool false, rest)
  | '"' :: rest => do
      let (s, rest) ← readText (rest.length + 1) [] rest
      some (.text s, rest)
  | '-' :: rest => readNumber true rest
  | rest => readNumber false rest

/-- Read a document in which containers are nested up to the given depth. -/
def readValue : Nat → List Char → Option (Document × List Char)
  | 0, cs =>
      match skipBlank cs with
      | '[' :: _ => none
      | '\x7b' :: _ => none
      | rest => readScalar rest
  | depth + 1, cs =>
      match skipBlank cs with
      | '[' :: rest => readArray (readValue depth) rest
      | '\x7b' :: rest => readObject (readValue depth) rest
      | rest => readScalar rest

end Reader

/-- Read a whole text as a document. -/
def parse? (text : String) : Option Document := do
  let (d, rest) ← Reader.readValue Reader.maximalDepth text.toList
  if (Reader.skipBlank rest).isEmpty then some d else none

end Document

end Deliberation
