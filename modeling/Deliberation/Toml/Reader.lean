import Deliberation.Toml.Basic

/-!
# Reading TOML

A document is read line by line: comments, headers and keys with values.  A
reading function takes the characters that are left and gives back what it read
and the characters behind it.
-/

namespace Deliberation

namespace Toml

namespace Reader

/-- How deep arrays and inline tables may be nested, and how long a dotted key may be. -/
def maximalDepth : Nat := 79

/-! ## Blanks, comments and line ends -/

def isSpace (c : Char) : Bool := c = ' ' || c = '\t'

def skipSpaces (cs : List Char) : List Char := cs.dropWhile isSpace

/-- Whether a character may stand in a comment or, unescaped, in a text. -/
def isPlainChar (c : Char) : Bool := c = '\t' || (32 ≤ c.toNat && c.toNat ≠ 127)

/-- Pass over a line end. -/
def lineEnd? : List Char → Option (List Char)
  | '\n' :: rest => some rest
  | '\r' :: '\n' :: rest => some rest
  | _ => none

/-- Pass over a comment, if there is one. -/
def skipComment (cs : List Char) : List Char :=
  match cs with
  | '#' :: rest => rest.dropWhile isPlainChar
  | _ => cs

/-- Pass over the rest of a line: spaces, a comment, and its end. -/
def finishLine? (cs : List Char) : Option (List Char) :=
  match skipComment (skipSpaces cs) with
  | [] => some []
  | rest => lineEnd? rest

/-- Pass over spaces, comments and line ends inside an array. -/
def skipGaps : Nat → List Char → List Char
  | 0, cs => cs
  | fuel + 1, cs =>
      let rest := skipComment (skipSpaces cs)
      match lineEnd? rest with
      | some rest => skipGaps fuel rest
      | none => rest

/-! ## Texts -/

def hexDigit? (c : Char) : Option Nat :=
  if '0' ≤ c && c ≤ '9' then some (c.toNat - '0'.toNat)
  else if 'a' ≤ c && c ≤ 'f' then some (c.toNat - 'a'.toNat + 10)
  else if 'A' ≤ c && c ≤ 'F' then some (c.toNat - 'A'.toNat + 10)
  else none

/-- The value of digits in a base, if all characters are such digits. -/
def digitsValue? (base : Nat) : Nat → List Char → Option Nat
  | n, [] => some n
  | n, c :: rest =>
      match hexDigit? c with
      | some d => if d < base then digitsValue? base (n * base + d) rest else none
      | none => none

/-- Read a character given by a number of hexadecimal digits. -/
def readCodePoint (length : Nat) (cs : List Char) : Option (Char × List Char) := do
  let ds := cs.take length
  if ds.length < length then none
  let n ← digitsValue? 16 0 ds
  if n.isValidChar then some (Char.ofNat n, cs.drop length) else none

/-- Read a character behind a backslash. -/
def readEscape : List Char → Option (Char × List Char)
  | 'b' :: rest => some (Char.ofNat 8, rest)
  | 't' :: rest => some ('\t', rest)
  | 'n' :: rest => some ('\n', rest)
  | 'f' :: rest => some (Char.ofNat 12, rest)
  | 'r' :: rest => some ('\r', rest)
  | '"' :: rest => some ('"', rest)
  | '\\' :: rest => some ('\\', rest)
  | 'u' :: rest => readCodePoint 4 rest
  | 'U' :: rest => readCodePoint 8 rest
  | _ => none

/-- Read the rest of a text in double quotes. -/
def readBasic : Nat → List Char → List Char → Option (String × List Char)
  | 0, _, _ => none
  | _, _, [] => none
  | fuel + 1, done, c :: rest =>
      if c = '"' then some (String.ofList done.reverse, rest)
      else if c = '\\' then
        match readEscape rest with
        | some (d, rest) => readBasic fuel (d :: done) rest
        | none => none
      else if isPlainChar c then readBasic fuel (c :: done) rest
      else none

/-- Read the rest of a text in single quotes. -/
def readLiteral (cs : List Char) : Option (String × List Char) :=
  let isInner := fun c : Char => isPlainChar c && c ≠ '\''
  match cs.dropWhile isInner with
  | '\'' :: rest => some (String.ofList (cs.takeWhile isInner), rest)
  | _ => none

/-- Pass over spaces and line ends. -/
def skipMargin : List Char → List Char
  | [] => []
  | '\r' :: '\n' :: rest => skipMargin rest
  | c :: rest => if isSpace c || c = '\n' then skipMargin rest else c :: rest

/-- Pass over a line end behind a backslash and all the blanks after it. -/
def skipFolded? (cs : List Char) : Option (List Char) :=
  (lineEnd? (skipSpaces cs)).map skipMargin

/--
Read the rest of a text over several lines.  Three quotes close it; up to two
more quotes right before them belong to the text.
-/
def readLines (mark : Char) (escapes : Bool) :
    Nat → List Char → List Char → Option (String × List Char)
  | 0, _, _ => none
  | _, _, [] => none
  | fuel + 1, done, c :: rest =>
      if c = mark then
        let more := (rest.take 4).takeWhile (· = mark)
        if 2 ≤ more.length then
          some (String.ofList ((List.replicate (more.length - 2) mark ++ done).reverse),
            rest.drop more.length)
        else readLines mark escapes fuel (c :: done) rest
      else if escapes && c = '\\' then
        match skipFolded? rest with
        | some rest => readLines mark escapes fuel done rest
        | none =>
            match readEscape rest with
            | some (d, rest) => readLines mark escapes fuel (d :: done) rest
            | none => none
      else if isPlainChar c then readLines mark escapes fuel (c :: done) rest
      else
        match lineEnd? (c :: rest) with
        | some rest => readLines mark escapes fuel ('\n' :: done) rest
        | none => none

/-- A line end right behind the opening quotes does not belong to the text. -/
def skipFirstLineEnd (cs : List Char) : List Char := (lineEnd? cs).getD cs

/-- Read a text of any form. -/
def readText : List Char → Option (String × List Char)
  | '"' :: '"' :: '"' :: rest =>
      readLines '"' true (rest.length + 1) [] (skipFirstLineEnd rest)
  | '\'' :: '\'' :: '\'' :: rest =>
      readLines '\'' false (rest.length + 1) [] (skipFirstLineEnd rest)
  | '"' :: rest => readBasic (rest.length + 1) [] rest
  | '\'' :: rest => readLiteral rest
  | _ => none

/-! ## Keys -/

def isBareChar (c : Char) : Bool := c.isAlphanum || c = '_' || c = '-'

/-- Read one part of a key. -/
def readSimpleKey : List Char → Option (String × List Char)
  | '"' :: rest => readBasic (rest.length + 1) [] rest
  | '\'' :: rest => readLiteral rest
  | cs =>
      let bare := cs.takeWhile isBareChar
      if bare.isEmpty then none else some (String.ofList bare, cs.dropWhile isBareChar)

/-- Read the parts of a key between dots. -/
def readKey : Nat → List Char → Option (List String × List Char)
  | 0, _ => none
  | fuel + 1, cs => do
      let (part, rest) ← readSimpleKey (skipSpaces cs)
      match skipSpaces rest with
      | '.' :: rest => do
          let (parts, rest) ← readKey fuel rest
          some (part :: parts, rest)
      | rest => some ([part], rest)

/-! ## Numbers and moments -/

/-- Take digits, with single underscores between two of them. -/
def takeDigits (isDigit : Char → Bool) : Nat → List Char → List Char × List Char
  | 0, cs => ([], cs)
  | fuel + 1, c :: rest =>
      if isDigit c then
        let (ds, rest) := takeDigits isDigit fuel rest
        (c :: ds, rest)
      else if c = '_' then
        match rest with
        | d :: _ =>
            if isDigit d then takeDigits isDigit fuel rest else ([], c :: rest)
        | [] => ([], c :: rest)
      else ([], c :: rest)
  | _, [] => ([], [])

/-- Read at least one digit. -/
def readDigits (isDigit : Char → Bool) (cs : List Char) : Option (List Char × List Char) :=
  match cs with
  | c :: _ => if isDigit c then some (takeDigits isDigit cs.length cs) else none
  | [] => none

def readSign : List Char → Option Bool × List Char
  | '+' :: rest => (some false, rest)
  | '-' :: rest => (some true, rest)
  | rest => (none, rest)

/-- Read a decimal integer without its sign; a leading zero stands alone. -/
def readWhole (cs : List Char) : Option (List Char × List Char) :=
  match cs with
  | '0' :: rest => some (['0'], rest)
  | _ => readDigits Char.isDigit cs

/-- An integer that fits in sixty-four bits. -/
def integer? (i : Int) : Option Item :=
  if -0x8000000000000000 ≤ i && i < 0x8000000000000000 then some (.integer i) else none

/-- Read an integer in a base behind its sign of two characters. -/
def readBased (base : Nat) (cs : List Char) : Option (Item × List Char) := do
  let (ds, rest) ← readDigits (fun c => (digitsValue? base 0 [c]).isSome) cs
  let n ← digitsValue? base 0 ds
  let i ← integer? n
  some (i, rest)

/-- Read an exponent, if there is one. -/
def readExponent (cs : List Char) : Option (Option Int × List Char) :=
  match cs with
  | c :: rest =>
      if c = 'e' || c = 'E' then do
        let (sign, rest) := readSign rest
        let (ds, rest) ← readDigits Char.isDigit rest
        let n ← digitsValue? 10 0 ds
        some (some (if sign = some true then -(n : Int) else n), rest)
      else some (none, cs)
  | [] => some (none, cs)

/-- Read a fraction, if there is one. -/
def readFraction (cs : List Char) : Option (Option (List Char) × List Char) :=
  match cs with
  | '.' :: rest => do
      let (ds, rest) ← readDigits Char.isDigit rest
      some (some ds, rest)
  | _ => some (none, cs)

/-- A number from its digits; one too large to be finite is refused unless it is negative. -/
def float? (negative : Bool) (ds : List Char) (exponent : Int) : Option Item := do
  let n ← digitsValue? 10 0 ds
  let x := Binary64.ofDecimal negative n exponent
  if x.isInfinite && !negative then none else some (.float x)

/-- Read an integer or a number. -/
def readNumber (cs : List Char) : Option (Item × List Char) :=
  match cs with
  | '0' :: 'x' :: rest => readBased 16 rest
  | '0' :: 'o' :: rest => readBased 8 rest
  | '0' :: 'b' :: rest => readBased 2 rest
  | _ => do
      let (sign, rest) := readSign cs
      let negative := sign = some true
      match rest with
      | 'i' :: 'n' :: 'f' :: rest =>
          some (.float (Binary64.signed negative Binary64.infiniteMagnitude), rest)
      | 'n' :: 'a' :: 'n' :: rest =>
          some (.float (Binary64.signed negative 0x7FF8000000000000), rest)
      | _ => do
          let (whole, rest) ← readWhole rest
          let (fraction, rest) ← readFraction rest
          let (exponent, rest) ← readExponent rest
          match fraction, exponent with
          | none, none => do
              let n ← digitsValue? 10 0 whole
              let i ← integer? (if negative then -(n : Int) else n)
              some (i, rest)
          | _, _ => do
              let ds := fraction.getD []
              let x ← float? negative (whole ++ ds) (exponent.getD 0 - ds.length)
              some (x, rest)

/-- Read a number of digits whose value lies between two bounds. -/
def readField (length low high : Nat) (cs : List Char) : Option (Nat × List Char) := do
  let ds := cs.take length
  if ds.length < length then none
  let n ← digitsValue? 10 0 ds
  if low ≤ n && n ≤ high then some (n, cs.drop length) else none

/-- Pass over one character. -/
def expect (c : Char) : List Char → Option (List Char)
  | d :: rest => if c = d then some rest else none
  | [] => none

/-- Read a time of day. -/
def readTime (cs : List Char) : Option (List Char) := do
  let (_, rest) ← readField 2 0 23 cs
  let rest ← expect ':' rest
  let (_, rest) ← readField 2 0 59 rest
  let rest ← expect ':' rest
  let (_, rest) ← readField 2 0 60 rest
  match rest with
  | '.' :: rest =>
      if (rest.takeWhile Char.isDigit).isEmpty then none
      else some (rest.dropWhile Char.isDigit)
  | rest => some rest

/-- Read the offset of a time, if there is one. -/
def readOffset (cs : List Char) : Option (List Char) :=
  match cs with
  | c :: rest =>
      if c = 'Z' || c = 'z' then some rest
      else if c = '+' || c = '-' then do
        let (_, rest) ← readField 2 0 23 rest
        let rest ← expect ':' rest
        let (_, rest) ← readField 2 0 59 rest
        some rest
      else some cs
  | [] => some cs

def daysIn (year month : Nat) : Nat :=
  if month = 2 then
    if year % 4 = 0 && (year % 100 ≠ 0 || year % 400 = 0) then 29 else 28
  else if month = 4 || month = 6 || month = 9 || month = 11 then 30
  else 31

/-- Read a date, with or without a time of day behind it. -/
def readDate (cs : List Char) : Option (List Char) := do
  let (year, rest) ← readField 4 0 9999 cs
  let rest ← expect '-' rest
  let (month, rest) ← readField 2 1 12 rest
  let rest ← expect '-' rest
  let (_, rest) ← readField 2 1 (daysIn year month) rest
  match rest with
  | c :: after =>
      if c = 'T' || c = 't' || c = ' ' then
        match readField 2 0 23 after with
        | some (_, ':' :: _) => do
            let rest ← readTime after
            readOffset rest
        | _ => some rest
      else some rest
  | [] => some rest

/-- Whether a value starts like a date or a time of day. -/
def startsMoment (cs : List Char) : Bool :=
  ((cs.take 4).all Char.isDigit && (cs.drop 4).head? = some '-' && (cs.take 4).length = 4) ||
    ((cs.take 2).all Char.isDigit && (cs.drop 2).head? = some ':' && (cs.take 2).length = 2)

/-- Read a date or a time of day. -/
def readMoment (cs : List Char) : Option (Item × List Char) :=
  if (cs.drop 2).head? = some ':' then (readTime cs).map fun rest => (.moment, rest)
  else (readDate cs).map fun rest => (.moment, rest)

/-! ## Arrays, inline tables and values -/

/-- Read the items of an array up to its closing bracket. -/
def readItems (item : List Char → Option (Item × List Char)) :
    Nat → List Char → Option (List Item × List Char)
  | 0, _ => none
  | fuel + 1, cs =>
      match skipGaps cs.length cs with
      | ']' :: rest => some ([], rest)
      | cs => do
          let (x, rest) ← item cs
          match skipGaps rest.length rest with
          | ']' :: rest => some ([x], rest)
          | ',' :: rest => do
              let (xs, rest) ← readItems item fuel rest
              some (x :: xs, rest)
          | _ => none

/-- Read a key with its value. -/
def readKeyValue (item : List Char → Option (Item × List Char)) (cs : List Char) :
    Option ((List String × Item) × List Char) := do
  let (key, rest) ← readKey maximalDepth cs
  let rest ← expect '=' rest
  let (x, rest) ← item (skipSpaces rest)
  some ((key, x), rest)

/-- Read the entries of an inline table that is not empty, and its closing brace. -/
def readEntries (item : List Char → Option (Item × List Char)) :
    Nat → Entries → List Char → Option (Entries × List Char)
  | 0, _, _ => none
  | fuel + 1, entries, cs => do
      let ((key, x), rest) ← readKeyValue item cs
      let entries ← addKey key.dropLast (key.getLastD "") x .inline entries
      match skipSpaces rest with
      | '\x7d' :: rest => some (entries, rest)
      | ',' :: rest => readEntries item fuel entries rest
      | _ => none

/-- Read an inline table behind its opening brace. -/
def readInline (item : List Char → Option (Item × List Char)) (cs : List Char) :
    Option (Item × List Char) :=
  match skipSpaces cs with
  | '\x7d' :: rest => some (.table .inline [], rest)
  | rest => do
      let (entries, rest) ← readEntries item (rest.length + 1) [] rest
      some (.table .inline entries, rest)

/-- Read a value that is neither an array nor an inline table. -/
def readScalar (cs : List Char) : Option (Item × List Char) :=
  match cs with
  | 't' :: 'r' :: 'u' :: 'e' :: rest => some (.boolean true, rest)
  | 'f' :: 'a' :: 'l' :: 's' :: 'e' :: rest => some (.boolean false, rest)
  | c :: _ =>
      if c = '"' || c = '\'' then (readText cs).map fun (s, rest) => (.text s, rest)
      else if startsMoment cs then readMoment cs
      else readNumber cs
  | [] => none

/-- Read a value in which arrays and inline tables are nested up to a depth. -/
def readValue : Nat → List Char → Option (Item × List Char)
  | 0, cs =>
      match cs with
      | '[' :: _ => none
      | '\x7b' :: _ => none
      | _ => readScalar cs
  | depth + 1, cs =>
      match cs with
      | '[' :: rest => do
          let (items, rest) ← readItems (readValue depth) (rest.length + 1) rest
          some (.array items, rest)
      | '\x7b' :: rest => readInline (readValue depth) rest
      | _ => readScalar cs

/-! ## Documents -/

/-- The entries so far, and the table that keys are added to. -/
structure State where
  entries : Entries := []
  current : List String := []

/-- Add a key with its value to the current table. -/
def State.addKey (state : State) (key : List String) (x : Item) : Option State := do
  let entries ← changeAt false
    (fun _ inner => Toml.addKey key.dropLast (key.getLastD "") x .header inner)
    state.current .header state.entries
  some { state with entries }

/-- Read the key of a header up to its closing brackets. -/
def readHeader (cs : List Char) : Option ((List String × Bool) × List Char) :=
  match cs with
  | '[' :: '[' :: rest => do
      let (key, rest) ← readKey maximalDepth rest
      match rest with
      | ']' :: ']' :: rest => some ((key, true), rest)
      | _ => none
  | '[' :: rest => do
      let (key, rest) ← readKey maximalDepth rest
      let rest ← expect ']' rest
      some ((key, false), rest)
  | _ => none

/-- Read one line that is not blank. -/
def readLine (state : State) (cs : List Char) : Option (State × List Char) :=
  match cs with
  | '[' :: _ => do
      let ((key, isArray), rest) ← readHeader cs
      let rest ← finishLine? rest
      let openWith := if isArray then openArrayTable else openTable
      let entries ← openWith key.dropLast (key.getLastD "") state.entries
      some (⟨entries, key⟩, rest)
  | _ => do
      let ((key, x), rest) ← readKeyValue (readValue maximalDepth) cs
      let rest ← finishLine? rest
      let state ← state.addKey key x
      some (state, rest)

/-- Read line after line; each takes a character at least. -/
def readLinesFrom : Nat → State → List Char → Option State
  | 0, state, cs => if cs.isEmpty then some state else none
  | fuel + 1, state, cs =>
      match skipSpaces cs with
      | [] => some state
      | '#' :: rest =>
          match finishLine? ('#' :: rest) with
          | some rest => readLinesFrom fuel state rest
          | none => none
      | c :: rest =>
          match lineEnd? (c :: rest) with
          | some rest => readLinesFrom fuel state rest
          | none =>
              match readLine state (c :: rest) with
              | some (state, rest) => readLinesFrom fuel state rest
              | none => none

end Reader

/-- Read a whole document; a byte order mark before it is passed over. -/
def parse? (text : String) : Option Entries :=
  let cs := match text.toList with
    | '\uFEFF' :: rest => rest
    | cs => cs
  (Reader.readLinesFrom (cs.length + 1) {} cs).map Reader.State.entries

end Toml

end Deliberation
