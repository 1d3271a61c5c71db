/-!
# Blank characters and trimming

The blank characters are the twenty-five characters with the Unicode property
`White_Space`.  Trimming removes the longest runs of blanks at both ends of a
word and nothing inside it.
-/

namespace Deliberation

namespace Text

/-- The code points with the Unicode property `White_Space`. -/
def blankPoints : List Nat :=
  [0x09, 0x0A, 0x0B, 0x0C, 0x0D, 0x20, 0x85, 0xA0, 0x1680, 0x2000, 0x2001, 0x2002, 0x2003,
    0x2004, 0x2005, 0x2006, 0x2007, 0x2008, 0x2009, 0x200A, 0x2028, 0x2029, 0x202F, 0x205F,
    0x3000]

/-- Whether a character is white space. -/
def isBlank (c : Char) : Bool :=
  blankPoints.contains c.toNat

/-- A word without the blanks it starts with. -/
def trimStart (word : List Char) : List Char :=
  word.dropWhile isBlank

/-- A word without the blanks it ends with. -/
def trimEnd (word : List Char) : List Char :=
  (word.reverse.dropWhile isBlank).reverse

/-- A word without the blanks at either end. -/
def trim (word : List Char) : List Char :=
  trimEnd (trimStart word)

/--
The pieces of a text between the occurrences of a separator.  There is always
one piece more than there are separators, so the empty text has one empty piece.
-/
def pieces (separator : Char) : List Char → List (List Char)
  | [] => [[]]
  | c :: rest =>
      if c = separator then
        [] :: pieces separator rest
      else
        match pieces separator rest with
        | [] => [[c]]
        | piece :: others => (c :: piece) :: others

end Text

end Deliberation
