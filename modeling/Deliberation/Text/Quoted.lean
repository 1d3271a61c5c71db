import Deliberation.Text.Unprintable

/-!
# Quoted text

Two ways to write a text between double quotes.  `quote` is meant for people:
it names the usual control characters, writes every other character that would
not show by its code point, and leaves the rest alone.  `quoteForDocument`
escapes only what a document must escape: the quote, the backslash and the
control characters.
-/

namespace Deliberation

namespace Text

/-- The hexadecimal digits of a number, in lower case. -/
def hex (n : Nat) : List Char :=
  Nat.toDigits 16 n

/-- One character inside a quoted text. -/
def quoteChar (c : Char) : List Char :=
  if c = '"' then ['\\', '"']
  else if c = '\\' then ['\\', '\\']
  else if c = '\n' then ['\\', 'n']
  else if c = '\r' then ['\\', 'r']
  else if c = '\t' then ['\\', 't']
  else if c.toNat = 0 then ['\\', '0']
  else if isUnprintable c then ['\\', 'u', '\x7b'] ++ hex c.toNat ++ ['\x7d']
  else [c]

/-- A text between double quotes, with the characters that would not show escaped. -/
def quote (text : String) : String :=
  String.ofList ('"' :: (text.toList.flatMap quoteChar ++ ['"']))

/-- One character inside a quoted text of a document. -/
def documentChar (c : Char) : List Char :=
  if c = '"' then ['\\', '"']
  else if c = '\\' then ['\\', '\\']
  else if c = '\n' then ['\\', 'n']
  else if c = '\r' then ['\\', 'r']
  else if c = '\t' then ['\\', 't']
  else if c.toNat = 8 then ['\\', 'b']
  else if c.toNat = 12 then ['\\', 'f']
  else if c.toNat < 16 then ['\\', 'u', '0', '0', '0'] ++ hex c.toNat
  else if c.toNat < 32 then ['\\', 'u', '0', '0'] ++ hex c.toNat
  else [c]

/-- A text between double quotes, as documents write it. -/
def quoteForDocument (text : String) : String :=
  String.ofList ('"' :: (text.toList.flatMap documentChar ++ ['"']))

end Text

end Deliberation
