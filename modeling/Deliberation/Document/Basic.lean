import Deliberation.Table
import Deliberation.Value.Datum

/-!
# Documents

A document is a tree of scalars, arrays and objects.  The entries of an object
are kept as they are given; `normalize` brings them in the order of their keys and
lets the last of several entries with one key win, at every level.
-/

namespace Deliberation

/-- A tree of scalars, arrays and objects. -/
inductive Document where
  | null
  | bool (b : Bool)
  /-- An integer of the signed or the unsigned range of sixty-four bits. -/
  | int (i : Int)
  | float (x : Binary64)
  | text (s : String)
  | array (items : List Document)
  | object (entries : List (String × Document))

namespace Document

/-- Sort entries by key; a later entry replaces an earlier one with its key. -/
def sortEntries (entries : List (String × Document)) : List (String × Document) :=
  (Table.ofList entries).entries

mutual

/-- A document whose objects list each key once and in order. -/
def normalize : Document → Document
  | .null => .null
  | .bool b => .bool b
  | .int i => .int i
  | .float x => .float x
  | .text s => .text s
  | .array items => .array (normalizeAll items)
  | .object entries => .object (sortEntries (normalizeEntries entries))

/-- Normalize the items of an array. -/
def normalizeAll : List Document → List Document
  | [] => []
  | item :: rest => normalize item :: normalizeAll rest

/-- Normalize the documents of a list of entries. -/
def normalizeEntries : List (String × Document) → List (String × Document)
  | [] => []
  | (key, item) :: rest => (key, normalize item) :: normalizeEntries rest

end

/-- The document under a key, if the document is an object that has it. -/
def get? (key : String) : Document → Option Document
  | .object entries => Table.find key entries
  | _ => none

/-- Go down an object for each key in turn. -/
def walk? : List String → Document → Option Document
  | [], d => some d
  | key :: rest, d => (d.get? key).bind (walk? rest)

/-! ## Text -/

/-- Numbers have a fraction, and an exponent with its sign when very large or very small. -/
def numberFormat : NumberFormat := ⟨fun point => -5 < point && point ≤ 16, true, true, .even⟩

mutual

/-- The compact text of a document. -/
def compact : Document → String
  | .null => "null"
  | .bool b => if b then "true" else "false"
  | .int i => toString i
  | .float x => if x.isNaN || x.isInfinite then "null" else numberFormat.write x
  | .text s => Text.quoteForDocument s
  | .array items => "[" ++ ",".intercalate (compactAll items) ++ "]"
  | .object entries => "\x7b" ++ ",".intercalate (compactEntries entries) ++ "\x7d"

/-- The compact texts of the items of an array. -/
def compactAll : List Document → List String
  | [] => []
  | item :: rest => compact item :: compactAll rest

/-- The compact texts of the entries of an object. -/
def compactEntries : List (String × Document) → List String
  | [] => []
  | (key, item) :: rest =>
      (Text.quoteForDocument key ++ ":" ++ compact item) :: compactEntries rest

end

/-! ## Data -/

/-- Whether an integer is in the signed range of sixty-four bits. -/
def isInt64 (i : Int) : Bool := -0x8000000000000000 ≤ i && i < 0x8000000000000000

mutual

/--
The datum that a document states.  An integer beyond the signed range becomes a
number, and an object is kept as its compact text.
-/
def toDatum {β : Type} : Document → Datum β
  | .null => .empty
  | .bool b => .bool b
  | .int i => if isInt64 i then .int (Int64.ofInt i) else .float (Binary64.ofInt i)
  | .float x => .float x
  | .text s => .text s
  | .array items => .list (toData items)
  | .object entries => .text (Document.object entries).compact

/-- The data that the items of an array state. -/
def toData {β : Type} : List Document → List (Datum β)
  | [] => []
  | item :: rest => toDatum item :: toData rest

end

end Document

end Deliberation
