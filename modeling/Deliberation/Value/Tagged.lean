import Deliberation.Document.Reader

/-!
# Tagged form of data

A datum without boxes is stored as a document that names its kind: an object
with one entry, whose key is the kind and whose value is the content.  The empty
datum is the name of its kind alone.
-/

namespace Deliberation

namespace Datum

mutual

/-- The tagged document of a datum. -/
def toTagged : Tree → Document
  | .empty => .text "Empty"
  | .bool b => .object [("Bool", .bool b)]
  | .int i => .object [("Int", .int i.toInt)]
  | .float x => .object [("Float", .float x)]
  | .text s => .object [("Str", .text s)]
  | .list items => .object [("List", .array (toTaggedAll items))]

/-- The tagged documents of a list of data. -/
def toTaggedAll : List Tree → List Document
  | [] => []
  | item :: rest => toTagged item :: toTaggedAll rest

end

mutual

/-- Read a tagged document; integers are accepted where a number is wanted. -/
def ofTagged? : Document → Option Tree
  | .text s => if s = "Empty" then some .empty else none
  | .object entries => ofEntries? entries
  | _ => none

/-- Read the entries of a tagged document, which has just one. -/
def ofEntries? : List (String × Document) → Option Tree
  | [(tag, content)] => ofContent? tag content
  | _ => none

/-- Read the content that goes with a tag. -/
def ofContent? (tag : String) : Document → Option Tree
  | .null => if tag = "Empty" then some .empty else none
  | .bool b => if tag = "Bool" then some (.bool b) else none
  | .int i =>
      if tag = "Int" then
        if Document.isInt64 i then some (.int (Int64.ofInt i)) else none
      else if tag = "Float" then some (.float (Binary64.ofInt i))
      else none
  | .float x => if tag = "Float" then some (.float x) else none
  | .text s => if tag = "Str" then some (.text s) else none
  | .array items =>
      if tag = "List" then
        match ofTaggedAll? items with
        | some items => some (.list items)
        | none => none
      else none
  | .object _ => none

/-- Read a list of tagged documents. -/
def ofTaggedAll? : List Document → Option (List Tree)
  | [] => some []
  | item :: rest =>
      match ofTagged? item, ofTaggedAll? rest with
      | some item, some rest => some (item :: rest)
      | _, _ => none

end

/-- Read a datum from the text of its tagged document. -/
def parseTagged? (text : String) : Option Tree :=
  (Document.parse? text).bind ofTagged?

end Datum

end Deliberation
