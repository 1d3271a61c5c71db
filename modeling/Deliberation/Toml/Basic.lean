import Deliberation.Number.Binary64
import Deliberation.Table

/-!
# TOML values and tables

A table knows how it came into being, because that decides who may still add to
it: a header may complete a table that was only implied by a longer header, a
dotted key may add to a table that was made by dotted keys, and an inline table
is complete as it stands.
-/

namespace Deliberation

namespace Toml

/-- How a table came into being. -/
inductive Origin where
  /-- By a header of its own. -/
  | header
  /-- By the header of a table inside it. -/
  | implied
  /-- By a dotted key. -/
  | dotted
  /-- In braces. -/
  | inline
deriving DecidableEq

/-- Whether a dotted key may add to a table. -/
def Origin.isImplicit : Origin → Bool
  | header => false
  | implied => true
  | dotted => true
  | inline => false

/-- A value of a document. -/
inductive Item where
  | text (s : String)
  | integer (i : Int)
  | float (x : Binary64)
  | boolean (b : Bool)
  | moment
  | array (items : List Item)
  | table (origin : Origin) (entries : List (String × Item))
  /-- An array of tables, the last one first. -/
  | tables (items : List (List (String × Item)))

/-- Keys with values. -/
abbrev Entries := List (String × Item)

/-- Replace the value of a key, or add the key at the end. -/
def put (key : String) (item : Item) : Entries → Entries
  | [] => [(key, item)]
  | (k, i) :: rest => if k = key then (k, item) :: rest else (k, i) :: put key item rest

/-- Add a key that is not there yet. -/
def addNew (key : String) (item : Item) (entries : Entries) : Option Entries :=
  match Table.find key entries with
  | some _ => none
  | none => some (entries ++ [(key, item)])

/--
Change the table that a list of keys leads to, making the tables that are
missing on the way.  `f` gets the origin of the table and its entries.
-/
def changeAt (byDots : Bool) (f : Origin → Entries → Option Entries) :
    List String → Origin → Entries → Option Entries
  | [], origin, entries => f origin entries
  | key :: rest, _, entries =>
      match Table.find key entries with
      | none => do
          let origin := if byDots then Origin.dotted else Origin.implied
          let inner ← changeAt byDots f rest origin []
          some (put key (.table origin inner) entries)
      | some (.table origin inner) =>
          if origin = .inline || (byDots && !origin.isImplicit) then none
          else do
            let inner ← changeAt byDots f rest origin inner
            some (put key (.table origin inner) entries)
      | some (.tables (current :: older)) => do
          let current ← changeAt byDots f rest .header current
          some (put key (.tables (current :: older)) entries)
      | some _ => none

/-- Add a key that may be dotted to a table.  Dotted and plain keys do not share a table. -/
def addKey (path : List String) (key : String) (item : Item) (origin : Origin)
    (entries : Entries) : Option Entries :=
  changeAt true
    (fun target inner =>
      if decide (target = .dotted) == path.isEmpty then none else addNew key item inner)
    path origin entries

/-- Open the table of a header: a new one, or one that was only implied so far. -/
def openTable (path : List String) (key : String) (entries : Entries) : Option Entries :=
  changeAt false
    (fun _ inner =>
      match Table.find key inner with
      | none => some (put key (.table .header []) inner)
      | some (.table .implied content) => some (put key (.table .header content) inner)
      | some _ => none)
    path .header entries

/-- Open a new table at the end of an array of tables. -/
def openArrayTable (path : List String) (key : String) (entries : Entries) : Option Entries :=
  changeAt false
    (fun _ inner =>
      match Table.find key inner with
      | none => some (put key (.tables [[]]) inner)
      | some (.tables items) => some (put key (.tables ([] :: items)) inner)
      | some _ => none)
    path .header entries

end Toml

end Deliberation
