import Deliberation.Text.Blank

/-!
# Paths

A path names a functor, a variable or a belief view by a list of segments,
written with a slash between them.  Reading a path from text ignores blank
pieces and the blanks around a segment; a path built from segments keeps every
segment that is not the empty text as it is, even one that holds a slash.
-/

namespace Deliberation

/-- A sequence of segments. -/
structure Path where
  segments : List String
deriving DecidableEq

namespace Path

/-- The character between two segments. -/
def separator : Char := '/'

/-- The path without segments. -/
def empty : Path := ⟨[]⟩

/-- Read a path: split at the separator, trim, and drop the pieces that are left empty. -/
def parse (text : String) : Path :=
  ⟨(((Text.pieces separator text.toList).map Text.trim).filter (· ≠ [])).map String.ofList⟩

/-- The path of the given segments, without the empty ones. -/
def ofSegments (segments : List String) : Path :=
  ⟨segments.filter (· ≠ "")⟩

/-- The segments joined by the separator. -/
def text (p : Path) : String :=
  "/".intercalate p.segments

def length (p : Path) : Nat := p.segments.length

def isEmpty (p : Path) : Bool := p.segments.isEmpty

/-- The last segment, or the empty text for the empty path. -/
def last (p : Path) : String := p.segments.getLastD ""

/-- Everything but the last segment. -/
def parent (p : Path) : Path := ⟨p.segments.dropLast⟩

/-- The first segment and the path behind it. -/
def uncons? (p : Path) : Option (String × Path) :=
  match p.segments with
  | [] => none
  | head :: rest => some (head, ⟨rest⟩)

/-- The segments of one path followed by those of another. -/
def append (p q : Path) : Path := ⟨p.segments ++ q.segments⟩

instance : Append Path := ⟨append⟩

/-- Add one segment at the end; the empty text adds nothing. -/
def push (p : Path) (segment : String) : Path :=
  if segment = "" then p else ⟨p.segments ++ [segment]⟩

/-- Whether the segments of `q` are the first segments of `p`. -/
def startsWith (p q : Path) : Bool :=
  q.segments.isPrefixOf p.segments

/-- Compare segment by segment; a path comes before its extensions. -/
def compareSegments : List String → List String → Ordering
  | [], [] => .eq
  | [], _ :: _ => .lt
  | _ :: _, [] => .gt
  | a :: as, b :: bs =>
      match compare a b with
      | .eq => compareSegments as bs
      | other => other

instance : Ord Path := ⟨fun p q => compareSegments p.segments q.segments⟩

/-- Only equal lists of segments compare as equal. -/
theorem compareSegments_eq_iff (first second : List String) :
    compareSegments first second = .eq ↔ first = second := by
  induction first generalizing second with
  | nil => cases second <;> simp [compareSegments]
  | cons a as ih =>
      cases second with
      | nil => simp [compareSegments]
      | cons b bs =>
          unfold compareSegments
          cases hcompare : compare a b with
          | lt =>
              have hne : a ≠ b := by
                intro h
                rw [Std.compare_eq_iff_eq.2 h] at hcompare
                cases hcompare
              simp [hne]
          | gt =>
              have hne : a ≠ b := by
                intro h
                rw [Std.compare_eq_iff_eq.2 h] at hcompare
                cases hcompare
              simp [hne]
          | eq => simp [ih, Std.compare_eq_iff_eq.1 hcompare]

instance : Std.LawfulEqOrd Path where
  compare_self := (compareSegments_eq_iff _ _).2 rfl
  eq_of_compare {p q} h := by
    cases p
    cases q
    exact congrArg Path.mk ((compareSegments_eq_iff _ _).1 h)

/-- Whether the text of a path reads back as the path. -/
def isPlain (p : Path) : Bool :=
  parse p.text == p

theorem append_segments (p q : Path) : (p ++ q).segments = p.segments ++ q.segments := rfl

end Path

end Deliberation
