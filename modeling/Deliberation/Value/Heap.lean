import Deliberation.Error
import Deliberation.Value.Datum

/-!
# Values and the heap of boxes

A live value holds handles of boxes.  The contents of all boxes make up a heap;
copies of a value share its boxes, and a change of a box is seen through every
value that holds its handle.

Reading follows a handle to the content of its box, which may hold further
handles.  Where no box contains itself, no box comes twice on a way through the
heap, and the number of boxes bounds how often a reading has to follow a handle.
A box that has been put into itself has no end: the program does not come back
from unboxing, rendering or copying it, and what the functions here give once
their bound is met stands for no result of the program.  Results about them
therefore ask for a heap without such boxes, except where the bound is shown not
to matter.
-/

namespace Deliberation

/-- The handle of a box. -/
abbrev BoxId := Nat

/-- A value with handles in its boxes. -/
abbrev Value := Datum BoxId

/-- The contents of the boxes. -/
structure Heap where
  boxes : Array Value := #[]

namespace Heap

def empty : Heap := {}

/-- The number of boxes. -/
def size (h : Heap) : Nat := h.boxes.size

/-- The content of a box. -/
def read (h : Heap) (b : BoxId) : Value := h.boxes.getD b .empty

/-- Put a value in a new box. -/
def alloc (h : Heap) (v : Value) : Heap × BoxId := (⟨h.boxes.push v⟩, h.boxes.size)

/-- Replace the content of a box. -/
def write (h : Heap) (b : BoxId) (v : Value) : Heap := ⟨h.boxes.setIfInBounds b v⟩

@[simp] theorem size_alloc (h : Heap) (v : Value) : (h.alloc v).1.size = h.size + 1 := by
  simp [size, alloc]

@[simp] theorem size_write (h : Heap) (b : BoxId) (v : Value) : (h.write b v).size = h.size := by
  simp [size, write]

/-- A new box holds its value, and all boxes that were there keep theirs. -/
theorem read_alloc (h : Heap) (v : Value) (b : BoxId) :
    (h.alloc v).1.read b = if b = (h.alloc v).2 then v else h.read b := by
  by_cases hb : b = h.boxes.size
  · simp [read, alloc, hb, Array.getD_eq_getD_getElem?]
  · simp [read, alloc, hb, Array.getD_eq_getD_getElem?, Array.getElem?_push]

/-- Writing to a box changes the content of that box and of no other. -/
theorem read_write (h : Heap) (b c : BoxId) (v : Value) (hb : b < h.size) :
    (h.write b v).read c = if b = c then v else h.read c := by
  have hb' : b < h.boxes.size := hb
  by_cases hc : b = c
  · subst hc
    simp [read, write, Array.getD_eq_getD_getElem?, hb']
  · simp [read, write, Array.getD_eq_getD_getElem?, hc]

/-! ## Reading -/

/-- The value inside all the boxes around it, if they are at most `n`. -/
def opened? (h : Heap) : Nat → Value → Option Value
  | n + 1, .box b => opened? h n (h.read b)
  | 0, .box _ => none
  | _, v => some v

/-- The value inside all the boxes around it; there is none where they lead round in a circle. -/
def content? (h : Heap) (v : Value) : Option Value :=
  h.opened? (h.size + 1) v

/-- Open at most `n` boxes, one inside the other. -/
def openBoxes (h : Heap) (n : Nat) (v : Value) : Value :=
  (h.opened? n v).getD .empty

/-- The value inside all the boxes around it; boxes inside a list stay. -/
def snapshot (h : Heap) (v : Value) : Value :=
  h.openBoxes h.size v

/-- Replace boxes by their contents, following at most `n` handles on any way. -/
def unboxTo (h : Heap) : Nat → Value → Tree
  | 0, v => v.bind fun _ => .empty
  | n + 1, v => v.bind fun b => unboxTo h n (h.read b)

/-- The tree that is left when all boxes are removed, at every depth. -/
def unbox (h : Heap) (v : Value) : Tree :=
  h.unboxTo h.size v

/-- The text of a value; boxes do not show in it. -/
def render (h : Heap) (v : Value) : String :=
  (h.unbox v).render

/-! ## Equality -/

mutual

/--
Compare two values part by part.  A box is equal to itself, and any other pair
with a box on either side is left to `onBox`.
-/
def equalWith (onBox : Value → Value → Bool) : Value → Value → Bool
  | .box a, .box b => decide (a = b) || onBox (.box a) (.box b)
  | .box a, w => onBox (.box a) w
  | .empty, .empty => true
  | .bool a, .bool b => decide (a = b)
  | .int i, .int j => decide (i = j)
  | .float x, .float y => decide (x = y)
  | .text s, .text t => decide (s = t)
  | .list xs, .list ys => equalAllWith onBox xs ys
  | v, .box b => onBox v (.box b)
  | _, _ => false

/-- Compare two lists of values of the same length. -/
def equalAllWith (onBox : Value → Value → Bool) : List Value → List Value → Bool
  | [], [] => true
  | x :: xs, y :: ys => equalWith onBox x y && equalAllWith onBox xs ys
  | _, _ => false

end

/-- Compare what is inside the boxes around two values. -/
def onContents (h : Heap) (compare : Value → Value → Bool) (v w : Value) : Bool :=
  match h.content? v, h.content? w with
  | some v, some w => compare v w
  | _, _ => false

/-- Equality that opens boxes at most `n` times on any way into the two values. -/
def equalTo (h : Heap) : Nat → Value → Value → Bool
  | 0 => equalWith fun _ _ => false
  | n + 1 => equalWith (h.onContents (equalTo h n))

/-- All that a comparison of two values can come to. -/
def parts (h : Heap) (v w : Value) : List Value :=
  .empty :: (v :: w :: h.boxes.toList).flatMap Datum.parts

/--
Whether two values have the same content.  A box counts as what it holds, and
numbers count by their bits.  A comparison that opens boxes more often than there
are pairs of parts comes to one pair twice: it goes on for ever, and the values
are not found equal.
-/
def equal (h : Heap) (v w : Value) : Bool :=
  let count := (h.parts v w).length
  h.equalTo (count * count) v w

/-! ## Copies -/

/-- Copy a value into new boxes, following at most `n` handles on any way. -/
def copyTo : Nat → Value → StateM Heap Value
  | 0, v => v.bindM fun _ => pure .empty
  | n + 1, v => v.bindM fun b => do
      let content ← copyTo n ((← get).read b)
      let copy ← modifyGet fun h => (h.alloc content).swap
      pure (.box copy)

/-- A copy that shares no box with the value. -/
def copy (v : Value) : StateM Heap Value := do
  copyTo (← get).size v

/-- Replace the content of the box that a value is. -/
def replace (h : Heap) (target v : Value) : Except TermError Heap :=
  match target with
  | .box b => .ok (h.write b v)
  | other => .error (.typeMismatch "boxed" other.kindName)

/-! ## Values of a wanted kind -/

/-- The error for a value of another kind than the wanted one. -/
def mismatch {α : Type} (expected : String) (found : Value) : Except TermError α :=
  .error (.typeMismatch expected found.kindName)

def asBool (h : Heap) (v : Value) : Except TermError Bool :=
  match h.snapshot v with
  | .bool b => .ok b
  | other => mismatch "bool" other

def asInt (h : Heap) (v : Value) : Except TermError Int64 :=
  match h.snapshot v with
  | .int i => .ok i
  | other => mismatch "int" other

/-- A number; integers are widened. -/
def asNumber (h : Heap) (v : Value) : Except TermError Binary64 :=
  match h.snapshot v with
  | .int i => .ok (Binary64.ofInt i.toInt)
  | .float x => .ok x
  | other => mismatch "number" other

def asText (h : Heap) (v : Value) : Except TermError String :=
  match h.snapshot v with
  | .text s => .ok s
  | other => mismatch "string" other

def isEmpty (h : Heap) (v : Value) : Bool :=
  match h.snapshot v with
  | .empty => true
  | _ => false

def isNumber (h : Heap) (v : Value) : Bool :=
  match h.snapshot v with
  | .int _ => true
  | .float _ => true
  | _ => false

end Heap

end Deliberation
