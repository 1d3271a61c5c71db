import Deliberation.Number.Decimal
import Deliberation.Text.Quoted

/-!
# Data

A datum is a ground value: empty, a truth value, an integer of sixty-four bits,
a number, a text, a list, or a box.  What stands in a box is left open.  With
handles of a heap in its boxes a datum is a live value; without any box it is a
plain tree; and with boxes that hold nothing it is the outline of a value, which
a change of box contents leaves alone.
-/

namespace Deliberation

/-- A ground value with boxes marked by `β`. -/
inductive Datum (β : Type) where
  | empty
  | bool (b : Bool)
  | int (i : Int64)
  | float (x : Binary64)
  | text (s : String)
  | list (items : List (Datum β))
  | box (mark : β)

/-- A datum without boxes. -/
abbrev Tree := Datum Empty

/-- A datum in which boxes are places only. -/
abbrev Outline := Datum Unit

namespace Datum

variable {β γ : Type}

/-! ## Equality -/

section Equality

variable [DecidableEq β]

mutual

/-- Whether two data are built alike. -/
def same : Datum β → Datum β → Bool
  | .empty, .empty => true
  | .bool a, .bool b => decide (a = b)
  | .int i, .int j => decide (i = j)
  | .float x, .float y => decide (x = y)
  | .text s, .text t => decide (s = t)
  | .list xs, .list ys => sameAll xs ys
  | .box a, .box b => decide (a = b)
  | _, _ => false

/-- Whether two lists of data are built alike. -/
def sameAll : List (Datum β) → List (Datum β) → Bool
  | [], [] => true
  | x :: xs, y :: ys => same x y && sameAll xs ys
  | _, _ => false

end

mutual

theorem same_iff : ∀ a b : Datum β, same a b = true ↔ a = b
  | .empty, b => by cases b <;> simp [same]
  | .bool _, b => by cases b <;> simp [same]
  | .int _, b => by cases b <;> simp [same]
  | .float _, b => by cases b <;> simp [same]
  | .text _, b => by cases b <;> simp [same]
  | .list xs, b => by cases b <;> simp [same, sameAll_iff xs]
  | .box _, b => by cases b <;> simp [same]

theorem sameAll_iff : ∀ xs ys : List (Datum β), sameAll xs ys = true ↔ xs = ys
  | [], ys => by cases ys <;> simp [sameAll]
  | x :: xs, ys => by cases ys <;> simp [sameAll, same_iff x, sameAll_iff xs]

end

instance : DecidableEq (Datum β) := fun a b => decidable_of_iff _ (same_iff a b)

end Equality

/-! ## Replacing boxes -/

mutual

/-- Put a datum in the place of every box. -/
def bind (f : β → Datum γ) : Datum β → Datum γ
  | .empty => .empty
  | .bool b => .bool b
  | .int i => .int i
  | .float x => .float x
  | .text s => .text s
  | .list items => .list (bindAll f items)
  | .box mark => f mark

/-- Put a datum in the place of every box of a list. -/
def bindAll (f : β → Datum γ) : List (Datum β) → List (Datum γ)
  | [] => []
  | item :: rest => bind f item :: bindAll f rest

end

mutual

/-- Put a datum in the place of every box, from left to right, with effects. -/
def bindM {m : Type → Type} [Monad m] (f : β → m (Datum γ)) : Datum β → m (Datum γ)
  | .empty => pure .empty
  | .bool b => pure (.bool b)
  | .int i => pure (.int i)
  | .float x => pure (.float x)
  | .text s => pure (.text s)
  | .list items => do
      let items ← bindAllM f items
      pure (.list items)
  | .box mark => f mark

/-- Put a datum in the place of every box of a list, from left to right, with effects. -/
def bindAllM {m : Type → Type} [Monad m] (f : β → m (Datum γ)) :
    List (Datum β) → m (List (Datum γ))
  | [] => pure []
  | item :: rest => do
      let item ← bindM f item
      let rest ← bindAllM f rest
      pure (item :: rest)

end

/-- Forget what stands in the boxes. -/
def outline (d : Datum β) : Outline :=
  d.bind fun _ => .box ()

theorem bindAll_eq_map (f : β → Datum γ) (items : List (Datum β)) :
    bindAll f items = items.map (bind f) := by
  induction items with
  | nil => rfl
  | cons item rest ih => simp [bindAll, ih]

/-! ## Parts -/

mutual

/-- A datum with all the data that it is made of. -/
def parts : Datum β → List (Datum β)
  | .list items => .list items :: partsAll items
  | d => [d]

/-- The parts of the items of a list. -/
def partsAll : List (Datum β) → List (Datum β)
  | [] => []
  | item :: rest => parts item ++ partsAll rest

end

/-! ## Kinds and text -/

/-- The word for the kind of a datum. -/
def kindName : Datum β → String
  | .empty => "empty"
  | .bool _ => "bool"
  | .int _ => "int"
  | .float _ => "float"
  | .text _ => "string"
  | .list _ => "list"
  | .box _ => "boxed"

/-- Numbers are written in full, without exponent, and whole ones without a fraction. -/
def numberFormat : NumberFormat := ⟨fun _ => true, false, false, .up⟩

mutual

/-- The text of a datum without boxes; the empty datum has none. -/
def render : Tree → String
  | .empty => ""
  | .bool b => if b then "true" else "false"
  | .int i => toString i.toInt
  | .float x => numberFormat.write x
  | .text s => Text.quote s
  | .list items => "[" ++ ", ".intercalate (renderAll items) ++ "]"

/-- The texts of the items of a list. -/
def renderAll : List Tree → List String
  | [] => []
  | item :: rest => render item :: renderAll rest

end

end Datum

end Deliberation
