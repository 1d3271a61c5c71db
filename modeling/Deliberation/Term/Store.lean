import Deliberation.Term.Basic

/-!
# The store

The store holds what copies of terms share: the contents of the boxes and of
the slots of mutex variables.  A slot holds at most one term.

Following a variable to its value is structural for cells that own their value;
only a slot leads back into the store.  Where no slot leads back to itself, none
comes twice on a way, and the number of slots bounds how often one has to be followed.

Nothing keeps a slot from being bound to its own variable.  The program does not come
back then from resolving, copying or rendering what leads there, and what the functions
here give once their bound is met stands for no result of the program.  `Term.resolve`
agrees with the program where the chain of bound variables has an end, and a copy and a
text do where no slot that is reached leads back to itself.  Results on copies ask for
this, and results on resolving speak of the end of the chain.
-/

namespace Deliberation

/-- The contents of boxes and slots. -/
structure Store where
  heap : Heap := {}
  slots : Array (Option Term) := #[]

namespace Store

def empty : Store := {}

/-- The content of a slot. -/
def readSlot (s : Store) (i : SlotId) : Option Term := s.slots.getD i none

theorem readSlot_of_size_le {s : Store} {i : SlotId} (hi : s.slots.size ≤ i) :
    s.readSlot i = none := by
  simp [readSlot, Array.getD_eq_getD_getElem?, hi]

/-- Open a new slot. -/
def allocSlot (s : Store) (content : Option Term) : Store × SlotId :=
  ({ s with slots := s.slots.push content }, s.slots.size)

/-- Fill a slot. -/
def writeSlot (s : Store) (i : SlotId) (t : Term) : Store :=
  { s with slots := s.slots.setIfInBounds i (some t) }

theorem readSlot_writeSlot {s : Store} {i : SlotId} (hi : i < s.slots.size) (t : Term)
    (j : SlotId) : (s.writeSlot i t).readSlot j = if i = j then some t else s.readSlot j := by
  by_cases hj : i = j
  · subst hj
    simp [readSlot, writeSlot, Array.getD_eq_getD_getElem?, hi]
  · simp [readSlot, writeSlot, Array.getD_eq_getD_getElem?, hj]

theorem readSlot_writeSlot_of_ne {s : Store} {i j : SlotId} (t : Term) (h : i ≠ j) :
    (s.writeSlot i t).readSlot j = s.readSlot j := by
  simp [readSlot, writeSlot, Array.getD_eq_getD_getElem?, h]

/-- A slot that was not opened cannot be filled. -/
theorem writeSlot_of_size_le {s : Store} {i : SlotId} (hi : s.slots.size ≤ i) (t : Term) :
    s.writeSlot i t = s := by
  rw [writeSlot, Array.setIfInBounds_eq_of_size_le hi]

/-- Run an operation on the heap inside a store. -/
def onHeap {α : Type} (operation : StateM Heap α) : StateM Store α :=
  modifyGet fun s =>
    let (result, heap) := operation s.heap
    (result, { s with heap })

end Store

/-! ## Variables -/

namespace Variable

/-- The term that a variable is bound to. -/
def value? (s : Store) (x : Variable) : Option Term :=
  match x.cell with
  | .free value => value
  | .constant value => some value
  | .mutex slot => s.readSlot slot
  | .relocate _ value => value

def isBound (s : Store) (x : Variable) : Bool := (x.value? s).isSome

/-- The bound term, or an error that names the variable. -/
def value (s : Store) (x : Variable) : Except TermError Term :=
  match x.value? s with
  | some t => .ok t
  | none => .error (.unboundVariable x.name.text)

/-- Bind a variable.  Only a constant refuses. -/
def set (s : Store) (x : Variable) (t : Term) : Except TermError (Store × Variable) :=
  match x.cell with
  | .free _ => .ok (s, { x with cell := .free (some t) })
  | .constant _ => .error (.constantRebind x.name.text)
  | .mutex slot => .ok (s.writeSlot slot t, x)
  | .relocate target _ => .ok (s, { x with cell := .relocate target (some t) })

/-- A new mutex variable with a slot of its own. -/
def mutex (name : Path) (content : Option Term) : StateM Store Variable := do
  let slot ← modifyGet fun s => (s.allocSlot content).swap
  pure ⟨name, .mutex slot⟩

/--
A variable with the same name and kind and nothing bound.  A constant keeps its
value, and a mutex variable gets a slot of its own.
-/
def unboundCopy (x : Variable) : StateM Store Variable :=
  match x.cell with
  | .free _ => pure { x with cell := .free none }
  | .constant _ => pure x
  | .mutex _ => mutex x.name none
  | .relocate target _ => pure { x with cell := .relocate target none }

end Variable

/-! ## Resolving -/

mutual

/-- Follow bound variables, reading slots through `slot`. -/
def Term.resolveWith (slot : SlotId → Option Term) : Term → Term
  | .raw v => .raw v
  | .lit l => .lit l
  | .var ⟨name, cell⟩ => (cell.resolveWith slot).getD (.var ⟨name, cell⟩)

/-- The resolved content of a cell, if it is bound. -/
def Cell.resolveWith (slot : SlotId → Option Term) : Cell → Option Term
  | .free (some t) => some (t.resolveWith slot)
  | .free none => none
  | .constant t => some (t.resolveWith slot)
  | .mutex i => slot i
  | .relocate _ (some t) => some (t.resolveWith slot)
  | .relocate _ none => none

end

/-- Follow bound variables through at most `n` slots. -/
def Term.resolveTo (s : Store) : Nat → Term → Term
  | 0 => Term.resolveWith fun _ => none
  | n + 1 => Term.resolveWith fun i => (s.readSlot i).map (Term.resolveTo s n)

/--
The term at the end of a chain of bound variables; anything else stays as it is.  A
chain that leads round in a circle has no end, and what is given for it is a variable
that is bound.
-/
def Term.resolve (s : Store) (t : Term) : Term :=
  t.resolveTo s s.slots.size

/--
Whether a term is a variable that is bound.  What a term resolves to is so only
where slots lead round in a circle.
-/
def Term.leadsOn (s : Store) : Term → Bool
  | .var x => x.isBound s
  | _ => false

/-- The raw value that a term stands for. -/
def Term.rawValue (s : Store) (t : Term) : Except TermError Value :=
  match t.resolve s with
  | .raw v => .ok v
  | .var x => .error (.unboundVariable x.name.text)
  | .lit _ => .error (.typeMismatch "raw value" "literal")

/-! ## Copies -/

mutual

/-- Copy a term with all it holds, copying the contents of slots with `slot`. -/
def Term.copyWith (slot : SlotId → StateM Store (Option Term)) : Term → StateM Store Term
  | .raw v => do
      let v ← Store.onHeap (Heap.copy v)
      pure (.raw v)
  | .var x => do
      let x ← x.copyWith slot
      pure (.var x)
  | .lit l => do
      let l ← l.copyWith slot
      pure (.lit l)

/-- Copy a literal with all it holds, arguments before annotations. -/
def Literal.copyWith (slot : SlotId → StateM Store (Option Term)) :
    Literal → StateM Store Literal
  | ⟨functor, arguments, annotations, negated, marked⟩ => do
      let arguments ← Term.copyAllWith slot arguments
      let annotations ← Literal.copyAllWith slot annotations
      pure ⟨functor, arguments, annotations, negated, marked⟩

/-- Copy a variable with its binding; a mutex variable gets a slot of its own. -/
def Variable.copyWith (slot : SlotId → StateM Store (Option Term)) :
    Variable → StateM Store Variable
  | ⟨name, cell⟩ => do
      let cell ← cell.copyWith slot
      pure ⟨name, cell⟩

/-- Copy a cell with its content. -/
def Cell.copyWith (slot : SlotId → StateM Store (Option Term)) : Cell → StateM Store Cell
  | .free none => pure (.free none)
  | .free (some t) => do
      let t ← t.copyWith slot
      pure (.free (some t))
  | .constant t => do
      let t ← t.copyWith slot
      pure (.constant t)
  | .mutex i => do
      let content ← slot i
      let fresh ← modifyGet fun s => (s.allocSlot content).swap
      pure (.mutex fresh)
  | .relocate target none => pure (.relocate target none)
  | .relocate target (some t) => do
      let t ← t.copyWith slot
      pure (.relocate target (some t))

/-- Copy a list of terms. -/
def Term.copyAllWith (slot : SlotId → StateM Store (Option Term)) :
    List Term → StateM Store (List Term)
  | [] => pure []
  | t :: rest => do
      let t ← t.copyWith slot
      let rest ← Term.copyAllWith slot rest
      pure (t :: rest)

/-- Copy a list of literals. -/
def Literal.copyAllWith (slot : SlotId → StateM Store (Option Term)) :
    List Literal → StateM Store (List Literal)
  | [] => pure []
  | l :: rest => do
      let l ← l.copyWith slot
      let rest ← Literal.copyAllWith slot rest
      pure (l :: rest)

end

/--
Copy the content of a slot, following at most `n` slots on any way.  The copy is that
of the program where `n` is not less than there are slots on the longest way; a slot
that leads back to itself has no such way.
-/
def Store.copySlot : Nat → SlotId → StateM Store (Option Term)
  | 0, _ => pure none
  | n + 1, i => do
      match (← get).readSlot i with
      | none => pure none
      | some t => do
          let t ← t.copyWith (Store.copySlot n)
          pure (some t)

/-- A term that shares neither box nor slot with the given one. -/
def Term.copy (t : Term) : StateM Store Term := do
  t.copyWith (Store.copySlot (← get).slots.size)

/-- A variable that shares neither box nor slot with the given one. -/
def Variable.copy (x : Variable) : StateM Store Variable := do
  x.copyWith (Store.copySlot (← get).slots.size)

/-- A literal that shares neither box nor slot with the given one. -/
def Literal.copy (l : Literal) : StateM Store Literal := do
  l.copyWith (Store.copySlot (← get).slots.size)

/-! ## Text -/

mutual

/-- The text of a term, with the texts of slots given by `slot`. -/
def Term.renderWith (heap : Heap) (slot : SlotId → Option String) : Term → String
  | .raw v => heap.render v
  | .var x => x.renderWith heap slot
  | .lit l => l.renderWith heap slot

/-- The text of a literal: marks, functor, arguments in parentheses, annotations in brackets. -/
def Literal.renderWith (heap : Heap) (slot : SlotId → Option String) : Literal → String
  | ⟨functor, arguments, annotations, negated, marked⟩ =>
      (if negated then "~" else "") ++ (if marked then "@" else "") ++ functor.text ++
        (if arguments.isEmpty then ""
          else "(" ++ ", ".intercalate (Term.renderAllWith heap slot arguments) ++ ")") ++
        (if annotations.isEmpty then ""
          else "[" ++ ", ".intercalate (Literal.renderAllWith heap slot annotations) ++ "]")

/-- The name of a variable, with its value in parentheses when it is bound. -/
def Variable.renderWith (heap : Heap) (slot : SlotId → Option String) : Variable → String
  | ⟨name, cell⟩ =>
      match cell.renderWith heap slot with
      | some content => name.text ++ "(" ++ content ++ ")"
      | none => name.text

/-- The text of the content of a cell, if it is bound. -/
def Cell.renderWith (heap : Heap) (slot : SlotId → Option String) : Cell → Option String
  | .free none => none
  | .free (some t) => some (t.renderWith heap slot)
  | .constant t => some (t.renderWith heap slot)
  | .mutex i => slot i
  | .relocate _ none => none
  | .relocate _ (some t) => some (t.renderWith heap slot)

/-- The texts of a list of terms. -/
def Term.renderAllWith (heap : Heap) (slot : SlotId → Option String) : List Term → List String
  | [] => []
  | t :: rest => t.renderWith heap slot :: Term.renderAllWith heap slot rest

/-- The texts of a list of literals. -/
def Literal.renderAllWith (heap : Heap) (slot : SlotId → Option String) :
    List Literal → List String
  | [] => []
  | l :: rest => l.renderWith heap slot :: Literal.renderAllWith heap slot rest

end

/--
The text of the content of a slot, following at most `n` slots on any way.  As with
copies, a slot that leads back to itself has no text in the program.
-/
def Store.renderSlot (s : Store) : Nat → SlotId → Option String
  | 0, _ => none
  | n + 1, i => (s.readSlot i).map (Term.renderWith s.heap (Store.renderSlot s n))

/-- The text of a term. -/
def Term.render (s : Store) (t : Term) : String :=
  t.renderWith s.heap (s.renderSlot s.slots.size)

/-- The text of a variable. -/
def Variable.render (s : Store) (x : Variable) : String :=
  x.renderWith s.heap (s.renderSlot s.slots.size)

/-- The text of a literal. -/
def Literal.render (s : Store) (l : Literal) : String :=
  l.renderWith s.heap (s.renderSlot s.slots.size)

end Deliberation
