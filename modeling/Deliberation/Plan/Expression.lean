import Deliberation.Fuzzy
import Deliberation.Term.Context

/-!
# Expressions

Expressions compute values from constants and the variables of a context.
Integers are computed in sixty-four bits and wrap around; as soon as one side is
a number both are taken as numbers.  Integers are ordered as integers, but
equality of integers and numbers is equality of the numbers nearest to them.
-/

namespace Deliberation

inductive UnaryOp where
  | not
  | negate
deriving DecidableEq

inductive BinaryOp where
  | add
  | subtract
  | multiply
  | divide
  | modulo
  | power
  | equal
  | notEqual
  | less
  | lessEqual
  | greater
  | greaterEqual
  | and
  | or
  | xor
deriving DecidableEq

/-- An expression whose constants have boxes marked by `β`. -/
inductive ExpressionOf (β : Type) where
  | constant (value : Datum β)
  | var (name : Path)
  | unary (op : UnaryOp) (operand : ExpressionOf β)
  | binary (op : BinaryOp) (left right : ExpressionOf β)
deriving DecidableEq

/-- An expression with live values as constants. -/
abbrev Expression := ExpressionOf BoxId

namespace ExpressionOf

variable {β γ : Type}

/-- Put a datum in the place of every box in the constants. -/
def bindBoxes (f : β → Datum γ) : ExpressionOf β → ExpressionOf γ
  | .constant value => .constant (value.bind f)
  | .var name => .var name
  | .unary op operand => .unary op (bindBoxes f operand)
  | .binary op left right => .binary op (bindBoxes f left) (bindBoxes f right)

/-- The names of the variables met from left to right. -/
def occurrences : ExpressionOf β → List Path
  | .constant _ => []
  | .var name => [name]
  | .unary _ operand => operand.occurrences
  | .binary _ left right => left.occurrences ++ right.occurrences

/-- The names of the variables, each once, in the order of first appearance. -/
def vars (e : ExpressionOf β) : List Path :=
  e.occurrences.foldl
    (fun found name => if found.contains name then found else found ++ [name]) []

end ExpressionOf

namespace Expression

/-! ## Operators -/

/-- A power of integers by repeated squaring, wrapping around. -/
def powInt (base : Int64) (exponent : Nat) : Int64 :=
  if exponent = 0 then 1
  else
    let half := powInt base (exponent / 2)
    if exponent % 2 = 0 then half * half else half * half * base
termination_by exponent

/--
Arithmetic on integers.  A power is an integer only for an exponent of at least
zero that fits in thirty-two bits.
-/
def integer (op : BinaryOp) (a b : Int64) : Except ExecutionError Value :=
  match op with
  | .add => .ok (.int (a + b))
  | .subtract => .ok (.int (a - b))
  | .multiply => .ok (.int (a * b))
  | .divide => if b = 0 then .error .divisionByZero else .ok (.int (a / b))
  | .modulo => if b = 0 then .error .divisionByZero else .ok (.int (a % b))
  | _ =>
      if 0 ≤ b.toInt && b.toInt < 0x100000000 then .ok (.int (powInt a b.toInt.toNat))
      else .ok (.float ((Binary64.ofInt a.toInt).pow (Binary64.ofInt b.toInt)))

/-- Arithmetic on numbers. -/
def numeric (op : BinaryOp) (a b : Binary64) : Except ExecutionError Value :=
  match op with
  | .add => .ok (.float (a.add b))
  | .subtract => .ok (.float (a.sub b))
  | .multiply => .ok (.float (a.mul b))
  | .divide => if b.isZero then .error .divisionByZero else .ok (.float (a.div b))
  | .modulo => if b.isZero then .error .divisionByZero else .ok (.float (a.rem b))
  | _ => .ok (.float (a.pow b))

/-- Arithmetic on values; texts can be added. -/
def arithmetic (h : Heap) (op : BinaryOp) (left right : Value) : Except ExecutionError Value :=
  match op, left, right with
  | .add, .text a, .text b => .ok (.text (a ++ b))
  | op, .int a, .int b => integer op a b
  | op, left, right => do
      let a ← (h.asNumber left).mapError .term
      let b ← (h.asNumber right).mapError .term
      numeric op a b

/-- Equality of values: numbers and integers by the nearest number, all else by content. -/
def equal (h : Heap) (left right : Value) : Bool :=
  match h.asNumber left, h.asNumber right with
  | .ok a, .ok b => a.numEq b
  | _, _ => h.equal left right

/-- The order of two values: integers, texts, or else numbers. -/
def order (h : Heap) (left right : Value) : Except ExecutionError Ordering :=
  match left, right with
  | .int a, .int b => .ok (compare a.toInt b.toInt)
  | .text a, .text b => .ok (compare a b)
  | left, right => do
      let a ← (h.asNumber left).mapError .term
      let b ← (h.asNumber right).mapError .term
      match a.compare? b with
      | some o => .ok o
      | none => .error (.term (.typeMismatch "comparable number" "NaN"))

/-- A truth value for an order. -/
def orderTest (h : Heap) (test : Ordering → Bool) (left right : Value) :
    Except ExecutionError Value := do
  let o ← order h left right
  pure (.bool (test o))

/-- A connective of truth values; the right one is not asked for when `short` says so. -/
def connective (h : Heap) (short : Bool → Bool) (f : Bool → Bool → Bool) (left right : Value) :
    Except ExecutionError Value := do
  let a ← (h.asBool left).mapError .term
  if short a then pure (.bool a)
  else
    let b ← (h.asBool right).mapError .term
    pure (.bool (f a b))

/-- Apply a unary operator. -/
def applyUnary (h : Heap) (op : UnaryOp) (v : Value) : Except ExecutionError Value :=
  match op, v with
  | .not, v => do
      let b ← (h.asBool v).mapError .term
      pure (.bool (!b))
  | .negate, .int i => .ok (.int (-i))
  | .negate, v => do
      let x ← (h.asNumber v).mapError .term
      pure (.float x.neg)

/-- Apply a binary operator to two values. -/
def applyBinary (h : Heap) (op : BinaryOp) (left right : Value) : Except ExecutionError Value :=
  match op with
  | .equal => .ok (.bool (equal h left right))
  | .notEqual => .ok (.bool (!equal h left right))
  | .less => orderTest h Ordering.isLT left right
  | .lessEqual => orderTest h Ordering.isLE left right
  | .greater => orderTest h Ordering.isGT left right
  | .greaterEqual => orderTest h Ordering.isGE left right
  | .and => connective h not and left right
  | .or => connective h id or left right
  | .xor => connective h (fun _ => false) xor left right
  | op => arithmetic h op left right

/-- The result that a left operand decides alone. -/
def decided (op : BinaryOp) (left : Value) : Option Value :=
  match op, left with
  | .and, .bool false => some (.bool false)
  | .or, .bool true => some (.bool true)
  | _, _ => none

/-! ## Evaluation -/

/-- The value of an expression in a context; it is never a box. -/
def evaluate (s : Store) (c : Context) : Expression → Except ExecutionError Value
  | .constant v => .ok (s.heap.snapshot v)
  | .var name => do
      let t ← (c.value s name).mapError .term
      let v ← (t.rawValue s).mapError .term
      pure (s.heap.snapshot v)
  | .unary op operand => do
      let v ← evaluate s c operand
      applyUnary s.heap op v
  | .binary op left right => do
      let a ← evaluate s c left
      match decided op a with
      | some v => pure v
      | none => do
          let b ← evaluate s c right
          applyBinary s.heap op a b

/-- The value of an expression as a certain truth value. -/
def evaluateFuzzy (s : Store) (c : Context) (e : Expression) :
    Except ExecutionError (Fuzzy Bool) := do
  let v ← evaluate s c e
  let b ← (s.heap.asBool v).mapError .term
  pure (.certain b)

end Expression

end Deliberation
