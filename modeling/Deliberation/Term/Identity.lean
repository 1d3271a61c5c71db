import Deliberation.Term.Basic

/-!
# Identity and structure of terms

Literals are told apart by keys.  The identity key of a literal covers functor,
flags and arguments, with variables by name and boxes by their places only, so
that it outlives any change of a box; annotations are not part of it.  The
structure key covers functor text, negation and the nesting of arguments, with
raw values and variables alike as holes.

Equality compares identity keys first and then the live contents of the
arguments.
-/

namespace Deliberation

/-- What a term contributes to the identity of the literal around it. -/
inductive IdentityKey where
  | value (outline : Outline)
  | var (name : Path)
  | literal (functor : Symbol) (negated marked : Bool) (arguments : List IdentityKey)

namespace IdentityKey

mutual

/-- Whether two keys agree. -/
def same : IdentityKey → IdentityKey → Bool
  | .value a, .value b => decide (a = b)
  | .var a, .var b => decide (a = b)
  | .literal f n m as, .literal g o p bs =>
      decide (f = g) && decide (n = o) && decide (m = p) && sameAll as bs
  | _, _ => false

/-- Whether two lists of keys agree. -/
def sameAll : List IdentityKey → List IdentityKey → Bool
  | [], [] => true
  | a :: as, b :: bs => same a b && sameAll as bs
  | _, _ => false

end

mutual

theorem same_iff : ∀ a b : IdentityKey, same a b = true ↔ a = b
  | .value _, b => by cases b <;> simp [same]
  | .var _, b => by cases b <;> simp [same]
  | .literal _ _ _ as, b => by cases b <;> simp [same, sameAll_iff as, and_assoc]

theorem sameAll_iff : ∀ as bs : List IdentityKey, sameAll as bs = true ↔ as = bs
  | [], bs => by cases bs <;> simp [sameAll]
  | a :: as, bs => by cases bs <;> simp [sameAll, same_iff a, sameAll_iff as]

end

instance : DecidableEq IdentityKey := fun a b => decidable_of_iff _ (same_iff a b)

end IdentityKey

mutual

/-- The identity key of a term inside a literal. -/
def Term.identity : Term → IdentityKey
  | .raw v => .value v.outline
  | .var x => .var x.name
  | .lit l => l.identity

/-- The identity key of a literal. -/
def Literal.identity : Literal → IdentityKey
  | ⟨functor, arguments, _, negated, marked⟩ =>
      .literal functor negated marked (Term.identityAll arguments)

/-- The identity keys of a list of terms. -/
def Term.identityAll : List Term → List IdentityKey
  | [] => []
  | t :: rest => t.identity :: Term.identityAll rest

end

/-! ## Keys of terms outside literals -/

/-- What tells two terms apart: raw values count by their content. -/
inductive TermKey where
  | value (tree : Tree)
  | var (name : Path)
  | literal (key : IdentityKey)
deriving DecidableEq

/-- The key of a term that stands on its own. -/
def Term.key (heap : Heap) : Term → TermKey
  | .raw v => .value (heap.unbox v)
  | .var x => .var x.name
  | .lit l => .literal l.identity

/-! ## Structure -/

/-- The shape of a term. -/
inductive StructureKey where
  | hole
  | literal (functor : String) (negated : Bool) (arguments : List StructureKey)

namespace StructureKey

mutual

/-- Whether two shapes agree. -/
def same : StructureKey → StructureKey → Bool
  | .hole, .hole => true
  | .literal f n as, .literal g o bs => decide (f = g) && decide (n = o) && sameAll as bs
  | _, _ => false

/-- Whether two lists of shapes agree. -/
def sameAll : List StructureKey → List StructureKey → Bool
  | [], [] => true
  | a :: as, b :: bs => same a b && sameAll as bs
  | _, _ => false

end

mutual

theorem same_iff : ∀ a b : StructureKey, same a b = true ↔ a = b
  | .hole, b => by cases b <;> simp [same]
  | .literal _ _ as, b => by cases b <;> simp [same, sameAll_iff as, and_assoc]

theorem sameAll_iff : ∀ as bs : List StructureKey, sameAll as bs = true ↔ as = bs
  | [], bs => by cases bs <;> simp [sameAll]
  | a :: as, bs => by cases bs <;> simp [sameAll, same_iff a, sameAll_iff as]

end

instance : DecidableEq StructureKey := fun a b => decidable_of_iff _ (same_iff a b)

end StructureKey

mutual

/-- The shape of a term. -/
def Term.shape : Term → StructureKey
  | .raw _ => .hole
  | .var _ => .hole
  | .lit l => l.shape

/-- The shape of a literal. -/
def Literal.shape : Literal → StructureKey
  | ⟨functor, arguments, _, negated, _⟩ =>
      .literal functor.text negated (Term.shapeAll arguments)

/-- The shapes of a list of terms. -/
def Term.shapeAll : List Term → List StructureKey
  | [] => []
  | t :: rest => t.shape :: Term.shapeAll rest

end

/-- The shapes of the arguments of a literal. -/
def Literal.argumentShapes (l : Literal) : List StructureKey := Term.shapeAll l.arguments

/-- The shapes of the annotations of a literal. -/
def Literal.annotationShapes (l : Literal) : List StructureKey := l.annotations.map Literal.shape

/-! ## Equality -/

mutual

/-- Whether two terms are equal: values by content, variables by name. -/
def Term.equal (heap : Heap) : Term → Term → Bool
  | .raw v, .raw w => heap.equal v w
  | .var x, .var y => decide (x.name = y.name)
  | .lit l, .lit m => l.equal heap m
  | _, _ => false

/-- Whether two literals are equal: by identity, and by the content of their arguments. -/
def Literal.equal (heap : Heap) : Literal → Literal → Bool
  | ⟨functor, arguments, annotations, negated, marked⟩, m =>
      decide ((Literal.mk functor arguments annotations negated marked).identity = m.identity) &&
        Term.equalAll heap arguments m.arguments

/-- Whether two lists of terms are equal item by item. -/
def Term.equalAll (heap : Heap) : List Term → List Term → Bool
  | [], [] => true
  | t :: ts, u :: us => t.equal heap u && Term.equalAll heap ts us
  | _, _ => false

end

end Deliberation
