import Deliberation.Matching.Binding

/-!
# Matching a query against a candidate

The exact match asks for the same nesting of arguments and annotations on both
sides and compares arguments place by place, without going into nested literals.
The structural match goes into nested literals, lets a variable stand for any
term that does not mention it, and allows the candidate further annotations.
`bind` tries the exact match first.

The program does not come back from a chain of variables that leads round in a circle
of slots, nor from two boxes that it has to open for ever.  The structural match finds
no match there.  The exact match reads such a chain as `Term.resolve` does, and what it
gives for one stands for no result of the program.
-/

namespace Deliberation

namespace Match

/-! ## Exact match -/

/-- Match one argument: a variable is bound, anything else must be equal. -/
def exactTerm (s : Store) (position : Nat) (query candidate : Term) (b : BindingSet) :
    Option BindingSet :=
  match query with
  | .var x => b.bind s x.name candidate [position]
  | ground => if (ground.resolve s).equal s.heap (candidate.resolve s) then some b else none

/-- Match arguments in turn, each at the position after the one before it. -/
def exactArguments (s : Store) :
    Nat → List Term → List Term → BindingSet → Option BindingSet
  | position, q :: qs, c :: cs, b =>
      (exactTerm s position q c b).bind (exactArguments s (position + 1) qs cs)
  | _, _, _, b => some b

/-- Match the arguments of one annotation, all at the same position. -/
def exactAt (s : Store) (position : Nat) :
    List Term → List Term → BindingSet → Option BindingSet
  | q :: qs, c :: cs, b =>
      (exactTerm s position q c b).bind (exactAt s position qs cs)
  | _, _, b => some b

/-- Match annotations in turn; functor and arity must agree. -/
def exactAnnotations (s : Store) :
    Nat → List Literal → List Literal → BindingSet → Option BindingSet
  | position, q :: qs, c :: cs, b =>
      if q.functor = c.functor && q.arity = c.arity then
        (exactAt s position q.arguments c.arguments b).bind
          (exactAnnotations s (position + 1) qs cs)
      else none
  | _, _, _, b => some b

/-- Whether two literals have the same negation flag and the same nesting. -/
def sameOutline (query candidate : Literal) : Bool :=
  query.negated = candidate.negated && query.arity = candidate.arity &&
    query.argumentShapes = candidate.argumentShapes &&
    query.annotationShapes = candidate.annotationShapes

/-- The match of literals with the same nesting, place by place.  The functor is not compared. -/
def exact (s : Store) (query candidate : Literal) : Option BindingSet :=
  if sameOutline query candidate then
    (exactArguments s 0 query.arguments candidate.arguments .empty).bind
      (exactAnnotations s query.arity query.annotations candidate.annotations)
  else none

/-! ## Structural match -/

/--
Whether a variable can stand for a resolved term: the term does not mention the
variable, and resolving it has come to an end.
-/
def bindable (s : Store) (name : Path) (t : Term) : Bool :=
  !t.leadsOn s && !t.mentions name

/-- Whether the heads of two literals allow a structural match. -/
def sameHead (query candidate : Literal) : Bool :=
  query.negated = candidate.negated && query.functor = candidate.functor &&
    query.arity = candidate.arity &&
    query.annotations.length ≤ candidate.annotations.length

mutual

/-- Match a literal: head, arguments and annotations in turn. -/
def structuralLiteral (s : Store) (position : List Nat) :
    Literal → Literal → BindingSet → Option BindingSet
  | ⟨functor, arguments, annotations, negated, marked⟩, candidate, b =>
      if sameHead ⟨functor, arguments, annotations, negated, marked⟩ candidate then
        (structuralArguments s position 0 arguments candidate.arguments b).bind
          (structuralAnnotations s position arguments.length annotations candidate.annotations)
      else none
termination_by structural query => query

/-- Match one argument against the resolved term in its place. -/
def structuralTerm (s : Store) (position : List Nat) :
    Term → Term → BindingSet → Option BindingSet
  | .var x, candidate, b =>
      let candidate := candidate.resolve s
      if bindable s x.name candidate then b.bind s x.name candidate position else none
  | .lit query, candidate, b =>
      match candidate.resolve s with
      | .lit candidate => structuralLiteral s position query candidate b
      | _ => none
  | .raw v, candidate, b =>
      match candidate.resolve s with
      | .raw w => if s.heap.equal v w then some b else none
      | _ => none
termination_by structural query => query

/-- Match arguments in turn, each at the index after the one before it. -/
def structuralArguments (s : Store) (position : List Nat) :
    Nat → List Term → List Term → BindingSet → Option BindingSet
  | index, q :: qs, c :: cs, b =>
      (structuralTerm s (position ++ [index]) q c b).bind
        (structuralArguments s position (index + 1) qs cs)
  | _, _, _, b => some b
termination_by structural _ queries => queries

/-- Match annotations in turn, each at the index after the one before it. -/
def structuralAnnotations (s : Store) (position : List Nat) :
    Nat → List Literal → List Literal → BindingSet → Option BindingSet
  | index, q :: qs, c :: cs, b =>
      (structuralLiteral s (position ++ [index]) q c b).bind
        (structuralAnnotations s position (index + 1) qs cs)
  | _, _, _, b => some b
termination_by structural _ queries => queries

end

/-- The match that goes into nested literals. -/
def structural (s : Store) (query candidate : Literal) : Option BindingSet :=
  structuralLiteral s [] query candidate .empty

/-- The exact match, or else the structural one. -/
def bind (s : Store) (query candidate : Literal) : Option BindingSet :=
  match exact s query candidate with
  | some b => some b
  | none => structural s query candidate

end Match

end Deliberation
