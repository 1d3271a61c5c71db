import Deliberation.Term.Context
import Deliberation.Term.Identity

/-!
# Binding sets

A binding set is what a successful match of a query against a candidate leaves:
for each variable of the query the term that it stands for, and where in the
query it was met first.
-/

namespace Deliberation

/-- One bound variable of a query. -/
structure Binding where
  name : Path
  value : Term
  /-- The positions that lead from the query to the variable; annotations count on from the
  arguments. -/
  position : List Nat

/-- Bindings of different variables in the order in which they were made. -/
structure BindingSet where
  bindings : List Binding := []

namespace BindingSet

def empty : BindingSet := {}

def size (b : BindingSet) : Nat := b.bindings.length

def isEmpty (b : BindingSet) : Bool := b.bindings.isEmpty

/-- The term bound to a name. -/
def get? (b : BindingSet) (name : Path) : Option Term :=
  (b.bindings.find? fun binding => binding.name = name).map Binding.value

/--
Bind a name to the term that a candidate has in its place.  A name that is
bound already must stand for an equal term, else there is no match.
-/
def bind (s : Store) (b : BindingSet) (name : Path) (t : Term) (position : List Nat) :
    Option BindingSet :=
  let t := t.resolve s
  match b.get? name with
  | some known => if (known.resolve s).equal s.heap t then some b else none
  | none => some ⟨b.bindings ++ [⟨name, t, position⟩]⟩

/-- The names with their terms. -/
def pairs (b : BindingSet) : List (Path × Term) :=
  b.bindings.map fun binding => (binding.name, binding.value)

/-- Write all bindings to a context. -/
def apply (b : BindingSet) : Context.Writing Unit :=
  Context.bindAll b.pairs

end BindingSet

end Deliberation
