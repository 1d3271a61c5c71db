import Deliberation.Belief.Graph

/-!
# Reading beliefs

Literals are read with their full functor, the path from the view where the
reading starts.  Within a view the buckets come in order, positive ones first,
and then the children in the order of their names.
-/

namespace Deliberation

namespace BeliefGraph

/-- Whether an equal literal is held in the view that the functor names. -/
def containsLiteral (heap : Heap) (g : BeliefGraph) (v : ViewId) (l : Literal) : Bool :=
  let stored := l.inView
  match g.locate? v l.functor.view with
  | none => false
  | some target =>
      (g.held target (bucketOf stored)).any fun other => other.equal heap stored

/-- Whether there is a view at a path. -/
def containsView (g : BeliefGraph) (v : ViewId) (path : Path) : Bool :=
  (g.locate? v path).isSome

/-- The view reached by going from child to child. -/
def childAt? (g : BeliefGraph) : ViewId → List String → Option ViewId
  | v, [] => some v
  | v, head :: rest =>
      match (g.view v).children.get? head with
      | some child => childAt? g child rest
      | none => none

/-- The view below another one at a path; the empty path leads to none. -/
def below? (g : BeliefGraph) (v : ViewId) (path : Path) : Option ViewId :=
  if path.isEmpty then none else g.childAt? v path.segments

/-- The literals with a negation flag and a functor, in the order in which they were added. -/
def matching (g : BeliefGraph) (v : ViewId) (negated : Bool) (functor : Path) : List Literal :=
  match g.locate? v functor.parent with
  | none => []
  | some target => (g.held target ⟨negated, functor.last⟩).map (Literal.under functor.parent)

/-- The literals at most `n - 1` steps below a view, with the path of the view before them. -/
def literalsTo (g : BeliefGraph) : Nat → Path → ViewId → List Literal
  | 0, _, _ => []
  | n + 1, path, v =>
      (g.view v).buckets.values.flatMap (List.map (Literal.under path)) ++
        (g.view v).children.entries.flatMap fun (name, child) =>
          literalsTo g n (path.push name) child

/-- All the literals in a view and below it. -/
def literalsFrom (g : BeliefGraph) (path : Path) (v : ViewId) : List Literal :=
  g.literalsTo g.size path v

/--
Every literal at or below a path.  A path that ends in a functor gives the
literals with this functor, after those of a view with the same name.
-/
def literalsAt (g : BeliefGraph) (v : ViewId) (path : Path) : List Literal :=
  if path.isEmpty then g.literalsFrom path v
  else
    let inside := match g.below? v path with
      | some view => g.literalsFrom path view
      | none => []
    inside ++ g.matching v false path ++ g.matching v true path

/-- Append a literal to the ones with its functor. -/
def fileLiteral (table : Table Path (List Literal)) (l : Literal) : Table Path (List Literal) :=
  table.insert l.functor.path ((table.get? l.functor.path).getD [] ++ [l])

/-- All literals by functor. -/
def literals (g : BeliefGraph) (v : ViewId) : Table Path (List Literal) :=
  (g.literalsFrom .empty v).foldl fileLiteral {}

/--
The views at most `n` steps below a view, each with its path.  A view is listed
after those below it.
-/
def viewsTo (g : BeliefGraph) : Nat → Path → ViewId → List (Path × ViewId)
  | 0, _, _ => []
  | n + 1, path, v =>
      (g.view v).children.entries.flatMap fun (name, child) =>
        viewsTo g n (path.push name) child ++ [(path.push name, child)]

/-- All views below a view by path. -/
def viewsBelow (g : BeliefGraph) (v : ViewId) : Table Path ViewId :=
  Table.ofList (g.viewsTo g.size .empty v)

/-- The number of literals at most `n - 1` steps below a view. -/
def countTo (g : BeliefGraph) : Nat → ViewId → Nat
  | 0, _ => 0
  | n + 1, v =>
      ((g.view v).buckets.values.map List.length).sum +
        ((g.view v).children.values.map (countTo g n)).sum

/-- The number of literals in a view and below it. -/
def count (g : BeliefGraph) (v : ViewId) : Nat := g.countTo g.size v

end BeliefGraph

end Deliberation
