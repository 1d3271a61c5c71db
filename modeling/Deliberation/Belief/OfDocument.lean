import Deliberation.Belief.Graph
import Deliberation.Document.Basic

/-!
# Views from documents

An object becomes a view: its objects become child views under their keys, its
arrays literals with one argument for each item, and its scalars literals with
one argument.  The key of an array or scalar is read as a functor path, so it
may lead into a view below; a key without any segment is passed over.  Any other
document becomes a view with its content under the name `value`.
-/

namespace Deliberation

namespace BeliefGraph

/-- The arguments of the literal for an array or a scalar. -/
def leafArguments : Document → List Term
  | .array items => items.map fun item => .raw item.toDatum
  | scalar => [.raw scalar.toDatum]

/-- Add the literal for an array or a scalar; a document holds no boxes. -/
def addLeaf (g : BeliefGraph) (v : ViewId) (key : String) (leaf : Document) : BeliefGraph :=
  match Literal.build (Path.parse key) (leafArguments leaf) [] false false with
  | .error _ => g
  | .ok literal =>
      match g.add .empty v literal (some blank) with
      | .ok (_, g) => g
      | .error _ => g

mutual

/-- A new view for a document. -/
def ofDocument (g : BeliefGraph) (name : String) : Document → BeliefGraph × ViewId
  | .object entries =>
      let (g, v) := g.create name
      (addEntries g v entries, v)
  | .null => ofLeaf g name .null
  | .bool b => ofLeaf g name (.bool b)
  | .int i => ofLeaf g name (.int i)
  | .float x => ofLeaf g name (.float x)
  | .text s => ofLeaf g name (.text s)
  | .array items => ofLeaf g name (.array items)

/-- A new view that holds one array or scalar. -/
def ofLeaf (g : BeliefGraph) (name : String) (leaf : Document) : BeliefGraph × ViewId :=
  let (g, v) := g.create name
  (g.addLeaf v "value" leaf, v)

/-- Add the entries of an object to a view in turn. -/
def addEntries (g : BeliefGraph) (v : ViewId) : List (String × Document) → BeliefGraph
  | [] => g
  | (key, .object entries) :: rest =>
      let (g, child) := g.create key
      addEntries ((addEntries g child entries).attach v key child) v rest
  | (key, leaf) :: rest => addEntries (g.addLeaf v key leaf) v rest

end

/--
The generator that makes a missing view from the part of a document that the
path of the view leads to, and a view without content when it leads nowhere.
-/
def fromDocument (document : Document) : ViewGenerator := fun g name parent =>
  match document.walk? (parent.push name).segments with
  | some part => g.ofDocument name part
  | none => g.create name

end BeliefGraph

end Deliberation
