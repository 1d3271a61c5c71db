import Deliberation.Table
import Deliberation.Term.Identity
import Deliberation.Term.Store

/-!
# The graph of belief views

Beliefs are kept in named views.  A view holds literals, listed in buckets by
negation flag and name, and child views by name.  A literal is kept without the
path of its view and gets it back when it is read, so that a view keeps its
content under whatever parent it hangs.

Views are nodes of a graph and known by handles.  A view may hang below several
parents; it never hangs below itself, because `hang` refuses to close a cycle.
Hence on any way down no view comes twice, and the number of views bounds how
deep a way can be.
-/

namespace Deliberation

/-- The handle of a view. -/
abbrev ViewId := Nat

/-- Where a literal is kept inside its view. -/
structure Bucket where
  negated : Bool
  name : String
deriving DecidableEq

/-- Positive literals come first, then names decide. -/
instance : Ord Bucket where
  compare a b :=
    match a.negated, b.negated with
    | false, true => .lt
    | true, false => .gt
    | _, _ => compare a.name b.name

instance : Std.LawfulEqOrd Bucket where
  compare_self {a} := by
    obtain ⟨negated, name⟩ := a
    have hname : compare name name = .eq := Std.compare_eq_iff_eq.2 rfl
    cases negated <;> exact hname
  eq_of_compare {a b} h := by
    obtain ⟨anegated, aname⟩ := a
    obtain ⟨bnegated, bname⟩ := b
    cases anegated <;> cases bnegated
    · have hname : compare aname bname = .eq := h
      rw [Std.compare_eq_iff_eq.1 hname]
    · cases h
    · cases h
    · have hname : compare aname bname = .eq := h
      rw [Std.compare_eq_iff_eq.1 hname]

/-- A node of the graph. -/
structure View where
  name : String
  children : Table String ViewId := {}
  buckets : Table Bucket (List Literal) := {}

/-- All views that were ever made. -/
structure BeliefGraph where
  views : Array View := #[]

/--
A way to make the view that is missing under a name below the path walked so
far.  It may add views to the graph and gives back the handle of the new one.
-/
abbrev ViewGenerator := BeliefGraph → String → Path → BeliefGraph × ViewId

namespace BeliefGraph

def size (g : BeliefGraph) : Nat := g.views.size

/-- The view with a handle. -/
def view (g : BeliefGraph) (v : ViewId) : View := g.views.getD v { name := "" }

/-- A new view without content. -/
def create (g : BeliefGraph) (name : String) : BeliefGraph × ViewId :=
  (⟨g.views.push { name }⟩, g.views.size)

/-- Change one view. -/
def update (g : BeliefGraph) (v : ViewId) (f : View → View) : BeliefGraph :=
  ⟨g.views.modify v f⟩

@[simp] theorem size_create (g : BeliefGraph) (name : String) :
    (g.create name).1.size = g.size + 1 := by
  simp [size, create]

@[simp] theorem size_update (g : BeliefGraph) (v : ViewId) (f : View → View) :
    (g.update v f).size = g.size := by
  simp [size, update]

/-- Changing a view leaves all others as they are. -/
theorem view_update (g : BeliefGraph) (v w : ViewId) (f : View → View) (hv : v < g.size) :
    (g.update v f).view w = if v = w then f (g.view w) else g.view w := by
  have hv' : v < g.views.size := hv
  by_cases hw : v = w
  · subst hw
    simp [view, update, Array.getD_eq_getD_getElem?, Array.getElem_modify, hv']
  · simp [view, update, Array.getD_eq_getD_getElem?, Array.getElem?_modify, hw]

/-- Hang a view below another one. -/
def attach (g : BeliefGraph) (parent : ViewId) (name : String) (child : ViewId) : BeliefGraph :=
  g.update parent fun view => { view with children := view.children.insert name child }

/-- Take the child with a name out of a view. -/
def detach (g : BeliefGraph) (parent : ViewId) (name : String) : BeliefGraph :=
  g.update parent fun view => { view with children := view.children.erase name }

/-- The handle of the root of a graph that was made by `rooted`. -/
def root : ViewId := 0

/-- A graph with an unnamed root. -/
def rooted : BeliefGraph := (BeliefGraph.create {} "").1

/-- The generator of views without content. -/
def blank : ViewGenerator := fun g name _ => g.create name

/-! ## Walking down -/

/--
Follow segments downward from a view.  A missing view is made by the generator;
without one it is an error that names the path up to it.
-/
def descendFrom (generator : Option ViewGenerator) :
    List String → Path → BeliefGraph → ViewId → Except BeliefError (BeliefGraph × ViewId)
  | [], _, g, v => .ok (g, v)
  | head :: rest, walked, g, v =>
      match (g.view v).children.get? head with
      | some child => descendFrom generator rest (walked.push head) g child
      | none =>
          match generator with
          | none => .error (.viewNotFound (walked.push head).text)
          | some generate =>
              let (g, child) := generate g head walked
              descendFrom generator rest (walked.push head) (g.attach v head child) child

/-- Follow a path downward from a view. -/
def descend (g : BeliefGraph) (v : ViewId) (path : Path) (generator : Option ViewGenerator) :
    Except BeliefError (BeliefGraph × ViewId) :=
  descendFrom generator path.segments .empty g v

/-- The view at the end of a path, if all the views on the way exist. -/
def locate? (g : BeliefGraph) (v : ViewId) (path : Path) : Option ViewId :=
  match g.descend v path none with
  | .ok (_, target) => some target
  | .error _ => none

/-- Whether a view is another one or lies at most `n` steps above it. -/
def reachesTo (g : BeliefGraph) (target : ViewId) : Nat → ViewId → Bool
  | 0, v => v == target
  | n + 1, v => v == target || (g.view v).children.values.any (reachesTo g target n)

/-- Whether a view is another one or lies above it. -/
def reaches (g : BeliefGraph) (v target : ViewId) : Bool :=
  g.reachesTo target g.size v

/-! ## Changes -/

/-- The bucket that a stored literal belongs to. -/
def bucketOf (stored : Literal) : Bucket := ⟨stored.negated, stored.functor.name⟩

/-- The literals of a bucket. -/
def held (g : BeliefGraph) (v : ViewId) (bucket : Bucket) : List Literal :=
  ((g.view v).buckets.get? bucket).getD []

/-- Replace the literals of a bucket; a bucket without literals is dropped. -/
def setHeld (g : BeliefGraph) (v : ViewId) (bucket : Bucket) (literals : List Literal) :
    BeliefGraph :=
  g.update v fun view =>
    { view with
      buckets :=
        if literals.isEmpty then view.buckets.erase bucket
        else view.buckets.insert bucket literals }

/--
Add a literal to the view that its functor names, unless an equal one is there.
Tells whether it was added.
-/
def add (heap : Heap) (g : BeliefGraph) (v : ViewId) (l : Literal)
    (generator : Option ViewGenerator) : Except BeliefError (Bool × BeliefGraph) := do
  let stored := l.inView
  let bucket := bucketOf stored
  let (g, target) ← g.descend v l.functor.view generator
  let literals := g.held target bucket
  if literals.any fun other => other.equal heap stored then
    pure (false, g)
  else
    pure (true, g.setHeld target bucket (literals ++ [stored]))

/-- Remove all literals equal to the given one from its view.  Tells whether there were any. -/
def remove (heap : Heap) (g : BeliefGraph) (v : ViewId) (l : Literal) : Bool × BeliefGraph :=
  let stored := l.inView
  let bucket := bucketOf stored
  match g.locate? v l.functor.view with
  | none => (false, g)
  | some target =>
      let literals := g.held target bucket
      let kept := literals.filter fun other => !other.equal heap stored
      if kept.length = literals.length then (false, g)
      else (true, g.setHeld target bucket kept)

/-- Take the view at a path out of its parent.  Tells whether there was one. -/
def removeView (g : BeliefGraph) (v : ViewId) (path : Path) : Bool × BeliefGraph :=
  if path.isEmpty then (false, g)
  else
    match g.locate? v path.parent with
    | none => (false, g)
    | some parent =>
        if (g.view parent).children.contains path.last then (true, g.detach parent path.last)
        else (false, g)

/--
Hang an existing view below the view at a path.  Both owners see the same
content.  Views that were made on the way down stay even when this fails.
-/
def hang (g : BeliefGraph) (v : ViewId) (parent : Path) (child : ViewId)
    (generator : Option ViewGenerator) : Except BeliefError Unit × BeliefGraph :=
  let name := (g.view child).name
  if name = "" then (.error .emptyPath, g)
  else
    match g.descend v parent generator with
    | .error e => (.error e, g)
    | .ok (g, target) =>
        if g.reaches child target then (.error (.cyclicAlias name parent.text), g)
        else if (g.view target).children.contains name then
          (.error (.viewExists name parent.text), g)
        else (.ok (), g.attach target name child)

/-! ## Copies -/

/-- Operations on a graph and on the store that its literals live in. -/
abbrev Copying := StateM (BeliefGraph × Store)

/-- Copy a literal into the store. -/
def copyLiteral (l : Literal) : Copying Literal :=
  modifyGet fun (g, s) =>
    let (l, s) := l.copy s
    (l, (g, s))

/-- Copy a view with all below it, at most `n` steps down. -/
def copyTo : Nat → ViewId → Copying ViewId
  | 0, v => pure v
  | n + 1, v => do
      let view := (← get).1.view v
      let children ← view.children.entries.mapM fun (name, child) => do
        let copied ← copyTo n child
        pure (name, copied)
      let buckets ← view.buckets.entries.mapM fun (bucket, literals) => do
        let copied ← literals.mapM copyLiteral
        pure (bucket, copied)
      modifyGet fun (g, s) =>
        (g.size, (⟨g.views.push ⟨view.name, ⟨children⟩, ⟨buckets⟩⟩⟩, s))

/-- Copy a view with all below it; the copy shares neither views, boxes nor slots. -/
def copy (v : ViewId) : Copying ViewId := do
  copyTo (← get).1.size v

/-- Hang a copy of a view below the view at a path. -/
def addCopy (v : ViewId) (parent : Path) (child : ViewId) (generator : Option ViewGenerator) :
    Copying (Except BeliefError Unit) := do
  let child ← copy child
  modifyGet fun (g, s) =>
    let (result, g) := g.hang v parent child generator
    (result, (g, s))

end BeliefGraph

end Deliberation
