import Deliberation.Proofs.Belief.Acyclic

/-!
# Graphs side by side

A second graph is put beside a first one by raising its handles above those of the
first.  Every change and every read of its views is then what it is without the
first graph.  So a view that is made from a document does not depend on the graph
in which it is made.
-/

namespace Deliberation

/-- The view with the handles of its children raised. -/
def View.raise (n : Nat) (node : View) : View :=
  { node with children := node.children.mapValues (n + ·) }

namespace BeliefGraph

/-- The views of two graphs, those of the second above those of the first. -/
def beside (g h : BeliefGraph) : BeliefGraph := ⟨g.views ++ h.views.map (View.raise g.size)⟩

variable (g h : BeliefGraph)

@[simp] theorem size_beside : (g.beside h).size = g.size + h.size := by
  simp [beside, size]

theorem beside_empty : g.beside {} = g := by
  simp [beside]

theorem view_beside (v : ViewId) : (g.beside h).view (g.size + v) = (h.view v).raise g.size := by
  have hview : (g.beside h).views[g.size + v]? = (h.views[v]?).map (View.raise g.size) := by
    have hle : g.views.size ≤ g.size + v := Nat.le_add_right _ _
    rw [beside, Array.getElem?_append_right hle, Array.getElem?_map]
    exact congrArg (fun i => (h.views[i]?).map _) (Nat.add_sub_cancel_left g.size v)
  rw [view, view, Array.getD_eq_getD_getElem?, Array.getD_eq_getD_getElem?, hview]
  cases h.views[v]? <;> rfl

theorem view_beside_of_lt {v : ViewId} (hv : v < g.size) : (g.beside h).view v = g.view v := by
  rw [view, view, Array.getD_eq_getD_getElem?, Array.getD_eq_getD_getElem?, beside,
    Array.getElem?_append_left hv]

/-! ## Changes -/

theorem create_beside (name : String) :
    (g.beside h).create name = (g.beside (h.create name).1, g.size + h.size) := by
  refine Prod.ext ?_ (size_beside g h)
  simp only [create, beside, Array.map_push, Array.append_push]
  rfl

theorem update_beside (v : ViewId) {f f' : View → View}
    (hf : ∀ node, f' (node.raise g.size) = (f node).raise g.size) :
    (g.beside h).update (g.size + v) f' = g.beside (h.update v f) := by
  unfold update beside
  congr 1
  refine Array.ext_getElem? fun i => ?_
  rw [Array.getElem?_modify]
  by_cases hi : i < g.views.size
  · have hne : g.size + v ≠ i := by
      rintro rfl
      exact absurd hi (Nat.not_lt_of_le (Nat.le_add_right _ _))
    rw [if_neg hne, Array.getElem?_append_left hi, Array.getElem?_append_left hi]
  · have hle := Nat.le_of_not_lt hi
    rw [Array.getElem?_append_right hle, Array.getElem?_append_right hle, Array.getElem?_map,
      Array.getElem?_map, Array.getElem?_modify]
    have hplace : g.size + v = i ↔ v = i - g.views.size :=
      eq_comm.trans ((Nat.sub_eq_iff_eq_add' hle).symm.trans eq_comm)
    rw [if_congr hplace rfl rfl]
    split
    · rw [Option.map_map, Option.map_map]
      exact congrArg (fun change => (h.views[i - g.views.size]?).map change) (funext hf)
    · rfl

theorem attach_beside (v : ViewId) (name : String) (child : ViewId) :
    (g.beside h).attach (g.size + v) name (g.size + child) = g.beside (h.attach v name child) := by
  refine g.update_beside h v fun node => ?_
  unfold View.raise
  dsimp only
  rw [Table.insert_mapValues]

theorem setHeld_beside (v : ViewId) (bucket : Bucket) (literals : List Literal) :
    (g.beside h).setHeld (g.size + v) bucket literals = g.beside (h.setHeld v bucket literals) :=
  g.update_beside h v fun _ => rfl

/-! ## Reads -/

theorem held_beside (v : ViewId) (bucket : Bucket) :
    (g.beside h).held (g.size + v) bucket = h.held v bucket := by
  rw [held, held, view_beside]
  rfl

theorem child?_beside (v : ViewId) (name : String) :
    (g.beside h).child? (g.size + v) name = (h.child? v name).map (g.size + ·) := by
  rw [child?, child?, view_beside]
  exact Table.get?_mapValues _ _ _

theorem childAt?_beside (v : ViewId) (way : List String) :
    (g.beside h).childAt? (g.size + v) way = (h.childAt? v way).map (g.size + ·) := by
  induction way generalizing v with
  | nil => rfl
  | cons name rest ih =>
      rw [childAt?_cons, childAt?_cons, child?_beside]
      cases h.child? v name with
      | none => rfl
      | some child => exact ih child

theorem literalsTo_beside (n : Nat) (path : Path) (v : ViewId) :
    (g.beside h).literalsTo n path (g.size + v) = h.literalsTo n path v := by
  induction n generalizing path v with
  | zero => rfl
  | succ n ih =>
      rw [literalsTo, literalsTo, view_beside]
      unfold View.raise Table.mapValues
      dsimp only
      rw [List.flatMap_map]
      exact congrArg _ (List.flatMap_congr fun entry _ => ih _ entry.2)

theorem viewsTo_beside (n : Nat) (path : Path) (v : ViewId) :
    (g.beside h).viewsTo n path (g.size + v) =
      (h.viewsTo n path v).map fun entry => (entry.1, g.size + entry.2) := by
  induction n generalizing path v with
  | zero => rfl
  | succ n ih =>
      rw [viewsTo, viewsTo, view_beside]
      unfold View.raise Table.mapValues
      dsimp only
      rw [List.flatMap_map, List.map_flatMap]
      refine List.flatMap_congr fun entry _ => ?_
      dsimp only
      rw [ih, List.map_append]
      rfl

theorem containsLiteral_beside (heap : Heap) (v : ViewId) (l : Literal) :
    (g.beside h).containsLiteral heap (g.size + v) l = h.containsLiteral heap v l := by
  rw [containsLiteral, containsLiteral, locate?_eq_childAt?, locate?_eq_childAt?, childAt?_beside]
  cases h.childAt? v l.functor.view.segments with
  | none => rfl
  | some target =>
      rw [Option.map_some]
      dsimp only
      rw [held_beside]

section Sound

variable {h} (hsound : h.Sound) {v : ViewId} (hv : v < h.size)

include hsound hv

theorem literals_beside : (g.beside h).literals (g.size + v) = h.literals v := by
  have hlisting : (g.beside h).literalsFrom .empty (g.size + v) = h.literalsFrom .empty v := by
    rw [literalsFrom, literalsTo_beside, size_beside]
    exact hsound.literalsTo_eq hv (Nat.le_add_left _ _) .empty
  rw [literals, literals, hlisting]

theorem viewsBelow_beside :
    (g.beside h).viewsBelow (g.size + v) = (h.viewsBelow v).mapValues (g.size + ·) := by
  rw [viewsBelow, viewsBelow, viewsTo_beside, size_beside,
    hsound.viewsTo_eq hv (Nat.le_add_left _ _) .empty, Table.mapValues_ofList]

end Sound

/-! ## Views from documents -/

theorem descendFrom_beside (way : List String) (walked : Path) (v : ViewId) :
    descendFrom (some blank) way walked (g.beside h) (g.size + v) =
      (descendFrom (some blank) way walked h v).map
        fun found => (g.beside found.1, g.size + found.2) := by
  induction way generalizing walked h v with
  | nil => rfl
  | cons name rest ih =>
      have hchild := g.child?_beside h v name
      unfold child? at hchild
      unfold descendFrom
      rw [hchild]
      cases (h.view v).children.get? name with
      | some child => exact ih h _ child
      | none =>
          dsimp only [Option.map_none, blank]
          rw [create_beside]
          dsimp only
          rw [attach_beside]
          exact ih _ _ h.size

theorem add_beside (heap : Heap) (v : ViewId) (l : Literal) :
    (g.beside h).add heap (g.size + v) l (some blank) =
      (h.add heap v l (some blank)).map fun result => (result.1, g.beside result.2) := by
  have hwalk := g.descendFrom_beside h l.functor.view.segments .empty v
  unfold add descend
  rw [hwalk]
  cases descendFrom (some blank) l.functor.view.segments .empty h v with
  | error e => rfl
  | ok found =>
      dsimp only [Except.map, bind, Except.bind]
      rw [held_beside, setHeld_beside]
      split <;> rfl

theorem addLeaf_beside (v : ViewId) (key : String) (leaf : Document) :
    (g.beside h).addLeaf (g.size + v) key leaf = g.beside (h.addLeaf v key leaf) := by
  unfold addLeaf
  cases Literal.build (Path.parse key) (leafArguments leaf) [] false false with
  | error e => rfl
  | ok l =>
      dsimp only
      rw [add_beside]
      cases h.add .empty v l (some blank) <;> rfl

theorem addEntries_beside (v : ViewId) (entries : List (String × Document)) :
    (g.beside h).addEntries (g.size + v) entries = g.beside (h.addEntries v entries) := by
  fun_induction addEntries h v entries with
  | case1 h v => rw [addEntries]
  | case2 h v key entries rest made child hcreate ihInside ihRest =>
      obtain ⟨rfl, rfl⟩ := Prod.mk.inj hcreate
      rw [addEntries, create_beside]
      have hfilled := (congrArg (attach · (g.size + v) key (g.size + h.size)) ihInside).trans
        (attach_beside ..)
      exact (congrArg (addEntries · (g.size + v) rest) hfilled).trans ihRest
  | case3 h v key leaf rest hleaf ih =>
      rw [addEntries.eq_3 _ _ _ _ _ hleaf, addLeaf_beside, ih]

/-- A view from a document is the same in every graph, with other handles. -/
theorem ofDocument_eq_beside (name : String) (d : Document) :
    g.ofDocument name d = (g.beside (({} : BeliefGraph).ofDocument name d).1, g.size) := by
  have hcreate : g.create name = (g.beside (({} : BeliefGraph).create name).1, g.size + root) := by
    conv_lhs => rw [← g.beside_empty]
    exact g.create_beside {} name
  cases d with
  | object entries =>
      rw [ofDocument, ofDocument, hcreate]
      dsimp only
      rw [addEntries_beside]
      rfl
  | _ =>
      rw [ofDocument, ofDocument, ofLeaf, ofLeaf, hcreate]
      dsimp only
      rw [addLeaf_beside]
      rfl

end BeliefGraph

end Deliberation
