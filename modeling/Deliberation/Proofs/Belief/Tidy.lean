import Deliberation.Proofs.Belief.Documents
import Deliberation.Proofs.Belief.Reads

/-!
# The tables of document views

Views from documents are made of new views by hanging views and by adding literals
without a path.  What these keep is a property of every view: that its tables are
ordered for all documents, and that the view is in good order for documents
without an empty key.  In a graph with ordered tables a literal is listed with the
path of its view, from which names that are empty are left out.
-/

namespace Deliberation

/-- An empty name adds nothing to a path. -/
theorem Path.push_append_ofSegments (p : Path) (segment : String) (rest : List String) :
    p.push segment ++ ofSegments rest = p ++ ofSegments (segment :: rest) := by
  unfold push ofSegments
  by_cases hsegment : segment = ""
  · rw [if_pos hsegment, List.filter_cons_of_neg (by simpa using hsegment)]
  · rw [if_neg hsegment, List.filter_cons_of_pos (by simpa using hsegment)]
    exact congrArg Path.mk (List.append_assoc p.segments [segment] _)

/-- The tables of a view list their keys in strict order. -/
structure View.Tidy (node : View) : Prop where
  children : node.children.Sorted
  buckets : node.buckets.Sorted

/-- A property of views that the steps from a document to its view keep, for names with another. -/
structure View.Kept (P : View → Prop) (Q : String → Prop) : Prop where
  segment : ∀ {name}, Path.IsSegment name → Q name
  fresh : ∀ name, P { name }
  child : ∀ {node : View} {name}, P node → Q name → ∀ child,
    P { node with children := node.children.insert name child }
  literal : ∀ {node : View} {name}, P node → Path.IsSegment name → ∀ content,
    P { node with
      buckets := node.buckets.insert ⟨false, name⟩
        ((node.buckets.get? ⟨false, name⟩).getD [] ++
          [BeliefGraph.leafLiteral ⟨.empty, name⟩ content]) }

theorem View.kept_tidy : Kept Tidy fun _ => True where
  segment := fun _ => trivial
  fresh := fun _ => ⟨Table.sorted_empty, Table.sorted_empty⟩
  child := fun h _ _ => ⟨h.children.insert _ _, h.buckets⟩
  literal := fun h _ _ => ⟨h.children, h.buckets.insert _ _⟩

theorem View.kept_orderly : Kept Orderly (· ≠ "") where
  segment := fun h => h.1
  fresh := orderly_new
  child := fun h hname child => h.insertChild hname child
  literal := by
    intro node name h hname content
    refine h.insertBucket hname.1 fun l hl => ?_
    rcases List.mem_append.1 hl with hold | hnew
    · cases hget : node.buckets.get? ⟨false, name⟩ with
      | none =>
          rw [hget] at hold
          cases hold
      | some literals =>
          rw [hget] at hold
          exact (h.filed _ (Table.mem_entries_of_get? hget)).2 l hold
    · rw [List.mem_singleton.1 hnew]
      exact ⟨rfl, rfl⟩

namespace BeliefGraph

/-! ## What the steps keep -/

/-- All views of a graph have a property. -/
def Every (P : View → Prop) (g : BeliefGraph) : Prop := ∀ v, P (g.view v)

section Kept

variable {P : View → Prop} {Q : String → Prop} (hkept : View.Kept P Q) {g : BeliefGraph}
  (h : g.Every P)

theorem Every.update {P : View → Prop} {g : BeliefGraph} (h : g.Every P) {v : ViewId}
    {f : View → View} (hf : P (f (g.view v))) : (g.update v f).Every P := by
  intro w
  by_cases hv : v < g.size
  · rw [view_update g v w f hv]
    split
    · next hw => exact hw ▸ hf
    · exact h w
  · have hsame : (g.update v f).view w = g.view w := by
      have hnone : g.views[v]? = none := Array.getElem?_eq_none (Nat.le_of_not_lt hv)
      rw [view, view, BeliefGraph.update, Array.getD_eq_getD_getElem?, Array.getD_eq_getD_getElem?,
        Array.getElem?_modify]
      split
      · next hw => rw [← hw, hnone]; rfl
      · rfl
    rw [hsame]
    exact h w

include hkept h

theorem Every.create (name : String) : (g.create name).1.Every P := by
  intro v
  by_cases hv : v = g.size
  · rw [hv, view_create_self]
    exact hkept.fresh name
  · rw [view_create_ne g name hv]
    exact h v

theorem Every.descendFrom {way : List String} (hway : ∀ name ∈ way, Q name) {walked : Path}
    {v target : ViewId} {after : BeliefGraph}
    (hdescend : BeliefGraph.descendFrom (some blank) way walked g v = .ok (after, target)) :
    after.Every P := by
  induction way generalizing walked g v with
  | nil =>
      cases hdescend
      exact h
  | cons name rest ih =>
      have hrest := fun other hmem => hway other (List.mem_cons_of_mem name hmem)
      unfold BeliefGraph.descendFrom at hdescend
      cases hchild : (g.view v).children.get? name with
      | some child =>
          rw [hchild] at hdescend
          exact ih h hrest hdescend
      | none =>
          rw [hchild] at hdescend
          have hmade := h.create hkept name
          exact ih (hmade.update (hkept.child (hmade v) (hway name List.mem_cons_self) _)) hrest
            hdescend

theorem Every.add {key : String} {f : Symbol} (hkey : Symbol.ofPath? (Path.parse key) = some f)
    (content : Document) {heap : Heap} {v : ViewId} {added : Bool} {after : BeliefGraph}
    (hadd : g.add heap v (leafLiteral f content) (some blank) = .ok (added, after)) :
    after.Every P := by
  have hname := Symbol.isSegment_name hkey
  have hview : ∀ name ∈ f.view.segments, Q name := fun name hmem =>
    hkept.segment (Symbol.isSegment_of_mem_view hkey hmem)
  cases hdescend : g.descend v f.view (some blank) with
  | error e =>
      unfold BeliefGraph.add at hadd
      rw [show (leafLiteral f content).functor = f from rfl, hdescend] at hadd
      cases hadd
  | ok found =>
      obtain ⟨middle, target⟩ := found
      have hmiddle := h.descendFrom hkept hview hdescend
      rw [add_of_descend hdescend, inView_leafLiteral hname] at hadd
      dsimp only at hadd
      split at hadd
      · cases hadd
        exact hmiddle
      · cases hadd
        have hnode := hkept.literal (hmiddle target) hname content
        refine hmiddle.update ?_
        rw [if_neg (by simp)]
        exact hnode

theorem Every.addLeaf (v : ViewId) (key : String) (content : Document) :
    (g.addLeaf v key content).Every P := by
  cases hkey : Symbol.ofPath? (Path.parse key) with
  | none =>
      rw [addLeaf_of_none hkey]
      exact h
  | some f =>
      rw [addLeaf_of_some hkey]
      split
      · next hadd => exact h.add hkept hkey content hadd
      · exact h

theorem Every.addEntries (v : ViewId) {entries : List (String × Document)}
    (hordered : (Document.object entries).Ordered) (hkeyed : (Document.object entries).Keyed Q) :
    (g.addEntries v entries).Every P := by
  induction entries using Document.entries_induction generalizing g v with
  | nil =>
      rw [addEntries_nil]
      exact h
  | leaf key content rest hleaf ih =>
      rw [addEntries_cons_leaf hleaf]
      exact ih (h.addLeaf hkept v key content) v hordered.rest (hkeyed.rest hordered.sorted)
  | object key inner rest ihInside ihRest =>
      have hkey : Q key := hkeyed [] _ rfl _ List.mem_cons_self
      have hinside := ihInside (h.create hkept key) (g.create key).2 hordered.first hkeyed.first
      rw [addEntries_cons_object]
      refine ihRest ?_ v hordered.rest (hkeyed.rest hordered.sorted)
      exact hinside.update (hkept.child (hinside v) hkey _)

end Kept

/-- A view that is made from an object has the properties that the steps keep, and so have all. -/
theorem every_alone {P : View → Prop} {Q : String → Prop} (hkept : View.Kept P Q)
    (name : String) {entries : List (String × Document)}
    (hordered : (Document.object entries).Ordered) (hkeyed : (Document.object entries).Keyed Q) :
    (alone name entries).Every P := by
  have hempty : ({} : BeliefGraph).Every P := fun _ => hkept.fresh ""
  rw [alone_eq]
  exact (hempty.create hkept name).addEntries hkept _ hordered hkeyed

/-! ## What is listed -/

/-- A literal is listed where it is kept, below the path of its view without empty names. -/
theorem mem_literalsTo {g : BeliefGraph} (htidy : g.Every View.Tidy) (hsound : g.Sound) {n : Nat}
    {v : ViewId} (hn : g.rank v < n) (path : Path) (l : Literal) :
    l ∈ g.literalsTo n path v ↔ ∃ way target, g.childAt? v way = some target ∧
      ∃ bucket, ∃ kept ∈ g.held target bucket, l = kept.under (path ++ .ofSegments way) := by
  induction n generalizing v path with
  | zero => exact absurd hn (Nat.not_lt_zero _)
  | succ n ih =>
      have hbelow : ∀ {name child}, g.child? v name = some child → g.rank child < n :=
        fun hchild => Nat.lt_of_lt_of_le (hsound.rank_lt (child_of_child? hchild))
          (Nat.le_of_lt_succ hn)
      rw [literalsTo, List.mem_append, List.mem_flatMap, List.mem_flatMap]
      constructor
      · rintro (⟨literals, hliterals, hl⟩ | ⟨⟨name, child⟩, hentry, hl⟩)
        · obtain ⟨⟨bucket, _⟩, hbucket, rfl⟩ := List.mem_map.1 hliterals
          obtain ⟨kept, hkept, rfl⟩ := List.mem_map.1 hl
          refine ⟨[], v, rfl, bucket, kept, ?_, congrArg (Literal.under · kept) ?_⟩
          · rw [held, (htidy v).buckets.get?_of_mem hbucket]
            exact hkept
          · exact (Path.append_empty path).symm
        · have hchild : g.child? v name = some child := (htidy v).children.get?_of_mem hentry
          obtain ⟨way, target, hway, bucket, kept, hkept, rfl⟩ := (ih (hbelow hchild) _).1 hl
          refine ⟨name :: way, target, ?_, bucket, kept, hkept, ?_⟩
          · rw [childAt?_cons, hchild]
            exact hway
          · rw [Path.push_append_ofSegments]
      · rintro ⟨way, target, hway, bucket, kept, hkept, rfl⟩
        cases way with
        | nil =>
            cases hway
            left
            cases hget : (g.view v).buckets.get? bucket with
            | none =>
                rw [held, hget] at hkept
                cases hkept
            | some literals =>
                rw [held, hget] at hkept
                refine ⟨literals, List.mem_map_of_mem (Table.mem_entries_of_get? hget), ?_⟩
                refine List.mem_map.2 ⟨kept, hkept, congrArg (Literal.under · kept) ?_⟩
                exact (Path.append_empty path).symm
        | cons name way =>
            rw [childAt?_cons] at hway
            obtain ⟨child, hchild, hway⟩ := Option.bind_eq_some_iff.1 hway
            refine Or.inr ⟨(name, child), Table.mem_entries_of_get? hchild, ?_⟩
            refine (ih (hbelow hchild) _).2 ⟨way, target, hway, bucket, kept, hkept, ?_⟩
            rw [Path.push_append_ofSegments]

/-- What is listed from the root are the literals of all buckets. -/
theorem mem_literalsFrom_root {g : BeliefGraph} (htidy : g.Every View.Tidy) (hsound : g.Sound)
    (hroot : root < g.size) (l : Literal) :
    l ∈ g.literalsFrom .empty root ↔
      ∃ way bucket, ∃ kept ∈ g.heldAt way bucket, l = kept.under (.ofSegments way) := by
  rw [literalsFrom, mem_literalsTo htidy hsound (hsound.rank_lt_size hroot)]
  constructor
  · rintro ⟨way, target, hway, bucket, kept, hkept, rfl⟩
    exact ⟨way, bucket, kept, heldAt_of_childAt? hway bucket ▸ hkept, rfl⟩
  · rintro ⟨way, bucket, kept, hkept, rfl⟩
    cases hway : g.childAt? root way with
    | none =>
        rw [heldAt_of_none hway] at hkept
        cases hkept
    | some target =>
        rw [heldAt_of_childAt? hway] at hkept
        exact ⟨way, target, hway, bucket, kept, hkept, rfl⟩

end BeliefGraph

end Deliberation
