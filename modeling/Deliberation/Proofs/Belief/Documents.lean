import Deliberation.Proofs.Document.Survival

/-!
# What the view of a document holds

The entries of an object are added in turn.  An array or a scalar becomes a literal
in the view that its key leads to, and the views on the way are opened.  An object
becomes a view under its key as it stands.  In the end the view holds the literals
of the entries that stay, each of them once, and has a view for each object and for
each step of a way to such a literal.
-/

namespace Deliberation

namespace BeliefGraph

/-! ## Adding entries -/

/-- What a tree has become when the literal for an array or a scalar was added to its root. -/
structure LeafAdded (g : BeliefGraph) (key : String) (content : Document) (after : BeliefGraph) :
    Prop where
  tree : after.LeafTree
  views : ∀ way, (after.childAt? root way).isSome ↔ (g.childAt? root way).isSome ∨
    ∃ f, Symbol.ofPath? (Path.parse key) = some f ∧ way <+: f.view.segments
  held : ∀ way bucket l, l ∈ after.heldAt way bucket ↔ l ∈ g.heldAt way bucket ∨
    ∃ f, Symbol.ofPath? (Path.parse key) = some f ∧ way = f.view.segments ∧
      bucket = ⟨false, f.name⟩ ∧ l = leafLiteral ⟨.empty, f.name⟩ content

theorem inView_leafLiteral {f : Symbol} (hname : Path.IsSegment f.name) (content : Document) :
    (leafLiteral f content).inView = leafLiteral ⟨.empty, f.name⟩ content :=
  Literal.inView_of_isSegment hname

theorem addLeaf_of_none {key : String} (hkey : Symbol.ofPath? (Path.parse key) = none)
    (g : BeliefGraph) (v : ViewId) (content : Document) : g.addLeaf v key content = g := by
  unfold addLeaf
  rw [Literal.build, hkey]

theorem addLeaf_of_some {key : String} {f : Symbol}
    (hkey : Symbol.ofPath? (Path.parse key) = some f) (g : BeliefGraph) (v : ViewId)
    (content : Document) :
    g.addLeaf v key content =
      match g.add .empty v (leafLiteral f content) (some blank) with
      | .ok (_, after) => after
      | .error _ => g := by
  unfold addLeaf
  rw [Literal.build, hkey]
  rfl

theorem ofDocument_object (g : BeliefGraph) (name : String) (entries : List (String × Document)) :
    g.ofDocument name (.object entries) =
      ((g.create name).1.addEntries (g.create name).2 entries, (g.create name).2) := by
  rw [ofDocument]

theorem addEntries_nil (g : BeliefGraph) (v : ViewId) : g.addEntries v [] = g := by
  rw [addEntries]

theorem addEntries_cons_object (g : BeliefGraph) (v : ViewId) (key : String)
    (inner rest : List (String × Document)) :
    g.addEntries v ((key, .object inner) :: rest) =
      (((g.create key).1.addEntries (g.create key).2 inner).attach v key
        (g.create key).2).addEntries v rest := by
  rw [addEntries]

/-- The view of an object, the root of a graph of its own. -/
def alone (name : String) (entries : List (String × Document)) : BeliefGraph :=
  (({} : BeliefGraph).ofDocument name (.object entries)).1

theorem alone_eq (name : String) (entries : List (String × Document)) :
    alone name entries = (({} : BeliefGraph).create name).1.addEntries root entries := by
  rw [alone, ofDocument_object]
  rfl

theorem addEntries_cons_leaf {content : Document} (hleaf : content.isObject = false)
    (g : BeliefGraph) (v : ViewId) (key : String) (rest : List (String × Document)) :
    g.addEntries v ((key, content) :: rest) = (g.addLeaf v key content).addEntries v rest := by
  refine addEntries.eq_3 _ _ _ _ _ fun inner heq => ?_
  rw [heq] at hleaf
  cases hleaf

section Leaf

variable {g : BeliefGraph} (htree : g.LeafTree) {key : String} {f : Symbol}

include htree

/-- An equal literal that is held already is the same. -/
theorem LeafTree.contains_leafLiteral (hname : Path.IsSegment f.name) (content : Document)
    (heap : Heap) :
    g.containsLiteral heap root (leafLiteral f content) = true ↔
      leafLiteral ⟨.empty, f.name⟩ content ∈ g.heldAt f.view.segments ⟨false, f.name⟩ := by
  rw [containsLiteral_eq, inView_leafLiteral hname, List.any_eq_true]
  constructor
  · rintro ⟨other, hother, hequal⟩
    obtain ⟨-, found, rfl⟩ := htree.leaf hother
    rw [← (equal_leafLiteral heap _ _ _ _).1 hequal]
    exact hother
  · intro hheld
    exact ⟨_, hheld, (equal_leafLiteral heap _ _ _ _).2 rfl⟩

variable (hkey : Symbol.ofPath? (Path.parse key) = some f) (content : Document)

include hkey

theorem leafAdded_of_contains
    (hheld : g.containsLiteral .empty root (leafLiteral f content) = true) :
    LeafAdded g key content (g.addLeaf root key content) := by
  rw [addLeaf_of_some hkey, add_of_contains hheld]
  obtain ⟨target, htarget⟩ := childAt?_of_contains hheld
  have hmem := (htree.contains_leafLiteral (Symbol.isSegment_name hkey) content .empty).1 hheld
  refine ⟨htree, fun way => ⟨Or.inl, ?_⟩, fun way bucket l => ⟨Or.inl, ?_⟩⟩
  · rintro (hway | ⟨f', hf', hway⟩)
    · exact hway
    · obtain rfl := Option.some.inj (hkey.symm.trans hf')
      exact childAt?_of_isPrefix htarget hway
  · rintro (hl | ⟨f', hf', rfl, rfl, rfl⟩)
    · exact hl
    · obtain rfl := Option.some.inj (hkey.symm.trans hf')
      exact hmem

theorem leafAdded_of_not_contains
    (hheld : g.containsLiteral .empty root (leafLiteral f content) = false) :
    LeafAdded g key content (g.addLeaf root key content) := by
  have hname := Symbol.isSegment_name hkey
  obtain ⟨after, hadd, hadded⟩ := add_blank_of_not_contains htree.tree hheld
  rw [addLeaf_of_some hkey, hadd]
  have hat : ∀ way bucket, after.heldAt way bucket =
      if f.view.segments = way ∧ ⟨false, f.name⟩ = bucket then
        g.heldAt way bucket ++ [leafLiteral ⟨.empty, f.name⟩ content]
      else g.heldAt way bucket := by
    intro way bucket
    rw [hadded.held, inView_leafLiteral hname]
    rfl
  have hmem : ∀ way bucket l, l ∈ after.heldAt way bucket ↔ l ∈ g.heldAt way bucket ∨
      way = f.view.segments ∧ bucket = ⟨false, f.name⟩ ∧
        l = leafLiteral ⟨.empty, f.name⟩ content := by
    intro way bucket l
    rw [hat]
    split
    · next hplace =>
        obtain ⟨rfl, rfl⟩ := hplace
        simp
    · next hplace =>
        refine ⟨Or.inl, fun h => h.resolve_right ?_⟩
        rintro ⟨rfl, rfl, -⟩
        exact hplace ⟨rfl, rfl⟩
  refine ⟨⟨hadded.tree, fun {way bucket l} hl => ?_, fun way bucket => ?_⟩, fun way => ?_,
    fun way bucket l => ?_⟩
  · rcases (hmem way bucket l).1 hl with hl | ⟨-, rfl, rfl⟩
    · exact htree.leaf hl
    · exact ⟨rfl, content, rfl⟩
  · rw [hat]
    split
    · next hplace =>
        obtain ⟨rfl, rfl⟩ := hplace
        rw [← Bool.not_eq_true, htree.contains_leafLiteral hname content] at hheld
        refine List.nodup_append.2 ⟨htree.distinct _ _, List.nodup_singleton _, ?_⟩
        rintro other hother _ hnew rfl
        rw [List.mem_singleton.1 hnew] at hother
        exact hheld hother
    · exact htree.distinct _ _
  · rw [hadded.views]
    refine or_congr_right ⟨fun hway => ⟨f, hkey, hway⟩, ?_⟩
    rintro ⟨f', hf', hway⟩
    obtain rfl := Option.some.inj (hkey.symm.trans hf')
    exact hway
  · rw [hmem]
    refine or_congr_right ⟨fun hl => ⟨f, hkey, hl⟩, ?_⟩
    rintro ⟨f', hf', hl⟩
    obtain rfl := Option.some.inj (hkey.symm.trans hf')
    exact hl

end Leaf

/-- A key that is read as a functor adds the literal of its entry, any other key nothing. -/
theorem LeafTree.addLeaf {g : BeliefGraph} (htree : g.LeafTree) (key : String)
    (content : Document) : LeafAdded g key content (g.addLeaf root key content) := by
  cases hkey : Symbol.ofPath? (Path.parse key) with
  | none =>
      rw [addLeaf_of_none hkey]
      exact ⟨htree, fun way => by simp [hkey], fun way bucket l => by simp [hkey]⟩
  | some f =>
      cases hheld : g.containsLiteral .empty root (leafLiteral f content) with
      | true => exact leafAdded_of_contains htree hkey content hheld
      | false => exact leafAdded_of_not_contains htree hkey content hheld

/-! ## All entries -/

/-- What a tree has become when the entries of an object were added to its root. -/
structure Described (g : BeliefGraph) (entries : List (String × Document)) (after : BeliefGraph) :
    Prop where
  tree : after.LeafTree
  views : ∀ way, (after.childAt? root way).isSome ↔
    (g.childAt? root way).isSome ∧ ¬ Document.Covers entries way ∨
      (Document.object entries).Opens way
  held : ∀ way bucket l, l ∈ after.heldAt way bucket ↔
    l ∈ g.heldAt way bucket ∧ ¬ Document.Covers entries way ∨
      (Document.object entries).States way bucket l

/-- A tree has the views and the literals that the entries of an object ask for. -/
structure Depicts (entries : List (String × Document)) (g : BeliefGraph) : Prop where
  tree : g.LeafTree
  views : ∀ way, (g.childAt? root way).isSome ↔ (Document.object entries).Opens way
  held : ∀ way bucket l, l ∈ g.heldAt way bucket ↔ (Document.object entries).States way bucket l

theorem Described.depicts {name : String} {entries : List (String × Document)}
    {after : BeliefGraph} (h : Described (({} : BeliefGraph).create name).1 entries after) :
    Depicts entries after where
  tree := h.tree
  views way := by
    rw [h.views]
    cases way with
    | nil => exact iff_of_true (Or.inr (Document.opens_nil _)) (Document.opens_nil _)
    | cons first further =>
        refine or_iff_right fun hnew => ?_
        cases hnew.1
  held way bucket l := by
    rw [h.held]
    refine or_iff_right fun hnew => ?_
    cases way <;> cases hnew.1

/-- The view of an object is made apart and then grafted. -/
theorem addEntries_cons_object_root (g : BeliefGraph) (key : String)
    (inner rest : List (String × Document)) :
    g.addEntries root ((key, .object inner) :: rest) =
      (g.graft (alone key inner) key).addEntries root rest := by
  have hgraph : (g.create key).1.addEntries (g.create key).2 inner =
      g.beside (alone key inner) := by
    have hmade := congrArg Prod.fst (g.ofDocument_eq_beside key (.object inner))
    rwa [ofDocument_object] at hmade
  rw [addEntries_cons_object, hgraph]
  rfl

/-- The first segment of a way into a first entry is not the key of a later object. -/
theorem not_covers_of_sorted {key : String} {content : Document}
    {rest : List (String × Document)}
    (hsorted : (⟨(key, content) :: rest⟩ : Table String Document).Sorted) (further : List String) :
    ¬ Document.Covers rest (key :: further) := by
  rintro ⟨first, inner, hhead, hmem⟩
  cases hhead
  have hlt := (List.pairwise_cons.1 hsorted).1 _ hmem
  rw [Std.ReflOrd.compare_self] at hlt
  cases hlt

theorem described_addEntries {g : BeliefGraph} (htree : g.LeafTree)
    {entries : List (String × Document)} (hordered : (Document.object entries).Ordered) :
    Described g entries (g.addEntries root entries) := by
  -- Every entry is added to the tree the one before it left, so the induction is over all trees.
  induction entries using Document.entries_induction generalizing g with
  | nil =>
      rw [addEntries_nil]
      refine ⟨htree, fun way => ?_, fun way bucket l => ?_⟩
      · cases way with
        | nil => exact iff_of_true rfl (Or.inr (Document.opens_nil []))
        | cons first further =>
            simp [Document.not_covers_nil, Document.not_opens_cons_of_nil]
      · simp [Document.not_covers_nil, Document.not_states_nil]
  | leaf key content rest hleaf ih =>
      have hadded := htree.addLeaf key content
      have hrest := ih hadded.tree hordered.rest
      have hsorted := hordered.sorted
      rw [addEntries_cons_leaf hleaf]
      refine ⟨hrest.tree, fun way => ?_, fun way bucket l => ?_⟩
      · rw [hrest.views, hadded.views, Document.covers_cons_leaf hleaf,
          Document.opens_cons_leaf hsorted hleaf, or_and_right, or_assoc]
        refine or_congr_right (or_congr_left ⟨?_, ?_⟩)
        · rintro ⟨⟨f, hf, hway⟩, hcovers⟩
          exact ⟨f, hf, hcovers, hway⟩
        · rintro ⟨f, hf, hcovers, hway⟩
          exact ⟨⟨f, hf, hway⟩, hcovers⟩
      · rw [hrest.held, hadded.held, Document.covers_cons_leaf hleaf,
          Document.states_cons_leaf hsorted hleaf, or_and_right, or_assoc]
        refine or_congr_right (or_congr_left ⟨?_, ?_⟩)
        · rintro ⟨⟨f, hf, hl⟩, hcovers⟩
          exact ⟨f, hf, hcovers, hl⟩
        · rintro ⟨f, hf, hcovers, hl⟩
          exact ⟨⟨f, hf, hl⟩, hcovers⟩
  | object key inner rest ihInside ihRest =>
      -- The view of an object is made apart and then set in place of what stood under its key.
      have hmade : Depicts inner (alone key inner) := by
        rw [alone_eq]
        exact (ihInside (leafTree_create key) hordered.first).depicts
      have hrest := ihRest (htree.graft hmade.tree key) hordered.rest
      have hsorted := hordered.sorted
      rw [addEntries_cons_object_root]
      refine ⟨hrest.tree, fun way => ?_, fun way bucket l => ?_⟩
      · rw [hrest.views, isSome_childAt?_graft htree.tree, Document.covers_cons_object,
          Document.opens_cons_object hsorted, or_and_right, or_assoc, not_or, and_assoc]
        refine or_congr_right (or_congr_left ⟨?_, ?_⟩)
        · rintro ⟨⟨further, hway, hsome⟩, -⟩
          exact ⟨further, hway, (hmade.views further).1 hsome⟩
        · rintro ⟨further, rfl, hopens⟩
          exact ⟨⟨further, rfl, (hmade.views further).2 hopens⟩, not_covers_of_sorted hsorted _⟩
      · rw [hrest.held, mem_heldAt_graft htree.tree, Document.covers_cons_object,
          Document.states_cons_object hsorted, or_and_right, or_assoc, not_or, and_assoc]
        refine or_congr_right (or_congr_left ⟨?_, ?_⟩)
        · rintro ⟨⟨further, hway, hl⟩, -⟩
          exact ⟨further, hway, (hmade.held further bucket l).1 hl⟩
        · rintro ⟨further, rfl, hl⟩
          exact ⟨⟨further, rfl, (hmade.held further bucket l).2 hl⟩,
            not_covers_of_sorted hsorted _⟩

theorem depicts_alone (name : String) {entries : List (String × Document)}
    (hordered : (Document.object entries).Ordered) :
    Depicts entries (alone name entries) := by
  rw [alone_eq]
  exact (described_addEntries (leafTree_create name) hordered).depicts

end BeliefGraph

end Deliberation
