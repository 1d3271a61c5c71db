import Deliberation.Proofs.Belief.Beside
import Deliberation.Proofs.Belief.Changes
import Deliberation.Proofs.Document.Entries
import Deliberation.Proofs.Term.Equality

/-!
# Trees of leaves

The view of a document is a tree of views.  It grows by leaves, which are literals
without variables, boxes and annotations, and by the trees of the objects in the
document, which are grafted below it.  A graft takes the place of what hung under
its name before.
-/

namespace Deliberation

namespace BeliefGraph

/-! ## Grafts -/

/-- Hang the root of a second graph below the root of a first one. -/
def graft (g h : BeliefGraph) (name : String) : BeliefGraph := (g.beside h).attach root name g.size

theorem childAt?_nil (g : BeliefGraph) (v : ViewId) : g.childAt? v [] = some v := rfl

theorem IsTree.root_lt {g : BeliefGraph} (htree : g.IsTree) : root < g.size :=
  htree.bounded (g.childAt?_nil root)

theorem IsTree.root_lt_beside {g : BeliefGraph} (htree : g.IsTree) (h : BeliefGraph) :
    root < (g.beside h).size := by
  rw [size_beside]
  exact Nat.lt_of_lt_of_le htree.root_lt (Nat.le_add_right _ _)

theorem held_beside_of_lt (g h : BeliefGraph) {v : ViewId} (hv : v < g.size) (bucket : Bucket) :
    (g.beside h).held v bucket = g.held v bucket := by
  unfold held
  rw [view_beside_of_lt g h hv]

section Graft

variable {g h : BeliefGraph} (hg : g.IsTree) (name : String)

include hg

theorem child?_graft_new (w : ViewId) (wanted : String) :
    (g.graft h name).child? (g.size + w) wanted = (h.child? w wanted).map (g.size + ·) := by
  have hne : root ≠ g.size + w :=
    Nat.ne_of_lt (Nat.lt_of_lt_of_le hg.root_lt (Nat.le_add_right _ _))
  rw [graft, child?_attach _ (hg.root_lt_beside h), if_neg (fun heq => hne heq.1), child?_beside]

theorem child?_graft_old {w : ViewId} (hw : w < g.size) (wanted : String) :
    (g.graft h name).child? w wanted =
      if root = w ∧ name = wanted then some g.size else g.child? w wanted := by
  rw [graft, child?_attach _ (hg.root_lt_beside h), child?, child?, view_beside_of_lt g h hw]

/-- The ways below a graft are those of its graph, and all others stay. -/
theorem childAt?_graft (first : String) (rest : List String) :
    (g.graft h name).childAt? root (first :: rest) =
      if first = name then (h.childAt? root rest).map (g.size + ·)
      else g.childAt? root (first :: rest) := by
  -- Ways grow at their end, and no way of the tree comes back to the root.
  induction rest using List.reverseRecOn with
  | nil =>
      rw [childAt?_cons, childAt?_cons, child?_graft_old hg name hg.root_lt]
      by_cases hfirst : first = name
      · rw [if_pos ⟨rfl, hfirst.symm⟩, if_pos hfirst]
        rfl
      · rw [if_neg (fun heq => hfirst heq.2.symm), if_neg hfirst]
        cases g.child? root first <;> rfl
  | append_singleton front last ih =>
      rw [← List.cons_append, childAt?_concat, childAt?_concat, childAt?_concat, ih]
      by_cases hfirst : first = name
      · rw [if_pos hfirst, if_pos hfirst]
        cases h.childAt? root front with
        | none => rfl
        | some w => exact child?_graft_new hg name w last
      · rw [if_neg hfirst, if_neg hfirst]
        cases hfront : g.childAt? root (first :: front) with
        | none => rfl
        | some w =>
            rw [Option.bind_some, Option.bind_some, child?_graft_old hg name (hg.bounded hfront),
              if_neg]
            rintro ⟨rfl, -⟩
            cases hg.apart hfront (g.childAt?_nil root)

theorem heldAt_graft (first : String) (rest : List String) (bucket : Bucket) :
    (g.graft h name).heldAt (first :: rest) bucket =
      if first = name then h.heldAt rest bucket else g.heldAt (first :: rest) bucket := by
  have hheld : ∀ w, (g.graft h name).held w bucket = (g.beside h).held w bucket := fun w =>
    held_attach _ (hg.root_lt_beside h) name g.size w bucket
  rw [heldAt, childAt?_graft hg]
  by_cases hfirst : first = name
  · rw [if_pos hfirst, if_pos hfirst, heldAt]
    cases h.childAt? root rest with
    | none => rfl
    | some w => exact (hheld _).trans (held_beside g h w bucket)
  · rw [if_neg hfirst, if_neg hfirst, heldAt]
    cases hway : g.childAt? root (first :: rest) with
    | none => rfl
    | some w => exact (hheld w).trans (held_beside_of_lt g h (hg.bounded hway) bucket)

theorem heldAt_graft_nil (bucket : Bucket) :
    (g.graft h name).heldAt [] bucket = g.heldAt [] bucket := by
  exact (held_attach _ (hg.root_lt_beside h) name g.size root bucket).trans
    (held_beside_of_lt g h hg.root_lt bucket)

theorem isSome_childAt?_graft (way : List String) :
    ((g.graft h name).childAt? root way).isSome ↔
      (g.childAt? root way).isSome ∧ way.head? ≠ some name ∨
        ∃ further, way = name :: further ∧ (h.childAt? root further).isSome := by
  cases way with
  | nil => simp [childAt?]
  | cons first rest =>
      rw [childAt?_graft hg]
      split
      · next hfirst => simp [hfirst]
      · next hfirst => simp [hfirst]

theorem mem_heldAt_graft (way : List String) (bucket : Bucket) (l : Literal) :
    l ∈ (g.graft h name).heldAt way bucket ↔
      l ∈ g.heldAt way bucket ∧ way.head? ≠ some name ∨
        ∃ further, way = name :: further ∧ l ∈ h.heldAt further bucket := by
  cases way with
  | nil => simp [heldAt_graft_nil hg]
  | cons first rest =>
      rw [heldAt_graft hg]
      split
      · next hfirst => simp [hfirst]
      · next hfirst => simp [hfirst]

/-- A way in a grafted tree leads to a view of the graft, or to an old view as before. -/
theorem childAt?_graft_cases {way : List String} {v : ViewId}
    (hway : (g.graft h name).childAt? root way = some v) :
    (∃ rest w, way = name :: rest ∧ h.childAt? root rest = some w ∧ v = g.size + w) ∨
      g.childAt? root way = some v ∧ v < g.size := by
  cases way with
  | nil =>
      cases hway
      exact Or.inr ⟨rfl, hg.root_lt⟩
  | cons first rest =>
      rw [childAt?_graft hg] at hway
      split at hway
      · next hfirst =>
          obtain ⟨w, hw, rfl⟩ := Option.map_eq_some_iff.1 hway
          exact Or.inl ⟨rest, w, congrArg (· :: rest) hfirst, hw, rfl⟩
      · exact Or.inr ⟨hway, hg.bounded hway⟩

theorem IsTree.graft (hh : h.IsTree) : (g.graft h name).IsTree := by
  constructor
  · intro way v hway
    have hsize : (g.graft h name).size = g.size + h.size := by simp [BeliefGraph.graft]
    rw [hsize]
    rcases childAt?_graft_cases hg name hway with ⟨rest, w, -, hw, rfl⟩ | ⟨-, hold⟩
    · exact Nat.add_lt_add_left (hh.bounded hw) _
    · exact Nat.lt_of_lt_of_le hold (Nat.le_add_right _ _)
  · intro first second v hfirst hsecond
    rcases childAt?_graft_cases hg name hfirst with ⟨rest, w, rfl, hw, rfl⟩ | ⟨hway, hold⟩
    · rcases childAt?_graft_cases hg name hsecond with ⟨rest', w', rfl, hw', heq⟩ | ⟨-, hnew⟩
      · obtain rfl := Nat.add_left_cancel heq
        rw [hh.apart hw hw']
      · exact absurd hnew (Nat.not_lt_of_le (Nat.le_add_right _ _))
    · rcases childAt?_graft_cases hg name hsecond with ⟨rest', w', rfl, hw', rfl⟩ | ⟨hway', -⟩
      · exact absurd hold (Nat.not_lt_of_le (Nat.le_add_right _ _))
      · exact hg.apart hway hway'

end Graft

/-! ## Leaves -/

/-- The literal for an array or a scalar. -/
def leafLiteral (functor : Symbol) (content : Document) : Literal :=
  ⟨functor, leafArguments content, [], false, false⟩

theorem marks_of_mem_leafArguments (content : Document) {t : Term}
    (ht : t ∈ leafArguments content) : ∃ v : Value, t = .raw v ∧ v.marks = [] := by
  cases content with
  | array items =>
      obtain ⟨item, -, rfl⟩ := List.mem_map.1 ht
      exact ⟨_, rfl, item.marks_toDatum⟩
  | _ =>
      rw [List.mem_singleton.1 ht]
      exact ⟨_, rfl, Document.marks_toDatum _⟩

theorem equalAll_iff_of_marks (heap : Heap) {ts us : List Term}
    (hts : ∀ t ∈ ts, ∃ v : Value, t = .raw v ∧ v.marks = [])
    (hus : ∀ t ∈ us, ∃ v : Value, t = .raw v ∧ v.marks = []) :
    Term.equalAll heap ts us = true ↔ ts = us := by
  induction ts generalizing us with
  | nil => cases us <;> simp [Term.equalAll]
  | cons t ts ih =>
      cases us with
      | nil => simp [Term.equalAll]
      | cons u us =>
          obtain ⟨v, rfl, hv⟩ := hts t List.mem_cons_self
          obtain ⟨w, rfl, hw⟩ := hus u List.mem_cons_self
          rw [Term.equalAll, Bool.and_eq_true, Term.equal, heap.equal_iff_of_marks hv hw,
            ih (fun t ht => hts t (List.mem_cons_of_mem _ ht))
              fun u hu => hus u (List.mem_cons_of_mem _ hu)]
          simp

/-- Leaves are equal, with any boxes, only if they are the same. -/
theorem equal_leafLiteral (heap : Heap) (f f' : Symbol) (content content' : Document) :
    (leafLiteral f content).equal heap (leafLiteral f' content') = true ↔
      leafLiteral f content = leafLiteral f' content' := by
  have hequal := equalAll_iff_of_marks heap (fun _ => marks_of_mem_leafArguments content)
    fun _ => marks_of_mem_leafArguments content'
  rw [Literal.equal_iff]
  constructor
  · rintro ⟨⟨rfl, -⟩, harguments⟩
    exact congrArg (Literal.mk f · [] false false) (hequal.1 harguments)
  · intro hsame
    obtain ⟨rfl, harguments, -⟩ := Literal.mk.inj hsame
    exact ⟨⟨rfl, rfl, rfl, congrArg Term.identityAll harguments⟩, hequal.2 harguments⟩

/-- A tree in which every bucket holds leaves of its name, each of them once. -/
structure LeafTree (g : BeliefGraph) : Prop where
  tree : g.IsTree
  leaf : ∀ {way bucket l}, l ∈ g.heldAt way bucket →
    bucket.negated = false ∧ ∃ content, l = leafLiteral ⟨.empty, bucket.name⟩ content
  distinct : ∀ way bucket, (g.heldAt way bucket).Nodup

theorem leafTree_create (name : String) : (({} : BeliefGraph).create name).1.LeafTree := by
  have hway : ∀ {way v}, (({} : BeliefGraph).create name).1.childAt? root way = some v →
      way = [] ∧ v = root := by
    intro way v hway
    cases way with
    | nil => exact ⟨rfl, (Option.some.inj hway).symm⟩
    | cons first rest => cases hway
  have hheld : ∀ way bucket, (({} : BeliefGraph).create name).1.heldAt way bucket = [] := by
    intro way bucket
    cases way with
    | nil => rfl
    | cons first rest => rfl
  constructor
  · constructor
    · intro way v h
      rw [(hway h).2]
      exact Nat.one_pos
    · intro first second v hfirst hsecond
      rw [(hway hfirst).1, (hway hsecond).1]
  · intro way bucket l hl
    rw [hheld] at hl
    cases hl
  · intro way bucket
    rw [hheld]
    exact List.nodup_nil

theorem LeafTree.graft {g h : BeliefGraph} (hg : g.LeafTree) (hh : h.LeafTree) (name : String) :
    (g.graft h name).LeafTree where
  tree := hg.tree.graft name hh.tree
  leaf := by
    intro way bucket l hl
    rcases (mem_heldAt_graft hg.tree name way bucket l).1 hl with ⟨hl, -⟩ | ⟨further, -, hl⟩
    · exact hg.leaf hl
    · exact hh.leaf hl
  distinct := by
    intro way bucket
    cases way with
    | nil =>
        rw [heldAt_graft_nil hg.tree]
        exact hg.distinct [] bucket
    | cons first rest =>
        rw [heldAt_graft hg.tree]
        split
        · exact hh.distinct rest bucket
        · exact hg.distinct (first :: rest) bucket

end BeliefGraph

end Deliberation
