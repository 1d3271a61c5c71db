import Deliberation.Belief.Listing
import Mathlib.Data.List.Induction
import Mathlib.Data.List.Infix

/-!
# Belief graphs that are trees

The changes that an agent makes to its beliefs start from a root without content
and never hang one view below two others.  Such a graph is a tree below its root:
a path leads to at most one view, and a view is reached by one path.  What a
change does to the tree is said by two readings of it, the views that paths lead
to and the literals that a bucket at a path holds.
-/

namespace Deliberation

namespace BeliefGraph

/-! ## Children and buckets after a change -/

/-- The child of a view with a name. -/
def child? (g : BeliefGraph) (v : ViewId) (name : String) : Option ViewId :=
  (g.view v).children.get? name

@[simp] theorem view_create_ne (g : BeliefGraph) (name : String) {w : ViewId} (hw : w ≠ g.size) :
    (g.create name).1.view w = g.view w := by
  have hw' : w ≠ g.views.size := hw
  simp [view, create, Array.getD_eq_getD_getElem?, Array.getElem?_push, hw']

theorem view_create_self (g : BeliefGraph) (name : String) :
    (g.create name).1.view g.size = { name } := by
  simp [view, create, size, Array.getD_eq_getD_getElem?]

theorem view_of_size_le (g : BeliefGraph) {w : ViewId} (hw : g.size ≤ w) :
    g.view w = { name := "" } := by
  have hw' : g.views.size ≤ w := hw
  simp [view, Array.getD_eq_getD_getElem?, hw']

theorem child?_of_size_le (g : BeliefGraph) {w : ViewId} (hw : g.size ≤ w) (name : String) :
    g.child? w name = none := by
  rw [child?, view_of_size_le g hw]
  rfl

theorem held_of_size_le (g : BeliefGraph) {w : ViewId} (hw : g.size ≤ w) (bucket : Bucket) :
    g.held w bucket = [] := by
  rw [held, view_of_size_le g hw]
  rfl

/-- A new view has no children, and neither had its handle before. -/
@[simp] theorem child?_create (g : BeliefGraph) (name : String) (w : ViewId) (wanted : String) :
    (g.create name).1.child? w wanted = g.child? w wanted := by
  by_cases hw : w = g.size
  · subst hw
    rw [child?_of_size_le g (Nat.le_refl _), child?, view_create_self]
    rfl
  · rw [child?, child?, view_create_ne g name hw]

@[simp] theorem held_create (g : BeliefGraph) (name : String) (w : ViewId) (bucket : Bucket) :
    (g.create name).1.held w bucket = g.held w bucket := by
  by_cases hw : w = g.size
  · subst hw
    rw [held_of_size_le g (Nat.le_refl _), held, view_create_self]
    rfl
  · rw [held, held, view_create_ne g name hw]

theorem child?_attach (g : BeliefGraph) {v : ViewId} (hv : v < g.size) (name : String)
    (child w : ViewId) (wanted : String) :
    (g.attach v name child).child? w wanted =
      if v = w ∧ name = wanted then some child else g.child? w wanted := by
  unfold child? attach
  rw [view_update g v w _ hv]
  by_cases hw : v = w <;> simp [hw]

theorem held_attach (g : BeliefGraph) {v : ViewId} (hv : v < g.size) (name : String)
    (child w : ViewId) (bucket : Bucket) :
    (g.attach v name child).held w bucket = g.held w bucket := by
  unfold held attach
  rw [view_update g v w _ hv]
  split <;> rfl

theorem child?_detach (g : BeliefGraph) {v : ViewId} (hv : v < g.size) (name : String)
    (w : ViewId) (wanted : String) :
    (g.detach v name).child? w wanted =
      if v = w ∧ name = wanted then none else g.child? w wanted := by
  unfold child? detach
  rw [view_update g v w _ hv]
  by_cases hw : v = w <;> simp [hw]

theorem held_detach (g : BeliefGraph) {v : ViewId} (hv : v < g.size) (name : String)
    (w : ViewId) (bucket : Bucket) :
    (g.detach v name).held w bucket = g.held w bucket := by
  unfold held detach
  rw [view_update g v w _ hv]
  split <;> rfl

theorem child?_setHeld (g : BeliefGraph) {v : ViewId} (hv : v < g.size) (bucket : Bucket)
    (literals : List Literal) (w : ViewId) (wanted : String) :
    (g.setHeld v bucket literals).child? w wanted = g.child? w wanted := by
  unfold child? setHeld
  rw [view_update g v w _ hv]
  split <;> rfl

theorem held_setHeld (g : BeliefGraph) {v : ViewId} (hv : v < g.size) (bucket : Bucket)
    (literals : List Literal) (w : ViewId) (wanted : Bucket) :
    (g.setHeld v bucket literals).held w wanted =
      if v = w ∧ bucket = wanted then literals else g.held w wanted := by
  unfold held setHeld
  rw [view_update g v w _ hv]
  by_cases hw : v = w
  · by_cases hb : bucket = wanted
    · cases literals <;> simp [hw, hb]
    · cases literals <;> simp [hw, hb]
  · simp [hw]

@[simp] theorem size_attach (g : BeliefGraph) (v : ViewId) (name : String) (child : ViewId) :
    (g.attach v name child).size = g.size := size_update g v _

@[simp] theorem size_detach (g : BeliefGraph) (v : ViewId) (name : String) :
    (g.detach v name).size = g.size := size_update g v _

@[simp] theorem size_setHeld (g : BeliefGraph) (v : ViewId) (bucket : Bucket)
    (literals : List Literal) : (g.setHeld v bucket literals).size = g.size := size_update g v _

/-! ## Walking down -/

theorem childAt?_cons (g : BeliefGraph) (v : ViewId) (name : String) (rest : List String) :
    g.childAt? v (name :: rest) = (g.child? v name).bind (g.childAt? · rest) := by
  unfold child?
  rw [childAt?]
  cases (g.view v).children.get? name <;> rfl

theorem childAt?_append (g : BeliefGraph) (v : ViewId) (first second : List String) :
    g.childAt? v (first ++ second) = (g.childAt? v first).bind (g.childAt? · second) := by
  induction first generalizing v with
  | nil => rfl
  | cons name rest ih =>
      rw [List.cons_append, childAt?_cons, childAt?_cons]
      cases g.child? v name with
      | none => rfl
      | some child => exact ih child

theorem childAt?_concat (g : BeliefGraph) (v : ViewId) (way : List String) (name : String) :
    g.childAt? v (way ++ [name]) = (g.childAt? v way).bind (g.child? · name) := by
  rw [childAt?_append]
  congr 1
  funext target
  rw [childAt?_cons]
  cases g.child? target name <;> rfl

/-- Where a way leads somewhere, so do its beginnings. -/
theorem childAt?_of_isPrefix {g : BeliefGraph} {v target : ViewId} {first way : List String}
    (hway : g.childAt? v way = some target) (hfirst : first <+: way) :
    (g.childAt? v first).isSome := by
  obtain ⟨second, rfl⟩ := hfirst
  rw [childAt?_append] at hway
  obtain ⟨middle, hmiddle, -⟩ := Option.bind_eq_some_iff.1 hway
  simp [hmiddle]

theorem childAt?_congr {g after : BeliefGraph}
    (hchild : ∀ v name, after.child? v name = g.child? v name) (v : ViewId) (way : List String) :
    after.childAt? v way = g.childAt? v way := by
  induction way generalizing v with
  | nil => rfl
  | cons name rest ih =>
      rw [childAt?_cons, childAt?_cons, hchild]
      congr 1
      funext child
      exact ih child

/-- A walk on which every view is there makes none, with any generator. -/
theorem descendFrom_of_childAt? {g : BeliefGraph} {v target : ViewId} {way : List String}
    (hway : g.childAt? v way = some target) (generator : Option ViewGenerator) (walked : Path) :
    descendFrom generator way walked g v = .ok (g, target) := by
  induction way generalizing v walked with
  | nil =>
      cases hway
      rfl
  | cons name rest ih =>
      rw [childAt?_cons] at hway
      obtain ⟨child, hchild, hrest⟩ := Option.bind_eq_some_iff.1 hway
      unfold descendFrom
      rw [show (g.view v).children.get? name = some child from hchild]
      exact ih hrest _

theorem locate?_eq_childAt? (g : BeliefGraph) (v : ViewId) (path : Path) :
    g.locate? v path = g.childAt? v path.segments := by
  unfold locate? descend
  generalize Path.empty = walked
  induction path.segments generalizing v walked with
  | nil => rfl
  | cons name rest ih =>
      rw [childAt?_cons, descendFrom]
      cases hchild : (g.view v).children.get? name with
      | none => simp [child?, hchild]
      | some child =>
          rw [child?, hchild]
          exact ih child _

/-! ## Trees -/

/-- The ways from the root lead to views that were made, and no two lead to the same. -/
structure IsTree (g : BeliefGraph) : Prop where
  bounded : ∀ {way v}, g.childAt? root way = some v → v < g.size
  apart : ∀ {first second v}, g.childAt? root first = some v →
    g.childAt? root second = some v → first = second

/-- In a tree it is the same to compare views and to compare the ways to them. -/
theorem IsTree.eq_iff {g : BeliefGraph} (htree : g.IsTree) {way other : List String}
    {v w : ViewId} (hway : g.childAt? root way = some v)
    (hother : g.childAt? root other = some w) : v = w ↔ way = other := by
  constructor
  · rintro rfl
    exact htree.apart hway hother
  · rintro rfl
    rw [hway] at hother
    exact Option.some.inj hother

/-- The literals of a bucket at the end of a way from the root; none where there is no view. -/
def heldAt (g : BeliefGraph) (way : List String) (bucket : Bucket) : List Literal :=
  match g.childAt? root way with
  | some v => g.held v bucket
  | none => []

theorem heldAt_of_childAt? {g : BeliefGraph} {way : List String} {v : ViewId}
    (hway : g.childAt? root way = some v) (bucket : Bucket) :
    g.heldAt way bucket = g.held v bucket := by
  rw [heldAt, hway]

theorem heldAt_of_none {g : BeliefGraph} {way : List String}
    (hway : g.childAt? root way = none) (bucket : Bucket) : g.heldAt way bucket = [] := by
  rw [heldAt, hway]

theorem childAt?_rooted (way : List String) :
    rooted.childAt? root way = if way = [] then some root else none := by
  cases way with
  | nil => rfl
  | cons name rest => rw [childAt?_cons]; rfl

theorem heldAt_rooted (way : List String) (bucket : Bucket) : rooted.heldAt way bucket = [] := by
  unfold heldAt
  rw [childAt?_rooted]
  by_cases hway : way = []
  · rw [if_pos hway]
    rfl
  · rw [if_neg hway]

theorem isTree_rooted : rooted.IsTree := by
  have hroot : ∀ {way v}, rooted.childAt? root way = some v → way = [] ∧ v = root := by
    intro way v hway
    rw [childAt?_rooted] at hway
    by_cases hnil : way = []
    · rw [if_pos hnil] at hway
      exact ⟨hnil, (Option.some.inj hway).symm⟩
    · rw [if_neg hnil] at hway
      cases hway
  constructor
  · intro way v hway
    rw [(hroot hway).2]
    exact Nat.one_pos
  · intro first second v hfirst hsecond
    rw [(hroot hfirst).1, (hroot hsecond).1]

/-! ### A new view -/

theorem lt_size_create {g : BeliefGraph} {v : ViewId} (name : String) (hv : v < g.size) :
    v < (g.create name).1.size := by
  rw [size_create]
  exact Nat.lt_succ_of_lt hv

/-- Make a view and hang it below another one. -/
def grow (g : BeliefGraph) (v : ViewId) (name : String) : BeliefGraph :=
  (g.create name).1.attach v name g.size

section Grow

variable {g : BeliefGraph} {way : List String} {v : ViewId} {name : String}

theorem childAt?_of_free (hway : g.childAt? root way = some v) (hfree : g.child? v name = none) :
    g.childAt? root (way ++ [name]) = none := by
  rw [childAt?_concat, hway]
  exact hfree

theorem childAt?_grow (htree : g.IsTree) (hway : g.childAt? root way = some v)
    (hfree : g.child? v name = none) (other : List String) :
    (g.grow v name).childAt? root other =
      if other = way ++ [name] then some g.size else g.childAt? root other := by
  have hv : v < g.size := htree.bounded hway
  have hchild : ∀ w wanted, (g.grow v name).child? w wanted =
      if v = w ∧ name = wanted then some g.size else g.child? w wanted := by
    intro w wanted
    rw [grow, child?_attach _ (lt_size_create name hv), child?_create]
  -- Ways grow at their end, where the new child is the only change.
  induction other using List.reverseRecOn with
  | nil => simp [childAt?]
  | append_singleton front last ih =>
      rw [childAt?_concat, childAt?_concat, ih]
      by_cases hfront : front = way ++ [name]
      · have hlonger : front ++ [last] ≠ way ++ [name] := by
          intro h
          have hlength := congrArg List.length (hfront ▸ h)
          simp at hlength
        have hnone : g.childAt? root front = none := hfront ▸ childAt?_of_free hway hfree
        rw [if_pos hfront, if_neg hlonger, hnone, Option.bind_some, Option.bind_none, hchild,
          child?_of_size_le g (Nat.le_refl _), if_neg (fun h => Nat.ne_of_lt hv h.1)]
      · rw [if_neg hfront]
        cases hother : g.childAt? root front with
        | none =>
            have hne : front ++ [last] ≠ way ++ [name] := by
              intro h
              have hfront : front = way := by simpa using congrArg List.dropLast h
              rw [hfront, hway] at hother
              cases hother
            rw [if_neg hne]
            rfl
        | some w =>
            rw [Option.bind_some, Option.bind_some, hchild]
            have hend : (v = w ∧ name = last) ↔ front ++ [last] = way ++ [name] := by
              rw [htree.eq_iff hway hother]
              simp [eq_comm]
            simp only [hend]

theorem heldAt_grow (htree : g.IsTree) (hway : g.childAt? root way = some v)
    (hfree : g.child? v name = none) (other : List String) (bucket : Bucket) :
    (g.grow v name).heldAt other bucket = g.heldAt other bucket := by
  have hv : v < g.size := htree.bounded hway
  have hheld : ∀ w, (g.grow v name).held w bucket = g.held w bucket := by
    intro w
    rw [grow, held_attach _ (lt_size_create name hv), held_create]
  unfold heldAt
  rw [childAt?_grow htree hway hfree]
  by_cases hother : other = way ++ [name]
  · have hnone : g.childAt? root other = none := hother ▸ childAt?_of_free hway hfree
    rw [if_pos hother, hnone]
    exact (hheld g.size).trans (held_of_size_le g (Nat.le_refl _) bucket)
  · rw [if_neg hother]
    cases g.childAt? root other with
    | none => rfl
    | some w => exact hheld w

theorem IsTree.grow (htree : g.IsTree) (hway : g.childAt? root way = some v)
    (hfree : g.child? v name = none) : (g.grow v name).IsTree := by
  have hsize : (g.grow v name).size = g.size + 1 := by simp [BeliefGraph.grow]
  constructor
  · intro other w hother
    rw [childAt?_grow htree hway hfree] at hother
    rw [hsize]
    split at hother
    · cases hother
      exact Nat.lt_succ_self _
    · exact Nat.lt_succ_of_lt (htree.bounded hother)
  · intro first second w hfirst hsecond
    rw [childAt?_grow htree hway hfree] at hfirst hsecond
    split at hfirst <;> split at hsecond
    · simp_all
    · cases hfirst
      exact absurd (htree.bounded hsecond) (Nat.lt_irrefl _)
    · cases hsecond
      exact absurd (htree.bounded hfirst) (Nat.lt_irrefl _)
    · exact htree.apart hfirst hsecond

end Grow

/-! ### A view taken out -/

section Detach

variable {g : BeliefGraph} {way : List String} {v : ViewId}

theorem childAt?_detach (htree : g.IsTree) (hway : g.childAt? root way = some v)
    (name : String) (other : List String) :
    (g.detach v name).childAt? root other =
      if way ++ [name] <+: other then none else g.childAt? root other := by
  have hchild := child?_detach g (htree.bounded hway) name
  induction other using List.reverseRecOn with
  | nil => simp [childAt?]
  | append_singleton front last ih =>
      rw [childAt?_concat, childAt?_concat, ih]
      by_cases hfront : way ++ [name] <+: front
      · have hlonger : way ++ [name] <+: front ++ [last] := hfront.trans (List.prefix_append _ _)
        rw [if_pos hfront, if_pos hlonger]
        rfl
      · rw [if_neg hfront]
        cases hother : g.childAt? root front with
        | none => simp
        | some w =>
            rw [Option.bind_some, Option.bind_some, hchild]
            have hend : (v = w ∧ name = last) ↔ way ++ [name] <+: front ++ [last] := by
              rw [List.prefix_concat_iff, htree.eq_iff hway hother]
              simp [hfront]
            simp only [hend]

theorem heldAt_detach (htree : g.IsTree) (hway : g.childAt? root way = some v)
    (name : String) (other : List String) (bucket : Bucket) :
    (g.detach v name).heldAt other bucket =
      if way ++ [name] <+: other then [] else g.heldAt other bucket := by
  unfold heldAt
  rw [childAt?_detach htree hway]
  by_cases hother : way ++ [name] <+: other
  · rw [if_pos hother, if_pos hother]
  · rw [if_neg hother, if_neg hother]
    cases g.childAt? root other with
    | none => rfl
    | some w => exact held_detach g (htree.bounded hway) name w bucket

theorem IsTree.detach (htree : g.IsTree) (hway : g.childAt? root way = some v)
    (name : String) : (g.detach v name).IsTree := by
  have hkept : ∀ {other w}, (g.detach v name).childAt? root other = some w →
      g.childAt? root other = some w := by
    intro other w hother
    rw [childAt?_detach htree hway] at hother
    split at hother
    · cases hother
    · exact hother
  constructor
  · intro other w hother
    rw [size_detach]
    exact htree.bounded (hkept hother)
  · intro first second w hfirst hsecond
    exact htree.apart (hkept hfirst) (hkept hsecond)

end Detach

/-! ### A bucket replaced -/

section SetHeld

variable {g : BeliefGraph} {way : List String} {v : ViewId}

theorem childAt?_setHeld (htree : g.IsTree) (hway : g.childAt? root way = some v)
    (bucket : Bucket) (literals : List Literal) (other : List String) :
    (g.setHeld v bucket literals).childAt? root other = g.childAt? root other :=
  childAt?_congr (child?_setHeld g (htree.bounded hway) bucket literals) root other

theorem heldAt_setHeld (htree : g.IsTree) (hway : g.childAt? root way = some v)
    (bucket : Bucket) (literals : List Literal) (other : List String) (wanted : Bucket) :
    (g.setHeld v bucket literals).heldAt other wanted =
      if way = other ∧ bucket = wanted then literals else g.heldAt other wanted := by
  unfold heldAt
  rw [childAt?_setHeld htree hway]
  cases hother : g.childAt? root other with
  | none =>
      have hne : ¬(way = other ∧ bucket = wanted) := by
        rintro ⟨rfl, -⟩
        rw [hway] at hother
        cases hother
      rw [if_neg hne]
  | some w => simp only [held_setHeld g (htree.bounded hway), htree.eq_iff hway hother]

theorem IsTree.setHeld (htree : g.IsTree) (hway : g.childAt? root way = some v)
    (bucket : Bucket) (literals : List Literal) : (g.setHeld v bucket literals).IsTree := by
  constructor
  · intro other w hother
    rw [childAt?_setHeld htree hway] at hother
    rw [size_setHeld]
    exact htree.bounded hother
  · intro first second w hfirst hsecond
    rw [childAt?_setHeld htree hway] at hfirst hsecond
    exact htree.apart hfirst hsecond

end SetHeld

/-! ### Walking with and without a generator -/

/-- What a graph has become when the views on a way were made where they were missing. -/
structure Opened (g : BeliefGraph) (way : List String) (after : BeliefGraph) (target : ViewId) :
    Prop where
  tree : after.IsTree
  target : after.childAt? root way = some target
  views : ∀ other, (after.childAt? root other).isSome ↔
    (g.childAt? root other).isSome ∨ other <+: way
  content : ∀ other bucket, after.heldAt other bucket = g.heldAt other bucket

theorem Opened.refl {g : BeliefGraph} {way : List String} {v : ViewId} (htree : g.IsTree)
    (hway : g.childAt? root way = some v) : Opened g way g v where
  tree := htree
  target := hway
  views _ := ⟨Or.inl, fun h => h.elim id (childAt?_of_isPrefix hway)⟩
  content _ _ := rfl

theorem descendFrom_blank {g : BeliefGraph} {way : List String} {v : ViewId} (htree : g.IsTree)
    (hway : g.childAt? root way = some v) (rest : List String) (walked : Path) :
    ∃ after target, descendFrom (some blank) rest walked g v = .ok (after, target) ∧
      Opened g (way ++ rest) after target := by
  -- The walk stands at the end of `way`, in a graph that is still a tree.
  induction rest generalizing g way v walked with
  | nil =>
      refine ⟨g, v, rfl, ?_⟩
      rw [List.append_nil]
      exact Opened.refl htree hway
  | cons name rest ih =>
      unfold descendFrom
      cases hchild : (g.view v).children.get? name with
      | some child =>
          have hnext : g.childAt? root (way ++ [name]) = some child := by
            rw [childAt?_concat, hway]
            exact hchild
          simpa using ih htree hnext (walked.push name)
      | none =>
          have hnext : (g.grow v name).childAt? root (way ++ [name]) = some g.size := by
            rw [childAt?_grow htree hway hchild, if_pos rfl]
          obtain ⟨after, target, hdescend, hopened⟩ :=
            ih (htree.grow hway hchild) hnext (walked.push name)
          rw [List.append_assoc] at hopened
          refine ⟨after, target, hdescend, hopened.tree, hopened.target, ?_, ?_⟩
          · intro other
            rw [hopened.views, childAt?_grow htree hway hchild]
            by_cases hother : other = way ++ [name]
            · simp [hother, List.prefix_append_right_inj]
            · rw [if_neg hother]
              rfl
          · intro other bucket
            rw [hopened.content, heldAt_grow htree hway hchild]

/-- A walk without a generator stops at the shortest beginning of its way that leads nowhere. -/
theorem descendFrom_missing {g : BeliefGraph} {v : ViewId} {way missing : List String}
    (hsegments : "" ∉ way)
    (hmissing : way.inits.find? (fun first => (g.childAt? v first).isNone) = some missing)
    (walked : Path) :
    descendFrom none way walked g v =
      .error (.viewNotFound (Path.mk (walked.segments ++ missing)).text) := by
  induction way generalizing v walked missing with
  | nil => simp [childAt?] at hmissing
  | cons name rest ih =>
      have hname : name ≠ "" := fun h => hsegments (h ▸ List.mem_cons_self)
      have hrest : "" ∉ rest := fun h => hsegments (List.mem_cons_of_mem name h)
      have hpush : walked.push name = ⟨walked.segments ++ [name]⟩ := if_neg hname
      rw [List.inits_cons, List.find?_cons_of_neg (by simp [childAt?]), List.find?_map] at hmissing
      obtain ⟨behind, hbehind, rfl⟩ := Option.map_eq_some_iff.1 hmissing
      unfold descendFrom
      cases hchild : (g.view v).children.get? name with
      | none =>
          have hnil : behind = [] := by
            cases rest <;> simp_all [childAt?_cons, child?]
          simp [hpush, hnil]
      | some child =>
          have hnext : rest.inits.find? (fun first => (g.childAt? child first).isNone) =
              some behind := by
            rw [← hbehind]
            congr 1
            funext first
            simp [childAt?_cons, child?, hchild]
          simpa [hpush] using ih hrest hnext (walked.push name)

end BeliefGraph

end Deliberation
