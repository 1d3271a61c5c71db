import Deliberation.Proofs.Copy.Terms

/-!
# Copies of views

A view is copied with the views below it and with the literals in its buckets.
The copy of a node lists copies of the same children under the same names, and
copies of the same literals in the same buckets; so a walk over the copy sees
what a walk over the view sees.
-/

namespace Deliberation

open BeliefGraph

/-- A literal seen from above a view. -/
def Picture.under (path : Path) : Picture → Picture
  | .literal functor negated marked arguments annotations =>
      .literal ⟨path ++ functor.view, functor.name⟩ negated marked arguments annotations
  | other => other

theorem Literal.picture_under (s : Store) (k : Nat) (path : Path) (l : Literal) :
    (l.under path).picture s k = (l.picture s k).under path := by
  obtain ⟨functor, arguments, annotations, negated, marked⟩ := l
  rfl

namespace Memory

/-- Run an operation on views and store inside a memory. -/
def onViews {α : Type} (operation : Copying α) : StateM Memory α := fun m =>
  let result := operation (m.graph, m.store)
  (result.1, ⟨result.2.1, result.2.2⟩)

/-- The pictures of the literals and the paths of the views that a walk of some depth lists. -/
def lookBelow (m : Memory) (k : Nat) (v : ViewId) : Nat → Path → List Picture × List Path :=
  fun depth path => ((m.graph.literalsTo depth path v).map (Literal.picture m.store k),
    (m.graph.viewsTo depth path v).map Prod.fst)

def lookAtChildren (m : Memory) (k : Nat) (entries : List (String × ViewId)) :
    List (String × (Nat → Path → List Picture × List Path)) :=
  entries.map fun entry => (entry.1, m.lookBelow k entry.2)

def lookAtBuckets (m : Memory) (k : Nat) (entries : List (Bucket × List Literal)) :
    List (Bucket × List Picture) :=
  entries.map fun entry => (entry.1, entry.2.map (Literal.picture m.store k))

/-- What a walk lists at a node, from what it lists at the children and in the buckets. -/
def listNode (children : List (String × (Nat → Path → List Picture × List Path)))
    (buckets : List (Bucket × List Picture)) : Nat → Path → List Picture × List Path
  | 0, _ => ([], [])
  | depth + 1, path =>
      ((buckets.flatMap fun entry => entry.2.map (Picture.under path)) ++
          children.flatMap fun entry => (entry.2 depth (path.push entry.1)).1,
        children.flatMap fun entry =>
          (entry.2 depth (path.push entry.1)).2 ++ [path.push entry.1])

theorem lookBelow_eq (m : Memory) (k : Nat) (v : ViewId) :
    m.lookBelow k v = listNode (m.lookAtChildren k (m.graph.view v).children.entries)
      (m.lookAtBuckets k (m.graph.view v).buckets.entries) := by
  funext depth path
  cases depth with
  | zero => rfl
  | succ depth =>
      simp only [lookBelow, listNode, lookAtChildren, lookAtBuckets, literalsTo, viewsTo,
        Table.values, List.map_append, List.map_flatMap, List.flatMap_map, List.map_map,
        Function.comp_def, Literal.picture_under, List.map_cons, List.map_nil]

section Parts

variable {base : Memory}

/-- The items of a list are copied one after the other. -/
theorem copies_mapM {α ρ : Type} {places : α → List Place} {look : Memory → Nat → α → ρ}
    {copy : α → Copying α} :
    ∀ items : List α, (∀ a ∈ items, Copies base places look (onViews (copy a)) a) →
      Copies base (fun items => items.flatMap places) (fun m k items => items.map (look m k))
        (onViews (items.mapM copy)) items
  | [], _ => .pure rfl fun _ _ => rfl
  | a :: rest, h => by
      rw [List.mapM_cons]
      exact (h a List.mem_cons_self).both
        (copies_mapM rest fun b hb => h b (List.mem_cons_of_mem _ hb)) List.cons List.cons
        (fun _ _ => rfl) fun _ _ _ _ => rfl

/-- The places of the literals in buckets. -/
def bucketPlaces (entries : List (Bucket × List Literal)) : List Place :=
  entries.flatMap fun entry => entry.2.flatMap Literal.places

theorem places_eq (node : View) :
    node.places = (node.children.entries.flatMap fun entry => [Place.view entry.2]) ++
      bucketPlaces node.buckets.entries := by
  simp only [View.places, bucketPlaces, Table.values, List.map_map, Function.comp_def,
    ← List.map_eq_flatMap, List.flatten_eq_flatMap, List.flatMap_map, List.flatMap_assoc, id_eq]

theorem copies_buckets (hsound : base.Sound) {entries : List (Bucket × List Literal)}
    (hentries : ∀ p ∈ bucketPlaces entries, base.Within base.store.slots.size p) :
    Copies base bucketPlaces lookAtBuckets
      (onViews (copyBuckets entries)) entries := by
  refine copies_mapM entries fun entry hentry => ?_
  have hliteral : ∀ l ∈ entry.2, Copies base Literal.places
      (fun m k l => l.picture m.store k) (onViews (copyLiteral l)) l := fun l hl =>
    copies_literal_copy hsound fun p hp =>
      hentries p (List.mem_flatMap.2 ⟨entry, hentry, List.mem_flatMap.2 ⟨l, hl, hp⟩⟩)
  have hliterals := copies_mapM entry.2 hliteral
  exact hliterals.map (Prod.mk entry.1) (Prod.mk entry.1) (fun _ => rfl) fun _ _ _ => rfl

theorem copies_children {copyChild : ViewId → Copying ViewId} {entries : List (String × ViewId)}
    (h : ∀ entry ∈ entries, Copies base (fun v => [Place.view v]) lookBelow
      (onViews (copyChild entry.2)) entry.2) :
    Copies base (fun entries => entries.flatMap fun entry => [Place.view entry.2])
      lookAtChildren (onViews (copyChildren copyChild entries)) entries := by
  refine copies_mapM entries fun entry hentry => ?_
  exact (h entry hentry).map (Prod.mk entry.1) (Prod.mk entry.1) (fun _ => rfl) fun _ _ _ => rfl

/-- The children and the buckets of a node. -/
abbrev NodeParts := List (String × ViewId) × List (Bucket × List Literal)

/-- The places that the parts of a node hold. -/
def partPlaces (parts : NodeParts) : List Place :=
  (parts.1.flatMap fun entry => [Place.view entry.2]) ++ bucketPlaces parts.2

/-- What is seen of the parts of a node. -/
def lookAtParts (m : Memory) (k : Nat) (parts : NodeParts) :
    List (String × (Nat → Path → List Picture × List Path)) × List (Bucket × List Picture) :=
  (m.lookAtChildren k parts.1, m.lookAtBuckets k parts.2)

theorem copies_parts {children : List (String × ViewId)} {buckets : List (Bucket × List Literal)}
    {copiedChildren : Copying (List (String × ViewId))}
    {copiedBuckets : Copying (List (Bucket × List Literal))}
    (hchildren : Copies base (fun entries => entries.flatMap fun entry => [Place.view entry.2])
      lookAtChildren (onViews copiedChildren) children)
    (hbuckets : Copies base bucketPlaces lookAtBuckets (onViews copiedBuckets) buckets) :
    Copies base partPlaces lookAtParts
      (do
        let children ← onViews copiedChildren
        let buckets ← onViews copiedBuckets
        pure (children, buckets)) (children, buckets) :=
  hchildren.both hbuckets Prod.mk Prod.mk (fun _ _ => rfl) fun _ _ _ _ => rfl

/-- A node with new children and new literals is put above all others. -/
theorem CopyStep.put {m : Memory} {v : ViewId} (name : String) {children : List (String × ViewId)}
    {buckets : List (Bucket × List Literal)} {result : NodeParts × Memory}
    (h : CopyStep base m partPlaces lookAtParts (children, buckets) result)
    (hchildren : (base.graph.view v).children.entries = children)
    (hbuckets : (base.graph.view v).buckets.entries = buckets) :
    CopyStep base m (fun v => [Place.view v]) lookBelow v
      (result.2.graph.size, result.2.putView ⟨name, ⟨result.1.1⟩, ⟨result.1.2⟩⟩) := by
  obtain ⟨hgrown, hkept, hfresh, hsame⟩ := h
  have hallocates := allocates_view result.2 ⟨name, ⟨result.1.1⟩, ⟨result.1.2⟩⟩
  refine ⟨hallocates.grown hgrown ?_ (by rintro v ⟨⟩), hkept.trans hallocates.kept, ?_, ?_⟩
  · intro p hp
    refine hfresh p ?_
    have hmem : p ∈ View.places ⟨name, ⟨result.1.1⟩, ⟨result.1.2⟩⟩ := hp
    rwa [places_eq] at hmem
  · intro p hp
    rw [List.mem_singleton.1 hp]
    refine ⟨fun hold => ?_, hallocates.there⟩
    exact Nat.lt_irrefl _ (hgrown.kept.live hold)
  · intro later hlater k
    have hnew : later.graph.view result.2.graph.size = ⟨name, ⟨result.1.1⟩, ⟨result.1.2⟩⟩ :=
      Content.view.inj ((hlater.content hallocates.there).trans hallocates.here)
    have hparts := hsame (hallocates.kept.trans hlater) k
    rw [lookBelow_eq, lookBelow_eq, hnew, hchildren, hbuckets]
    exact congrArg₂ listNode (congrArg Prod.fst hparts) (congrArg Prod.snd hparts)

/-- A view is copied with all below it. -/
theorem copies_copyTo_view (hsound : base.Sound) {bound : Nat} {v : ViewId}
    (hv : base.Live (.view v)) (hunwound : base.Unwound (.view v))
    (hrank : base.graph.rank v < bound) :
    Copies base (fun v => [Place.view v]) lookBelow
      (onViews (copyTo bound v)) v := by
  induction bound generalizing v with
  | zero => exact absurd hrank (Nat.not_lt_zero _)
  | succ bound ih =>
      intro m hm
      have hview : m.graph.view v = base.graph.view v := hm.kept.view_eq hv
      have hwithin : ∀ p ∈ (base.graph.view v).places, base.Within base.store.slots.size p :=
        fun p hp => (hunwound.step hp).within hsound (hsound.closed (p := .view v) hp)
      rw [places_eq] at hwithin
      have hchild : ∀ entry ∈ (base.graph.view v).children.entries,
          Copies base (fun v => [Place.view v]) lookBelow
            (onViews (copyTo bound entry.2)) entry.2 := by
        intro entry hentry
        have hedge : base.graph.Child v entry.2 := List.mem_map_of_mem hentry
        have hlead : base.Leads (.view v) (.view entry.2) :=
          List.mem_append_left _ (List.mem_map_of_mem hedge)
        exact ih (hsound.views.closed hedge) (hunwound.step hlead)
          (Nat.lt_of_lt_of_le (hsound.views.rank_lt hedge) (Nat.le_of_lt_succ hrank))
      have hchildren := copies_children hchild
      have hbuckets := copies_buckets hsound fun p hp => hwithin p (List.mem_append_right _ hp)
      have hparts := copies_parts hchildren hbuckets m hm
      have hput := hparts.put (base.graph.view v).name rfl rfl
      rw [← hview] at hput
      exact hput

theorem copies_view_copy (hsound : base.Sound) {v : ViewId} (hv : base.Live (.view v))
    (hunwound : base.Unwound (.view v)) :
    Copies base (fun v => [Place.view v]) lookBelow
      (onViews (copy v)) v := by
  intro m hm
  have hrank := hsound.views.rank_lt_size hv
  exact copies_copyTo_view hsound hv hunwound
    (Nat.lt_of_lt_of_le hrank (sizes_of_live hm.kept.live).2.2) m hm

end Parts

/-- A memory that has grown has no dangling handles and no boxes inside themselves. -/
theorem Grown.sound {base m : Memory} (h : base.Grown m) (hsound : base.Sound)
    (hviews : m.graph.Sound) : m.Sound where
  closed {p q} hlead := by
    by_cases hp : base.Live p
    · rw [Leads, h.kept.content hp] at hlead
      exact h.kept.live (hsound.closed hlead)
    · exact (h.new hp hlead).2
  boxes := by
    -- Old boxes hold old ones of lower rank, and new boxes new ones that were made before.
    obtain ⟨rank, hrank⟩ := hsound.boxes
    refine ⟨fun b => if b < base.store.heap.size then rank b else b, fun b c hc => ?_⟩
    dsimp only
    by_cases hb : b < base.store.heap.size
    · rw [h.kept.read_eq hb] at hc
      have hlive : base.Live (.box c) := hsound.closed (p := .box b) (List.mem_map_of_mem hc)
      rw [if_pos hb, if_pos (show c < base.store.heap.size from hlive)]
      exact hrank b c hc
    · have hfresh := h.new (p := .box b) (q := .box c) hb (List.mem_map_of_mem hc)
      rw [if_neg hb, if_neg (show ¬ c < base.store.heap.size from hfresh.1)]
      exact h.lower (Nat.le_of_not_lt hb) hc
  views := hviews

end Memory

/-! ## Holders -/

namespace Holder

open Memory

/-- Copy what a holder holds. -/
def copy : Holder → StateM Memory Holder
  | .value v => do
      let v ← onHeap (Heap.copy v)
      pure (.value v)
  | .var x => do
      let x ← onStore x.copy
      pure (.var x)
  | .term t => do
      let t ← onStore t.copy
      pure (.term t)
  | .literal l => do
      let l ← onStore l.copy
      pure (.literal l)
  | .view v => do
      let v ← onViews (BeliefGraph.copy v)
      pure (.view v)

/-- What a copy of a holder is: a memory that has grown, new places, and the same sight. -/
structure Copied (m : Memory) (holder : Holder) (result : Holder × Memory) : Prop where
  grown : m.Grown result.2
  sound : result.2.Sound
  fresh : ∀ p ∈ result.1.places, m.Fresh result.2 p
  same : ∀ k, result.1.seen result.2 k = holder.seen m k

/-- The copy of something in the store shows what it shows. -/
theorem copied_of_copies {α ρ : Type} {m : Memory} {places : α → List Place}
    {look : Memory → Nat → α → ρ} {operation : StateM Store α} {a : α} (hold : α → Holder)
    (showing : ρ → Sight) (hsound : m.Sound)
    (h : Copies m places look (onStore operation) a)
    (hplaces : ∀ a, (hold a).places = places a)
    (hlook : ∀ m k a, (hold a).seen m k = showing (look m k a)) :
    (hold a).Copied m (hold (onStore operation m).1, (onStore operation m).2) := by
  obtain ⟨hgrown, -, hfresh, hsame⟩ := h m .refl
  refine ⟨hgrown, hgrown.sound hsound hsound.views, ?_, fun k => ?_⟩
  · intro p hp
    exact hfresh p (hplaces _ ▸ hp)
  · rw [hlook, hlook]
    exact congrArg showing (hsame .refl k)

/-- What is seen of a view are the listings of any walk that is deep enough. -/
theorem seen_view {m : Memory} (hsound : m.graph.Sound) {v : ViewId} (hv : m.Live (.view v))
    {depth : Nat} (hdepth : m.graph.size ≤ depth) (k : Nat) :
    (Holder.view v).seen m k =
      .listing ((m.lookBelow k v depth .empty).1.foldl filePicture {})
        (Table.ofList ((m.lookBelow k v depth .empty).2.map fun path => (path, ()))).keys := by
  have hpaths : (m.graph.viewsBelow v).keys =
      (Table.ofList ((m.lookBelow k v depth .empty).2.map fun path => (path, ()))).keys := by
    refine Table.keys_ofList_congr ?_
    rw [← hsound.viewsTo_eq hv hdepth, List.map_map]
    exact (List.map_id' _).symm
  rw [seen, hpaths, album_eq _ _ (Literal.path_picture _ k), ← hsound.literalsTo_eq hv hdepth]
  rfl

theorem copied_view {m : Memory} (hsound : m.Sound) {v : ViewId} (hv : m.Live (.view v))
    (hunwound : m.Unwound (.view v)) :
    (Holder.view v).Copied m ((Holder.view v).copy m) := by
  obtain ⟨hgrown, -, hfresh, hsame⟩ := copies_view_copy hsound hv hunwound m .refl
  have hviews := (hsound.views.sprout_copy hv m.store).grown.fenced.sound
  refine ⟨hgrown, hgrown.sound hsound hviews, hfresh, fun k => ?_⟩
  have hmade := (hfresh _ List.mem_cons_self).2
  have hlook := hsame .refl k
  refine (seen_view hviews hmade (Nat.le_refl _) k).trans ?_
  rw [seen_view hsound.views hv (sizes_of_live hgrown.kept.live).2.2 k, ← hlook]

/-- Every holder is copied into new places, and the copy shows what the original shows. -/
theorem copied {m : Memory} (hsound : m.Sound) {holder : Holder}
    (hlive : ∀ p ∈ holder.places, m.Live p) (hunwound : ∀ p ∈ holder.places, m.Unwound p) :
    holder.Copied m (holder.copy m) := by
  have hwithin : ∀ p ∈ holder.places, m.Within m.store.slots.size p :=
    fun p hp => (hunwound p hp).within hsound (hlive p hp)
  cases holder with
  | value v =>
      exact copied_of_copies .value .picture hsound (copies_value hsound hlive) (fun _ => rfl)
        fun _ _ _ => rfl
  | var x =>
      exact copied_of_copies .var .picture hsound (copies_variable_copy hsound hwithin)
        (fun _ => rfl) fun _ _ _ => rfl
  | term t =>
      exact copied_of_copies .term .picture hsound (copies_term_copy hsound hwithin)
        (fun _ => rfl) fun _ _ _ => rfl
  | literal l =>
      exact copied_of_copies .literal .picture hsound (copies_literal_copy hsound hwithin)
        (fun _ => rfl) fun _ _ _ => rfl
  | view v =>
      exact copied_view hsound (hlive _ List.mem_cons_self) (hunwound _ List.mem_cons_self)

end Holder

end Deliberation
