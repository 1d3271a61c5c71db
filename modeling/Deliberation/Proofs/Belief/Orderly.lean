import Deliberation.Proofs.Belief.Acyclic
import Deliberation.Proofs.Belief.Normal

/-!
# Orderly views

A graph that is put together by changes with proper names has views in good
order: the tables of a view are ordered, no child hangs under the empty name,
and every literal is kept in the bucket of its own name and flag, without a
path.  Hanging, taking out, adding, removing and copying all keep this order.
-/

namespace Deliberation

open Table

/-- The tables of a view are ordered, and children and literals are kept under their names. -/
structure View.Orderly (node : View) : Prop where
  children : node.children.Sorted
  named : "" ∉ node.children.keys
  buckets : node.buckets.Sorted
  filed : ∀ entry ∈ node.buckets.entries, entry.1.name ≠ "" ∧
    ∀ l ∈ entry.2, l.functor = ⟨.empty, entry.1.name⟩ ∧ l.negated = entry.1.negated

namespace Table

variable {κ ν : Type}

theorem sorted_iff_keys [Ord κ] (t : Table κ ν) :
    t.Sorted ↔ t.keys.Pairwise fun a b => compare a b = .lt := by
  unfold Sorted keys
  rw [List.pairwise_map]

theorem mem_keys_insert [Ord κ] {t : Table κ ν} {key other : κ} {value : ν}
    (h : other ∈ (t.insert key value).keys) : other = key ∨ other ∈ t.keys := by
  obtain ⟨entry, hentry, rfl⟩ := List.mem_map.1 h
  rcases mem_place hentry with hnew | hold
  · exact Or.inl (congrArg Prod.fst hnew)
  · exact Or.inr (List.mem_map_of_mem hold)

theorem mem_keys_erase [DecidableEq κ] {t : Table κ ν} {key other : κ}
    (h : other ∈ (t.erase key).keys) : other ∈ t.keys := by
  obtain ⟨entry, hentry, rfl⟩ := List.mem_map.1 h
  exact List.mem_map_of_mem (List.mem_of_mem_filter hentry)

end Table

namespace View

/-- What decides where the literals of a view are kept. -/
def tags (entries : List (Bucket × List Literal)) : List (Bucket × List (Symbol × Bool)) :=
  entries.map fun entry => (entry.1, entry.2.map fun l => (l.functor, l.negated))

theorem orderly_new (name : String) : View.Orderly { name } where
  children := sorted_empty
  named := List.not_mem_nil
  buckets := sorted_empty
  filed := fun _ h => absurd h List.not_mem_nil

namespace Orderly

variable {node : View} (h : node.Orderly)

include h

theorem insertChild {name : String} (hname : name ≠ "") (child : ViewId) :
    View.Orderly { node with children := node.children.insert name child } where
  children := h.children.insert name child
  named := fun hmem => (mem_keys_insert hmem).elim (fun heq => hname heq.symm) h.named
  buckets := h.buckets
  filed := h.filed

theorem eraseChild (name : String) :
    View.Orderly { node with children := node.children.erase name } where
  children := h.children.erase name
  named := fun hmem => h.named (mem_keys_erase hmem)
  buckets := h.buckets
  filed := h.filed

theorem eraseBucket (bucket : Bucket) :
    View.Orderly { node with buckets := node.buckets.erase bucket } where
  children := h.children
  named := h.named
  buckets := h.buckets.erase bucket
  filed := fun entry hentry => h.filed entry (List.mem_of_mem_filter hentry)

theorem insertBucket {bucket : Bucket} {literals : List Literal} (hname : bucket.name ≠ "")
    (hliterals : ∀ l ∈ literals, l.functor = ⟨.empty, bucket.name⟩ ∧ l.negated = bucket.negated) :
    View.Orderly { node with buckets := node.buckets.insert bucket literals } where
  children := h.children
  named := h.named
  buckets := h.buckets.insert bucket literals
  filed := by
    intro entry hentry
    rcases mem_place hentry with rfl | hentry
    · exact ⟨hname, hliterals⟩
    · exact h.filed entry hentry

/-- The order of a view only depends on the names in it. -/
theorem of_tags {other : View} (hchildren : other.children.keys = node.children.keys)
    (hbuckets : tags other.buckets.entries = tags node.buckets.entries) : other.Orderly where
  children := by
    rw [sorted_iff_keys, hchildren]
    exact (sorted_iff_keys _).1 h.children
  named := hchildren ▸ h.named
  buckets := by
    have hkeys : other.buckets.keys = node.buckets.keys := by
      have hmap := congrArg (List.map Prod.fst) hbuckets
      unfold tags at hmap
      rwa [List.map_map, List.map_map] at hmap
    rw [sorted_iff_keys, hkeys]
    exact (sorted_iff_keys _).1 h.buckets
  filed := by
    intro entry hentry
    have hmem : (entry.1, entry.2.map fun l => (l.functor, l.negated)) ∈
        tags node.buckets.entries := by
      rw [← hbuckets]
      exact List.mem_map_of_mem hentry
    obtain ⟨original, horiginal, heq⟩ := List.mem_map.1 hmem
    obtain ⟨hbucket, htags⟩ := Prod.mk.inj heq
    rw [← hbucket]
    refine ⟨(h.filed original horiginal).1, fun l hl => ?_⟩
    have hl' : (l.functor, l.negated) ∈ original.2.map fun l => (l.functor, l.negated) := by
      rw [htags]
      exact List.mem_map_of_mem hl
    obtain ⟨m, hm, hsame⟩ := List.mem_map.1 hl'
    obtain ⟨hfunctor, hnegated⟩ := Prod.mk.inj hsame
    rw [← hfunctor, ← hnegated]
    exact (h.filed original horiginal).2 m hm

end Orderly

end View

namespace BeliefGraph

/-- All views are orderly. -/
def Orderly (g : BeliefGraph) : Prop := ∀ v, (g.view v).Orderly

theorem Orderly.held {g : BeliefGraph} (h : g.Orderly) {v : ViewId} {bucket : Bucket} {l : Literal}
    (hl : l ∈ g.held v bucket) :
    bucket.name ≠ "" ∧ l.functor = ⟨.empty, bucket.name⟩ ∧ l.negated = bucket.negated := by
  unfold BeliefGraph.held at hl
  cases hget : (g.view v).buckets.get? bucket with
  | none =>
      rw [hget] at hl
      cases hl
  | some literals =>
      rw [hget] at hl
      obtain ⟨hname, hliterals⟩ := (h v).filed _ (mem_entries_of_get? hget)
      exact ⟨hname, hliterals l hl⟩

/-! ## Changes of one view -/

namespace Orderly

variable {g : BeliefGraph} (h : g.Orderly)

include h

theorem create (name : String) : (g.create name).1.Orderly := by
  intro v
  by_cases hv : v = g.size
  · rw [hv, view_create_self]
    exact View.orderly_new name
  · rw [view_create_ne g name hv]
    exact h v

theorem put {node : View} (hnode : node.Orderly) : (g.put node).Orderly := by
  intro v
  rw [view_put]
  split
  · exact hnode
  · exact h v

variable {v : ViewId} (hv : v < g.size)

include hv

theorem update {f : View → View} (hf : (f (g.view v)).Orderly) : (g.update v f).Orderly := by
  intro w
  rw [view_update g v w f hv]
  split
  · next hw => exact hw ▸ hf
  · exact h w

theorem attach {name : String} (hname : name ≠ "") (child : ViewId) :
    (g.attach v name child).Orderly :=
  h.update hv ((h v).insertChild hname child)

theorem detach (name : String) : (g.detach v name).Orderly :=
  h.update hv ((h v).eraseChild name)

theorem setHeld {bucket : Bucket} {literals : List Literal}
    (hliterals : ∀ l ∈ literals,
      bucket.name ≠ "" ∧ l.functor = ⟨.empty, bucket.name⟩ ∧ l.negated = bucket.negated) :
    (g.setHeld v bucket literals).Orderly := by
  refine h.update hv ?_
  cases literals with
  | nil => exact (h v).eraseBucket bucket
  | cons l rest =>
      exact (h v).insertBucket (hliterals l List.mem_cons_self).1 fun m hm => (hliterals m hm).2

end Orderly

/-! ## Walks -/

/-- The generators that make views without content, or none. -/
def Bare (generator : Option ViewGenerator) : Prop := generator = none ∨ generator = some blank

theorem Bare.provided {generator : Option ViewGenerator} (h : Bare generator) :
    Provided generator := by
  rcases h with rfl | rfl
  · exact .none
  · exact .blank

theorem Bare.generates {generator : Option ViewGenerator} (h : Bare generator) :
    ∀ generate ∈ generator, Generates generate :=
  h.provided.generates

theorem Orderly.descendFrom {generator : Option ViewGenerator} (hgenerator : Bare generator)
    {way : List String} (hway : "" ∉ way) {walked : Path} {g after : BeliefGraph}
    {v target : ViewId} (h : g.Orderly) (hsound : g.Sound) (hv : v < g.size)
    (hdescend : BeliefGraph.descendFrom generator way walked g v = .ok (after, target)) :
    after.Orderly := by
  induction way generalizing walked g v with
  | nil =>
      cases hdescend
      exact h
  | cons name rest ih =>
      have hname : name ≠ "" := fun heq => hway (heq ▸ List.mem_cons_self)
      have hrest : "" ∉ rest := fun hmem => hway (List.mem_cons_of_mem name hmem)
      unfold BeliefGraph.descendFrom at hdescend
      cases hchild : (g.view v).children.get? name with
      | some child =>
          rw [hchild] at hdescend
          exact ih hrest h hsound (hsound.closed (child_of_child? hchild)) hdescend
      | none =>
          rw [hchild] at hdescend
          rcases hgenerator with rfl | rfl
          · cases hdescend
          · have hsprout := sprout_create hsound name
            have hgrown := hsprout.attach hsound.fenced_zero (Nat.zero_le v) hv name
            have hmade : g.size < ((g.create name).1.attach v name g.size).size := by simp
            refine ih hrest ?_ hgrown.fenced.sound hmade hdescend
            exact (h.create name).attach (lt_size_create name hv) hname _

/-! ## Copies -/

theorem copyWith_tag (slot : SlotId → StateM Store (Option Term)) (l : Literal) (s : Store) :
    ((l.copyWith slot s).1.functor, (l.copyWith slot s).1.negated) = (l.functor, l.negated) := by
  obtain ⟨functor, arguments, annotations, negated, marked⟩ := l
  rw [Literal.copyWith]
  rfl

theorem copyBuckets_tags (entries : List (Bucket × List Literal)) (state : BeliefGraph × Store) :
    View.tags (copyBuckets entries state).1 = View.tags entries := by
  have hliterals : ∀ (literals : List Literal) (state : BeliefGraph × Store),
      ((literals.mapM copyLiteral : Copying (List Literal)) state).1.map
        (fun l => (l.functor, l.negated)) = literals.map fun l => (l.functor, l.negated) := by
    intro literals
    induction literals with
    | nil => exact fun _ => rfl
    | cons l rest ih =>
        intro state
        rw [List.mapM_cons]
        exact congrArg₂ List.cons (copyWith_tag _ l state.2) (ih _)
  unfold copyBuckets View.tags
  induction entries generalizing state with
  | nil => rfl
  | cons entry rest ih =>
      rw [List.mapM_cons]
      refine congrArg₂ List.cons ?_ (ih _)
      exact congrArg (Prod.mk entry.1) (hliterals entry.2 state)

theorem copyChildren_keys (copyChild : ViewId → Copying ViewId) (entries : List (String × ViewId))
    (state : BeliefGraph × Store) :
    (copyChildren copyChild entries state).1.map Prod.fst = entries.map Prod.fst := by
  induction entries generalizing state with
  | nil => rfl
  | cons entry rest ih =>
      rw [copyChildren_cons]
      exact congrArg (entry.1 :: ·) (ih _)

theorem Orderly.copyChildren {copyChild : ViewId → Copying ViewId}
    (hcopy : ∀ v (state : BeliefGraph × Store), state.1.Orderly →
      (copyChild v state).2.1.Orderly)
    (entries : List (String × ViewId)) {state : BeliefGraph × Store} (h : state.1.Orderly) :
    (BeliefGraph.copyChildren copyChild entries state).2.1.Orderly := by
  induction entries generalizing state with
  | nil => exact h
  | cons entry rest ih =>
      rw [copyChildren_cons]
      exact ih (hcopy entry.2 state h)

/-- The copy of a view has the names of the view. -/
theorem Orderly.copyTo (n : Nat) (v : ViewId) {state : BeliefGraph × Store}
    (h : state.1.Orderly) : (BeliefGraph.copyTo n v state).2.1.Orderly := by
  induction n generalizing v state with
  | zero => exact h
  | succ n ih =>
      rw [copyTo_succ, finishCopy, copyBuckets_graph]
      refine (Orderly.copyChildren (fun v state => ih v) _ h).put ((h v).of_tags ?_ ?_)
      · exact copyChildren_keys ..
      · exact copyBuckets_tags ..

/-! ## All changes -/

section Operations

variable {g : BeliefGraph} (h : g.Orderly) (hsound : g.Sound) {v : ViewId} (hv : v < g.size)

include h hsound hv

theorem Orderly.add {generator : Option ViewGenerator} (hgenerator : Bare generator) {heap : Heap}
    {l : Literal} (hname : Path.IsSegment l.functor.name) (hview : "" ∉ l.functor.view.segments)
    {added : Bool} {after : BeliefGraph}
    (hadd : g.add heap v l generator = .ok (added, after)) : after.Orderly := by
  unfold BeliefGraph.add at hadd
  cases hdescend : g.descend v l.functor.view generator with
  | error e =>
      rw [hdescend] at hadd
      cases hadd
  | ok found =>
      obtain ⟨middle, target⟩ := found
      have hmiddle := h.descendFrom hgenerator hview hsound hv hdescend
      have htarget := (grown_of_descendFrom hgenerator.generates hsound.fenced_zero
        (Nat.zero_le _) hv hdescend).2.2
      rw [hdescend] at hadd
      dsimp only [bind, Except.bind] at hadd
      split at hadd
      · cases hadd
        exact hmiddle
      · cases hadd
        refine hmiddle.setHeld htarget fun m hm => ?_
        rcases List.mem_append.1 hm with hm | hm
        · exact hmiddle.held hm
        · rw [List.mem_singleton.1 hm, bucketOf, Literal.inView_of_isSegment hname]
          exact ⟨hname.1, rfl, rfl⟩

theorem Orderly.hang {generator : Option ViewGenerator} (hgenerator : Bare generator)
    {parent : Path} (hparent : "" ∉ parent.segments) (child : ViewId) :
    (g.hang v parent child generator).2.Orderly := by
  unfold BeliefGraph.hang
  dsimp only
  split
  · exact h
  · next hname =>
      cases hdescend : g.descend v parent generator with
      | error e => exact h
      | ok found =>
          obtain ⟨middle, target⟩ := found
          have hmiddle := h.descendFrom hgenerator hparent hsound hv hdescend
          have htarget := (grown_of_descendFrom hgenerator.generates hsound.fenced_zero
            (Nat.zero_le _) hv hdescend).2.2
          dsimp only
          split
          · exact hmiddle
          · split
            · exact hmiddle
            · exact hmiddle.attach htarget hname child

theorem Orderly.remove (heap : Heap) (l : Literal) : (g.remove heap v l).2.Orderly := by
  unfold BeliefGraph.remove
  dsimp only
  split
  · exact h
  · next target hlocate =>
      split
      · exact h
      · refine h.setHeld (hsound.lt_of_locate? hv hlocate) fun m hm => ?_
        exact h.held (List.mem_filter.1 hm).1

theorem Orderly.removeView (path : Path) : (g.removeView v path).2.Orderly := by
  unfold BeliefGraph.removeView
  split
  · exact h
  · split
    · exact h
    · next parent hlocate =>
        split
        · exact h.detach (hsound.lt_of_locate? hv hlocate) path.last
        · exact h

end Operations

/--
The graphs that are put together from views without content.  A literal is added
under a name that reads back as itself, and no path has an empty segment; each
change starts at any view that there is.
-/
inductive Assembled : BeliefGraph → Prop
  | empty : Assembled {}
  | create {g} (name : String) : Assembled g → Assembled (g.create name).1
  | add {g v generator after} (heap : Heap) (l : Literal) {added : Bool} :
      Assembled g → v < g.size → Bare generator → Path.IsSegment l.functor.name →
        "" ∉ l.functor.view.segments → g.add heap v l generator = .ok (added, after) →
        Assembled after
  | hang {g v child generator} (parent : Path) :
      Assembled g → v < g.size → child < g.size → Bare generator → "" ∉ parent.segments →
        Assembled (g.hang v parent child generator).2
  | addCopy {g v child generator} (parent : Path) (s : Store) :
      Assembled g → v < g.size → child < g.size → Bare generator → "" ∉ parent.segments →
        Assembled (addCopy v parent child generator (g, s)).2.1
  | remove {g v} (heap : Heap) (l : Literal) :
      Assembled g → v < g.size → Assembled (g.remove heap v l).2
  | removeView {g v} (path : Path) :
      Assembled g → v < g.size → Assembled (g.removeView v path).2
  | copy {g v} (s : Store) : Assembled g → v < g.size → Assembled (copy v (g, s)).2.1

theorem Assembled.built {g : BeliefGraph} (h : Assembled g) : Built g := by
  induction h with
  | empty => exact .empty
  | create name _ ih => exact .create name ih
  | add heap l _ hv hbare _ _ hadd ih => exact .add heap l ih hv hbare.provided hadd
  | hang parent _ hv hchild hbare _ ih => exact .hang parent ih hv hchild hbare.provided
  | addCopy parent s _ hv hchild hbare _ ih =>
      exact .addCopy parent s ih hv hchild hbare.provided
  | remove heap l _ hv ih => exact .remove heap l ih hv
  | removeView path _ hv ih => exact .removeView path ih hv
  | copy s _ hv ih => exact .copy s ih hv

theorem Assembled.orderly {g : BeliefGraph} (h : Assembled g) : g.Orderly := by
  induction h with
  | empty => exact fun v => View.orderly_new ""
  | create name _ ih => exact ih.create name
  | add heap l hg hv hbare hname hview hadd ih =>
      exact ih.add hg.built.sound hv hbare hname hview hadd
  | hang parent hg hv _ hbare hparent ih => exact ih.hang hg.built.sound hv hbare hparent _
  | addCopy parent s hg hv hchild hbare hparent ih =>
      have hsprout := hg.built.sound.sprout_copy hchild s
      exact (ih.copyTo _ _).hang hsprout.grown.fenced.sound
        (Nat.lt_of_lt_of_le hv hsprout.grown.size) hbare hparent _
  | remove heap l hg hv ih => exact ih.remove hg.built.sound hv heap l
  | removeView path hg hv ih => exact ih.removeView hg.built.sound hv path
  | copy s _ _ ih => exact ih.copyTo _ _

end BeliefGraph

end Deliberation
