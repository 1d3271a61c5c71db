import Deliberation.Proofs.Copy.Growth
import Deliberation.Proofs.Document.Entries

/-!
# Changes that stay away from the other side

One place is given new content by each write.  A write to a place from which no
way leads to the other side, of content that holds only handles of such places,
is confined.  Adding and removing literals is made of such writes, and the views
that are made on the way are clear of the other side because they are new.
-/

namespace Deliberation

theorem Term.places_raw_toDatum (d : Document) : (Term.raw d.toDatum).places = [] := by
  rw [Term.places, Datum.places, d.marks_toDatum, List.map_nil]

namespace Memory

open BeliefGraph

/-! ## Writes -/

/-- At most one place has other content than before. -/
structure Rewrites (m after : Memory) (place : Place) (content : Content) : Prop where
  live : ∀ {p}, m.Live p → after.Live p
  here : after.content place = m.content place ∨ after.content place = content
  elsewhere : ∀ {p}, p ≠ place → after.content p = m.content p

section Writes

variable {theirs : Place → Prop} {m after : Memory} {place : Place} {content : Content}

theorem Rewrites.confined (h : Rewrites m after place content) (hplace : m.Clear theirs place)
    (hcontent : ∀ q ∈ content.places, m.Clear theirs q) : Confined theirs m after := by
  refine confined_of_rewrites h.live fun p => ?_
  by_cases hp : p = place
  · subst hp
    refine h.here.imp_right fun hnew => ⟨hplace, ?_⟩
    rwa [hnew]
  · exact Or.inl (h.elsewhere hp)

theorem Allocates.rewrites (h : Allocates m after place content) :
    Rewrites m after place content :=
  ⟨h.live, Or.inr h.here, h.elsewhere⟩

/-- A new place is clear of the other side. -/
theorem Allocates.confined (h : Allocates m after place content)
    (htheirs : ∀ {p}, theirs p → m.Live p) (hcontent : ∀ q ∈ content.places, m.Clear theirs q) :
    Confined theirs m after ∧ after.Clear theirs place := by
  have hplace := clear_of_not_live htheirs h.new
  have hconfined := h.rewrites.confined hplace hcontent
  exact ⟨hconfined, hconfined.clear hplace⟩

theorem rewrites_write (m : Memory) (b : BoxId) (v : Value) :
    Rewrites m { m with store := { m.store with heap := m.store.heap.write b v } }
      (.box b) (.value v) where
  live {p} hp := by
    cases p with
    | box c => exact Nat.lt_of_lt_of_eq hp (Heap.size_write ..).symm
    | slot i => exact hp
    | view w => exact hp
  here := by
    by_cases hb : b < m.store.heap.size
    · exact Or.inr (congrArg Content.value ((Heap.read_write _ b b v hb).trans (if_pos rfl)))
    · refine Or.inl (congrArg Content.value ?_)
      have hsize := Nat.le_of_not_lt hb
      rw [Heap.read_of_size_le hsize,
        Heap.read_of_size_le (Nat.le_trans (Heap.size_write ..).le hsize)]
  elsewhere {p} hp := by
    cases p with
    | box c =>
        have hc : b ≠ c := fun h => hp (congrArg Place.box h.symm)
        simp [Memory.content, Heap.read, Heap.write, Array.getD_eq_getD_getElem?, hc]
    | slot i => rfl
    | view w => rfl

theorem rewrites_writeSlot (m : Memory) (i : SlotId) (t : Term) :
    Rewrites m { m with store := m.store.writeSlot i t } (.slot i) (.binding (some t)) where
  live {p} hp := by
    cases p with
    | box b => exact hp
    | slot j => exact Nat.lt_of_lt_of_eq hp Array.size_setIfInBounds.symm
    | view w => exact hp
  here := by
    by_cases hi : i < m.store.slots.size
    · exact Or.inr (congrArg Content.binding ((Store.readSlot_writeSlot hi t i).trans (if_pos rfl)))
    · rw [Store.writeSlot_of_size_le (Nat.le_of_not_lt hi)]
      exact Or.inl rfl
  elsewhere {p} hp := by
    cases p with
    | box b => rfl
    | slot j =>
        have hj : i ≠ j := fun h => hp (congrArg Place.slot h.symm)
        exact congrArg Content.binding (Store.readSlot_writeSlot_of_ne t hj)
    | view w => rfl

theorem rewrites_update (g : BeliefGraph) (s : Store) (v : ViewId) (f : View → View) :
    Rewrites ⟨g, s⟩ ⟨g.update v f, s⟩ (.view v) (.view (f (g.view v))) where
  live {p} hp := by
    cases p with
    | box b => exact hp
    | slot i => exact hp
    | view w => exact Nat.lt_of_lt_of_eq hp (size_update ..).symm
  here := by
    by_cases hv : v < g.size
    · exact Or.inr (congrArg Content.view ((view_update g v v f hv).trans (if_pos rfl)))
    · refine Or.inl (congrArg Content.view ?_)
      have hsize := Nat.le_of_not_lt hv
      rw [view_of_size_le _ hsize, view_of_size_le _ (Nat.le_trans (size_update ..).le hsize)]
  elsewhere {p} hp := by
    cases p with
    | box b => rfl
    | slot i => rfl
    | view w =>
        have hw : v ≠ w := fun h => hp (congrArg Place.view h.symm)
        simp [Memory.content, view, update, Array.getD_eq_getD_getElem?, Array.getElem?_modify, hw]

end Writes

/-! ## Views -/

section Views

variable {theirs : Place → Prop} {g after : BeliefGraph} {s : Store} {v : ViewId}

/-- A change of the graph is confined, and leads to a view that is clear of the other side. -/
structure Stays (theirs : Place → Prop) (s : Store) (g after : BeliefGraph) (v : ViewId) :
    Prop where
  confined : Confined theirs ⟨g, s⟩ ⟨after, s⟩
  clear : Clear ⟨after, s⟩ theirs (.view v)

theorem confined_attach (hv : Clear ⟨g, s⟩ theirs (.view v)) {child : ViewId}
    (hchild : Clear ⟨g, s⟩ theirs (.view child)) (name : String) :
    Confined theirs ⟨g, s⟩ ⟨g.attach v name child, s⟩ := by
  refine (rewrites_update g s v _).confined hv fun q hq => ?_
  rcases List.mem_append.1 hq with hq | hq
  · obtain ⟨w, hw, rfl⟩ := List.mem_map.1 hq
    rcases Table.mem_values_insert hw with rfl | hold
    · exact hchild
    · exact hv.step (List.mem_append_left _ (List.mem_map_of_mem hold))
  · exact hv.step (List.mem_append_right _ hq)

theorem confined_setHeld (hv : Clear ⟨g, s⟩ theirs (.view v)) {literals : List Literal}
    (hliterals : ∀ l ∈ literals, ∀ p ∈ l.places, Clear ⟨g, s⟩ theirs p) (bucket : Bucket) :
    Confined theirs ⟨g, s⟩ ⟨g.setHeld v bucket literals, s⟩ := by
  refine (rewrites_update g s v _).confined hv fun q hq => ?_
  rcases List.mem_append.1 hq with hq | hq
  · exact hv.step (List.mem_append_left _ hq)
  · obtain ⟨l, hmem, hplace⟩ := List.mem_flatMap.1 hq
    obtain ⟨group, hgroup, hl⟩ := List.mem_flatten.1 hmem
    have hwritten : group = literals ∨ group ∈ (g.view v).buckets.values := by
      dsimp only at hgroup
      split at hgroup
      · exact Or.inr (Table.mem_values_erase hgroup)
      · exact Table.mem_values_insert hgroup
    rcases hwritten with rfl | hold
    · exact hliterals l hl q hplace
    · exact hv.step (List.mem_append_right _
        (List.mem_flatMap.2 ⟨l, List.mem_flatten.2 ⟨group, hold, hl⟩, hplace⟩))

theorem clear_held (hv : Clear ⟨g, s⟩ theirs (.view v)) {bucket : Bucket} {l : Literal}
    (hl : l ∈ g.held v bucket) {p : Place} (hp : p ∈ l.places) : Clear ⟨g, s⟩ theirs p := by
  unfold held at hl
  cases hgroup : (g.view v).buckets.get? bucket with
  | none =>
      rw [hgroup] at hl
      cases hl
  | some group =>
      rw [hgroup] at hl
      have hmem := List.mem_flatten.2 ⟨group, Table.mem_values_of_get? hgroup, hl⟩
      exact hv.step (List.mem_append_right _ (List.mem_flatMap.2 ⟨l, hmem, hp⟩))

variable (htheirs : ∀ {p}, theirs p → Live ⟨g, s⟩ p)

include htheirs

theorem stays_create (name : String) : Stays theirs s g (g.create name).1 (g.create name).2 := by
  obtain ⟨hconfined, hclear⟩ := (allocates_view ⟨g, s⟩ { name }).confined htheirs
    fun q hq => absurd hq List.not_mem_nil
  exact ⟨hconfined, hclear⟩

omit htheirs in
/-- A generator makes views that are clear of the other side. -/
def Shuns (theirs : Place → Prop) (s : Store) (generate : ViewGenerator) : Prop :=
  ∀ g name walked, (∀ {p}, theirs p → Live ⟨g, s⟩ p) →
    Stays theirs s g (generate g name walked).1 (generate g name walked).2

omit htheirs in
theorem shuns_blank : Shuns theirs s blank := fun _ name _ htheirs => stays_create htheirs name

theorem stays_of_descendFrom {generator : Option ViewGenerator}
    (hgenerator : ∀ generate ∈ generator, Shuns theirs s generate) {way : List String}
    {walked : Path} {target : ViewId} (hv : Clear ⟨g, s⟩ theirs (.view v))
    (h : descendFrom generator way walked g v = .ok (after, target)) :
    Stays theirs s g after target := by
  induction way generalizing walked g v with
  | nil =>
      cases h
      exact ⟨.refl, hv⟩
  | cons name rest ih =>
      unfold descendFrom at h
      cases hchild : (g.view v).children.get? name with
      | some child =>
          rw [hchild] at h
          have hedge : child ∈ (g.view v).children.values := Table.mem_values_of_get? hchild
          exact ih htheirs (hv.step (List.mem_append_left _ (List.mem_map_of_mem hedge))) h
      | none =>
          rw [hchild] at h
          cases generator with
          | none => cases h
          | some generate =>
              obtain ⟨hmade, hclear⟩ := hgenerator generate rfl g name walked htheirs
              have hattach := confined_attach (hmade.clear hv) hclear name
              have hboth := hmade.trans hattach
              obtain ⟨hrest, htarget⟩ := ih (fun hp => hboth.live (htheirs hp))
                (hattach.clear hclear) h
              exact ⟨hboth.trans hrest, htarget⟩

theorem confined_of_add {generator : Option ViewGenerator}
    (hgenerator : ∀ generate ∈ generator, Shuns theirs s generate) {heap : Heap} {l : Literal}
    {added : Bool} (hv : Clear ⟨g, s⟩ theirs (.view v))
    (hl : ∀ p ∈ l.places, Clear ⟨g, s⟩ theirs p)
    (h : g.add heap v l generator = .ok (added, after)) :
    Confined theirs ⟨g, s⟩ ⟨after, s⟩ := by
  unfold add at h
  cases hdescend : g.descend v l.functor.view generator with
  | error e =>
      rw [hdescend] at h
      cases h
  | ok found =>
      obtain ⟨middle, target⟩ := found
      obtain ⟨hwalk, htarget⟩ := stays_of_descendFrom htheirs hgenerator hv hdescend
      rw [hdescend] at h
      dsimp only [bind, Except.bind] at h
      split at h
      · cases h
        exact hwalk
      · cases h
        refine hwalk.trans (confined_setHeld htarget (fun other hother p hp => ?_) _)
        rcases List.mem_append.1 hother with hheld | hnew
        · exact clear_held htarget hheld hp
        · rw [List.mem_singleton.1 hnew, Literal.places_inView] at hp
          exact hwalk.clear (hl p hp)

theorem confined_remove (heap : Heap) (l : Literal) (hv : Clear ⟨g, s⟩ theirs (.view v)) :
    Confined theirs ⟨g, s⟩ ⟨(g.remove heap v l).2, s⟩ := by
  unfold remove
  dsimp only
  split
  · exact .refl
  · next target hlocate =>
      rw [locate?_eq_childAt?] at hlocate
      have htarget := (stays_of_descendFrom htheirs
        (fun _ hnone => absurd hnone (Option.not_mem_none _)) hv
        (descendFrom_of_childAt? hlocate none .empty)).clear
      split
      · exact .refl
      · exact confined_setHeld htarget
          (fun other hother p hp => clear_held htarget (List.mem_of_mem_filter hother) hp) _

/-! ## Views from documents -/

omit htheirs in
theorem places_leafArguments {leaf : Document} {t : Term} (ht : t ∈ leafArguments leaf) :
    t.places = [] := by
  unfold leafArguments at ht
  split at ht
  · obtain ⟨item, -, rfl⟩ := List.mem_map.1 ht
    exact Term.places_raw_toDatum item
  · rw [List.mem_singleton.1 ht]
    exact Term.places_raw_toDatum _

theorem confined_addLeaf (hv : Clear ⟨g, s⟩ theirs (.view v)) (key : String) (leaf : Document) :
    Confined theirs ⟨g, s⟩ ⟨g.addLeaf v key leaf, s⟩ := by
  unfold addLeaf
  split
  · exact .refl
  · next literal hbuild =>
      have hplaces : ∀ p ∈ literal.places, Clear ⟨g, s⟩ theirs p := by
        intro p hp
        unfold Literal.build at hbuild
        split at hbuild
        · cases hbuild
          rw [Literal.places_eq] at hp
          rcases List.mem_append.1 hp with hp | hp
          · obtain ⟨t, ht, hp⟩ := List.mem_flatMap.1 hp
            rw [places_leafArguments ht] at hp
            cases hp
          · cases hp
        · cases hbuild
      split
      · next hadd =>
          refine confined_of_add htheirs ?_ hv hplaces hadd
          rintro generate ⟨⟩
          exact shuns_blank
      · exact .refl

theorem confined_addEntries (hv : Clear ⟨g, s⟩ theirs (.view v))
    (entries : List (String × Document)) :
    Confined theirs ⟨g, s⟩ ⟨addEntries g v entries, s⟩ := by
  fun_induction addEntries g v entries with
  | case1 g v => exact .refl
  | case2 g v key entries rest made child hcreate ihInside ihRest =>
      obtain ⟨hmade, hclear⟩ := stays_create htheirs key
      rw [hcreate] at hmade hclear
      have hinside := ihInside (fun hp => hmade.live (htheirs hp)) hclear
      have hfilled := hmade.trans hinside
      have hattach := confined_attach (hfilled.clear hv) (hinside.clear hclear) key
      have hboth := hfilled.trans hattach
      exact hboth.trans (ihRest (fun hp => hboth.live (htheirs hp)) (hboth.clear hv))
  | case3 g v key leaf rest _ ih =>
      have hleaf := confined_addLeaf htheirs hv key leaf
      exact hleaf.trans (ih (fun hp => hleaf.live (htheirs hp)) (hleaf.clear hv))

theorem stays_ofDocument (name : String) (d : Document) :
    Stays theirs s g (g.ofDocument name d).1 (g.ofDocument name d).2 := by
  obtain ⟨hmade, hclear⟩ := stays_create htheirs name
  have hmade' : ∀ {p}, theirs p → Live ⟨(g.create name).1, s⟩ p :=
    fun hp => hmade.live (htheirs hp)
  have hleaf : ∀ leaf, Stays theirs s g (g.ofLeaf name leaf).1 (g.ofLeaf name leaf).2 := by
    intro leaf
    have hadd := confined_addLeaf hmade' hclear "value" leaf
    exact ⟨hmade.trans hadd, hadd.clear hclear⟩
  cases d with
  | object entries =>
      have hadd := confined_addEntries hmade' hclear entries
      exact ⟨hmade.trans hadd, hadd.clear hclear⟩
  | null => exact hleaf .null
  | bool b => exact hleaf (.bool b)
  | int i => exact hleaf (.int i)
  | float x => exact hleaf (.float x)
  | text s => exact hleaf (.text s)
  | array items => exact hleaf (.array items)

omit htheirs in
theorem shuns_of_provided {generator : Option ViewGenerator} (h : Provided generator) :
    ∀ generate ∈ generator, Shuns theirs s generate := by
  rintro generate hgenerate
  cases h with
  | none => cases hgenerate
  | blank =>
      cases hgenerate
      exact shuns_blank
  | fromDocument d =>
      cases hgenerate
      intro g name walked htheirs
      unfold fromDocument
      split
      · exact stays_ofDocument htheirs name _
      · exact stays_create htheirs name

end Views

end Memory

end Deliberation
