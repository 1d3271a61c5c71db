import Deliberation.Belief.Graph
import Deliberation.Plan.Trigger
import Deliberation.Table
import Mathlib.Data.List.Pairwise

/-!
# Tables in the order of their keys

The keys that tables are ordered by have a linear order, so that inserting and
erasing keep the entries strictly ordered and every key comes once.

A table of lists files items under a key that each item has.  Read from the first
key to the last, it lists the items sorted by key, and those with one key in the
order in which they came: it is their stable sort.
-/

namespace Deliberation

/-! ## Orders of keys -/

theorem Path.compareSegments_eq_compareLex (first second : List String) :
    compareSegments first second = List.compareLex compare first second := by
  induction first generalizing second with
  | nil => cases second <;> rfl
  | cons a as ih =>
      cases second with
      | nil => rfl
      | cons b bs =>
          rw [compareSegments, List.compareLex_cons_cons, ih]
          cases compare a b <;> rfl

instance : Std.TransOrd Path where
  eq_swap {p q} := by
    change Path.compareSegments _ _ = (Path.compareSegments _ _).swap
    rw [Path.compareSegments_eq_compareLex, Path.compareSegments_eq_compareLex]
    exact Std.OrientedCmp.eq_swap
  isLE_trans {p q r} hpq hqr := by
    change (Path.compareSegments _ _).isLE = true at hpq hqr ⊢
    rw [Path.compareSegments_eq_compareLex] at hpq hqr ⊢
    exact Std.TransCmp.isLE_trans hpq hqr

/-- Buckets are ordered by sign, and buckets of one sign by name. -/
theorem Bucket.compare_eq (a b : Bucket) :
    compare a b = (compare a.negated b.negated).then (compare a.name b.name) := by
  obtain ⟨anegated, aname⟩ := a
  obtain ⟨bnegated, bname⟩ := b
  cases anegated <;> cases bnegated <;> rfl

theorem TriggerKey.compare_eq (a b : TriggerKey) :
    compare a b = (compare a.kind.index b.kind.index).then (compare a.functor b.functor) := rfl

section Lexicographic

variable {κ α β : Type} [Ord κ] [Ord α] [Ord β] [Std.TransOrd α] [Std.TransOrd β]

/-- Keys that are compared by one coordinate and then by another are linearly ordered. -/
theorem transOrd_of_then (f : κ → α) (g : κ → β)
    (h : ∀ a b : κ, compare a b = (compare (f a) (f b)).then (compare (g a) (g b))) :
    Std.TransOrd κ := by
  have hcompare : (compare : κ → κ → Ordering) = compareLex (compareOn f) (compareOn g) := by
    funext a b
    exact h a b
  unfold Std.TransOrd
  rw [hcompare]
  infer_instance

end Lexicographic

instance : Std.TransOrd Bucket := transOrd_of_then Bucket.negated Bucket.name Bucket.compare_eq

instance : Std.TransOrd TriggerKey :=
  transOrd_of_then (fun key => key.kind.index) TriggerKey.functor TriggerKey.compare_eq

/-! ## Ordered tables -/

namespace Table

variable {κ ν : Type} [Ord κ]

/-- The entries come in the strict order of their keys. -/
def Sorted (t : Table κ ν) : Prop :=
  t.entries.Pairwise fun a b => compare a.1 b.1 = .lt

theorem sorted_empty : (empty : Table κ ν).Sorted := List.Pairwise.nil

theorem mem_place {key : κ} {value : ν} {entries : List (κ × ν)} {entry : κ × ν}
    (h : entry ∈ place key value entries) : entry = (key, value) ∨ entry ∈ entries := by
  induction entries with
  | nil => exact Or.inl (List.mem_singleton.1 h)
  | cons first rest ih =>
      unfold place at h
      split at h
      · exact List.mem_cons.1 h
      · exact (List.mem_cons.1 h).imp_right (List.mem_cons_of_mem _)
      · rcases List.mem_cons.1 h with hfirst | hrest
        · exact Or.inr (hfirst ▸ List.mem_cons_self)
        · exact (ih hrest).imp_right (List.mem_cons_of_mem _)

section Changes

variable [Std.TransOrd κ] [Std.LawfulEqOrd κ]

theorem Sorted.insert {t : Table κ ν} (h : t.Sorted) (key : κ) (value : ν) :
    (t.insert key value).Sorted := by
  obtain ⟨entries⟩ := t
  unfold Sorted Table.insert at *
  dsimp only at *
  induction entries with
  | nil => exact List.pairwise_singleton _ _
  | cons first rest ih =>
      obtain ⟨hfirst, hrest⟩ := List.pairwise_cons.1 h
      unfold place
      cases hcompare : compare key first.1 with
      | lt =>
          refine List.pairwise_cons.2 ⟨?_, h⟩
          intro entry hentry
          rcases List.mem_cons.1 hentry with rfl | hentry
          · exact hcompare
          · exact Std.TransCmp.lt_trans hcompare (hfirst entry hentry)
      | eq =>
          obtain rfl := Std.compare_eq_iff_eq.1 hcompare
          exact List.pairwise_cons.2 ⟨hfirst, hrest⟩
      | gt =>
          refine List.pairwise_cons.2 ⟨?_, ih hrest⟩
          intro entry hentry
          rcases mem_place hentry with rfl | hentry
          · exact Std.OrientedCmp.lt_of_gt hcompare
          · exact hfirst entry hentry

end Changes

theorem Sorted.erase [DecidableEq κ] {t : Table κ ν} (h : t.Sorted) (key : κ) :
    (t.erase key).Sorted :=
  List.Pairwise.filter _ h

section Reading

variable [DecidableEq κ]

omit [Ord κ] in
theorem mem_entries_of_get? {t : Table κ ν} {key : κ} {value : ν}
    (h : t.get? key = some value) : (key, value) ∈ t.entries := by
  obtain ⟨entries⟩ := t
  unfold get? at h
  dsimp only at *
  induction entries with
  | nil => cases h
  | cons entry rest ih =>
      obtain ⟨k, v⟩ := entry
      unfold find at h
      split at h
      · next hk =>
          cases h
          exact hk ▸ List.mem_cons_self
      · exact List.mem_cons_of_mem _ (ih h)

omit [Ord κ] in
theorem get?_eq_none_of_forall {t : Table κ ν} {key : κ} (h : ∀ entry ∈ t.entries, entry.1 ≠ key) :
    t.get? key = none := by
  cases hget : t.get? key with
  | none => rfl
  | some value => exact absurd rfl (h _ (mem_entries_of_get? hget))

/-- In an ordered table a key has no entry but the one that is found. -/
theorem Sorted.get?_of_mem [Std.TransOrd κ] {t : Table κ ν} (h : t.Sorted) {key : κ} {value : ν}
    (hmem : (key, value) ∈ t.entries) : t.get? key = some value := by
  obtain ⟨entries⟩ := t
  unfold Sorted at h
  unfold get?
  dsimp only at *
  induction entries with
  | nil => cases hmem
  | cons entry rest ih =>
      obtain ⟨hfirst, hrest⟩ := List.pairwise_cons.1 h
      obtain ⟨k, v⟩ := entry
      rcases List.mem_cons.1 hmem with heq | hmem
      · cases heq
        exact if_pos rfl
      · have hne : k ≠ key := by
          rintro rfl
          have hself : compare k k = .lt := hfirst _ hmem
          rw [Std.ReflOrd.compare_self] at hself
          cases hself
        rw [find, if_neg hne]
        exact ih hrest hmem

/-- Where every other key gives nothing, a walk over the entries gives what the key gives. -/
theorem Sorted.flatMap_of_key [Std.TransOrd κ] {β : Type} {t : Table κ ν} (h : t.Sorted) {key : κ}
    {f : κ × ν → List β} (hf : ∀ entry ∈ t.entries, entry.1 ≠ key → f entry = []) :
    t.entries.flatMap f = (t.get? key).elim [] fun value => f (key, value) := by
  obtain ⟨entries⟩ := t
  unfold Sorted at h
  unfold get?
  dsimp only at *
  induction entries with
  | nil => rfl
  | cons entry rest ih =>
      obtain ⟨hfirst, hrest⟩ := List.pairwise_cons.1 h
      have htail := ih hrest fun other hother => hf other (List.mem_cons_of_mem _ hother)
      obtain ⟨k, value⟩ := entry
      rw [List.flatMap_cons, htail, find]
      by_cases hk : k = key
      · subst hk
        have hnone : find k rest = none := by
          refine get?_eq_none_of_forall (t := ⟨rest⟩) fun other hother hkey => ?_
          have hlt := hfirst other hother
          rw [hkey, Std.ReflOrd.compare_self] at hlt
          cases hlt
        rw [hnone, if_pos rfl, Option.elim_none, List.append_nil, Option.elim_some]
      · rw [if_neg hk, hf _ List.mem_cons_self hk, List.nil_append]

/-- The items with a key in a table of lists are the list under the key. -/
theorem Sorted.filter_flatten [Std.TransOrd κ] {α : Type} {f : α → κ} {t : Table κ (List α)}
    (h : t.Sorted) (hkeys : ∀ entry ∈ t.entries, ∀ a ∈ entry.2, f a = entry.1) (key : κ) :
    t.values.flatten.filter (f · = key) = (t.get? key).getD [] := by
  have hgroup : ∀ entry ∈ t.entries, entry.1 ≠ key → entry.2.filter (f · = key) = [] := by
    intro entry hentry hne
    refine List.filter_eq_nil_iff.2 fun a ha => ?_
    simpa [hkeys entry hentry a ha] using hne
  rw [List.filter_flatten, values, List.map_map]
  refine (h.flatMap_of_key (f := fun entry => entry.2.filter (f · = key)) hgroup).trans ?_
  cases hget : t.get? key with
  | none => rfl
  | some group =>
      refine List.filter_eq_self.2 fun a ha => decide_eq_true ?_
      exact hkeys (key, group) (mem_entries_of_get? hget) a ha

omit [Ord κ] in
theorem mem_keys_iff {t : Table κ ν} {key : κ} : key ∈ t.keys ↔ (t.get? key).isSome := by
  obtain ⟨entries⟩ := t
  unfold keys get?
  dsimp only
  induction entries with
  | nil => simp [find]
  | cons entry rest ih =>
      obtain ⟨k, v⟩ := entry
      rw [List.map_cons, List.mem_cons, ih, find]
      by_cases hk : k = key
      · simp [hk]
      · simp [hk, Ne.symm hk]

/-- Entries that give each key its value by `look` are a table of `look`. -/
theorem get?_foldl_insert [Std.LawfulEqOrd κ] {entries : List (κ × ν)} {look : κ → Option ν}
    (hentries : ∀ entry ∈ entries, look entry.1 = some entry.2) {t : Table κ ν} {key : κ}
    (hkey : t.get? key = look key ∨ key ∈ entries.map Prod.fst) :
    (entries.foldl (fun t entry => t.insert entry.1 entry.2) t).get? key = look key := by
  induction entries generalizing t with
  | nil => exact hkey.resolve_right List.not_mem_nil
  | cons entry rest ih =>
      refine ih (fun other hother => hentries other (List.mem_cons_of_mem _ hother)) ?_
      rw [get?_insert]
      split
      · next heq => exact Or.inl (by rw [← heq, hentries entry List.mem_cons_self])
      · next hne =>
          exact hkey.imp_right fun hmem => (List.mem_cons.1 hmem).resolve_left (Ne.symm hne)

/-- Where no key has two values, the table of a list gives each key its value. -/
theorem get?_ofList [Std.LawfulEqOrd κ] {entries : List (κ × ν)} {look : κ → Option ν}
    (h : ∀ key value, (key, value) ∈ entries ↔ look key = some value) (key : κ) :
    (ofList entries).get? key = look key := by
  refine get?_foldl_insert (fun entry hentry => (h _ _).1 hentry) ?_
  cases hlook : look key with
  | none => exact Or.inl rfl
  | some value => exact Or.inr (List.mem_map_of_mem ((h key value).2 hlook))

end Reading

end Table

/-! ## Tables of other values -/

namespace Table

variable {κ ν μ : Type}

/-- Change the values of a table. -/
def mapValues (g : ν → μ) (t : Table κ ν) : Table κ μ :=
  ⟨t.entries.map fun entry => (entry.1, g entry.2)⟩

theorem get?_mapValues [DecidableEq κ] (g : ν → μ) (t : Table κ ν) (key : κ) :
    (t.mapValues g).get? key = (t.get? key).map g := by
  obtain ⟨entries⟩ := t
  unfold mapValues get?
  induction entries with
  | nil => rfl
  | cons entry rest ih =>
      rw [List.map_cons, find, find]
      by_cases hkey : entry.1 = key
      · rw [if_pos hkey, if_pos hkey, Option.map_some]
      · rw [if_neg hkey, if_neg hkey]
        exact ih

theorem insert_mapValues [Ord κ] (g : ν → μ) (t : Table κ ν) (key : κ) (value : ν) :
    (t.mapValues g).insert key (g value) = (t.insert key value).mapValues g := by
  obtain ⟨entries⟩ := t
  unfold mapValues insert
  rw [Table.mk.injEq]
  induction entries with
  | nil => rfl
  | cons entry rest ih =>
      rw [List.map_cons, place, place]
      cases compare key entry.1 with
      | lt => rfl
      | eq => rfl
      | gt => exact congrArg (List.cons _) ih

theorem erase_mapValues [DecidableEq κ] (g : ν → μ) (t : Table κ ν) (key : κ) :
    (t.mapValues g).erase key = (t.erase key).mapValues g := by
  unfold mapValues erase
  rw [List.filter_map]
  rfl

theorem keys_mapValues (g : ν → μ) (t : Table κ ν) : (t.mapValues g).keys = t.keys := by
  unfold keys mapValues
  rw [List.map_map]
  rfl

theorem values_mapValues (g : ν → μ) (t : Table κ ν) : (t.mapValues g).values = t.values.map g := by
  simp only [mapValues, values, List.map_map]
  rfl

theorem mapValues_ofList [Ord κ] (f : ν → μ) (entries : List (κ × ν)) :
    (ofList entries).mapValues f = ofList (entries.map fun entry => (entry.1, f entry.2)) := by
  have hfold : ∀ t : Table κ ν,
      (entries.foldl (fun t entry => t.insert entry.1 entry.2) t).mapValues f =
        (entries.map fun entry => (entry.1, f entry.2)).foldl
          (fun t entry => t.insert entry.1 entry.2) (t.mapValues f) := by
    induction entries with
    | nil => exact fun _ => rfl
    | cons entry rest ih =>
        intro t
        rw [List.foldl_cons, ih, ← insert_mapValues, List.map_cons, List.foldl_cons]
  exact hfold empty

/-- Which keys a table of a list has only depends on the keys in the list. -/
theorem keys_ofList_congr [Ord κ] {entries : List (κ × ν)} {others : List (κ × μ)}
    (h : entries.map Prod.fst = others.map Prod.fst) :
    (ofList entries).keys = (ofList others).keys := by
  have hbare : ∀ {ρ : Type} (entries : List (κ × ρ)),
      (ofList entries).keys = (ofList ((entries.map Prod.fst).map fun key => (key, ()))).keys := by
    intro ρ entries
    rw [← keys_mapValues fun _ => (), mapValues_ofList, List.map_map]
    rfl
  rw [hbare entries, hbare others, h]

end Table

/-! ## Stable sorting -/

section Stable

variable {α κ : Type} [Ord κ] [Std.TransOrd κ] (f : α → κ)

/-- Whether an item has a key that is not above the key of another. -/
def keyLE (a b : α) : Bool := (compare (f a) (f b)).isLE

theorem keyLE_trans (a b c : α) (hab : keyLE f a b = true) (hbc : keyLE f b c = true) :
    keyLE f a c = true :=
  Std.TransCmp.isLE_trans hab hbc

theorem keyLE_total (a b : α) : (keyLE f a b || keyLE f b a) = true := by
  unfold keyLE
  rw [Std.OrientedOrd.eq_swap (a := f b)]
  cases compare (f a) (f b) <;> rfl

variable [DecidableEq κ]

/-- Sorting keeps the items with one key in their order. -/
theorem filter_mergeSort (items : List α) (key : κ) :
    (items.mergeSort (keyLE f)).filter (f · = key) = items.filter (f · = key) := by
  have hsorted : (items.filter (f · = key)).Pairwise fun a b => keyLE f a b = true := by
    refine List.pairwise_of_forall_mem_list fun a ha b hb => ?_
    rw [keyLE, of_decide_eq_true (List.mem_filter.1 ha).2,
      of_decide_eq_true (List.mem_filter.1 hb).2, Std.ReflOrd.compare_self]
    rfl
  have hsublist := (List.sublist_mergeSort (keyLE_trans f) (keyLE_total f) hsorted
    List.filter_sublist).filter (f · = key)
  rw [List.filter_filter] at hsublist
  simp only [Bool.and_self] at hsublist
  exact (hsublist.eq_of_length ((List.mergeSort_perm items _).filter _).length_eq.symm).symm

variable [Std.LawfulEqOrd κ]

omit [Ord κ] [Std.TransOrd κ] [Std.LawfulEqOrd κ] in
theorem mem_of_filter_eq {items others : List α}
    (h : ∀ key, items.filter (f · = key) = others.filter (f · = key)) {a : α} (ha : a ∈ items) :
    a ∈ others := by
  have hmem : a ∈ items.filter (f · = f a) := List.mem_filter.2 ⟨ha, decide_eq_true rfl⟩
  rw [h] at hmem
  exact (List.mem_filter.1 hmem).1

omit [Std.TransOrd κ] [DecidableEq κ] in
/-- The first item of a sorted list has the lowest key. -/
theorem isLE_of_mem_cons {a b : α} {items : List α}
    (h : (a :: items).Pairwise fun a b => keyLE f a b = true) (hb : b ∈ a :: items) :
    (compare (f a) (f b)).isLE = true := by
  rcases List.mem_cons.1 hb with rfl | hb
  · rw [Std.ReflOrd.compare_self]
    rfl
  · exact (List.pairwise_cons.1 h).1 b hb

/-- A list that is sorted by key is determined by its parts with one key each. -/
theorem eq_of_sorted_of_filter {items others : List α}
    (hitems : items.Pairwise fun a b => keyLE f a b = true)
    (hothers : others.Pairwise fun a b => keyLE f a b = true)
    (h : ∀ key, items.filter (f · = key) = others.filter (f · = key)) : items = others := by
  induction items generalizing others with
  | nil =>
      symm
      refine List.eq_nil_iff_forall_not_mem.2 fun a ha => ?_
      exact List.not_mem_nil (mem_of_filter_eq f (fun key => (h key).symm) ha)
  | cons a items ih =>
      cases others with
      | nil => exact absurd (mem_of_filter_eq f h List.mem_cons_self) List.not_mem_nil
      | cons b others =>
          have hkeys : f a = f b := by
            have hab := isLE_of_mem_cons f hitems
              (mem_of_filter_eq f (fun key => (h key).symm) List.mem_cons_self)
            have hba := isLE_of_mem_cons f hothers (mem_of_filter_eq f h List.mem_cons_self)
            exact Std.compare_eq_iff_eq.1 (Std.OrientedCmp.isLE_antisymm hab hba)
          have hhead := h (f a)
          rw [List.filter_cons_of_pos (by simp), List.filter_cons_of_pos (by simp [hkeys])] at hhead
          obtain ⟨rfl, -⟩ := List.cons.inj hhead
          congr 1
          refine ih (List.pairwise_cons.1 hitems).2 (List.pairwise_cons.1 hothers).2 fun key => ?_
          have hkey := h key
          rw [List.filter_cons, List.filter_cons] at hkey
          split at hkey
          · exact (List.cons.inj hkey).2
          · exact hkey

end Stable

/-! ## Items filed by key -/

namespace Table

variable {α κ : Type} [Ord κ] [DecidableEq κ]

/-- A table files items: under each key it lists the items that have it, in their order. -/
structure Files (f : α → κ) (items : List α) (t : Table κ (List α)) : Prop where
  sorted : t.Sorted
  group : ∀ key, (t.get? key).getD [] = items.filter (f · = key)

variable [Std.TransOrd κ] {f : α → κ} {items : List α} {t : Table κ (List α)}

theorem Files.eq_filter_of_mem (h : t.Files f items) {key : κ} {group : List α}
    (hmem : (key, group) ∈ t.entries) : group = items.filter (f · = key) := by
  rw [← h.group, h.sorted.get?_of_mem hmem, Option.getD_some]

theorem Files.key_of_mem (h : t.Files f items) {entry : κ × List α} (hmem : entry ∈ t.entries)
    {a : α} (ha : a ∈ entry.2) : f a = entry.1 := by
  rw [h.eq_filter_of_mem hmem] at ha
  exact of_decide_eq_true (List.mem_filter.1 ha).2

theorem Files.pairwise_flatten (h : t.Files f items) :
    t.values.flatten.Pairwise fun a b => keyLE f a b = true := by
  rw [List.pairwise_flatten]
  refine ⟨?_, List.pairwise_map.2 (h.sorted.imp_of_mem ?_)⟩
  · intro group hgroup
    obtain ⟨entry, hentry, rfl⟩ := List.mem_map.1 hgroup
    refine List.pairwise_of_forall_mem_list fun a ha b hb => ?_
    rw [keyLE, h.key_of_mem hentry ha, h.key_of_mem hentry hb, Std.ReflOrd.compare_self]
    rfl
  · intro entry other hentry hother hlt a ha b hb
    rw [keyLE, h.key_of_mem hentry ha, h.key_of_mem hother hb, hlt]
    rfl

theorem Files.filter_flatten (h : t.Files f items) (key : κ) :
    t.values.flatten.filter (f · = key) = items.filter (f · = key) := by
  rw [h.sorted.filter_flatten (fun entry hentry a ha => h.key_of_mem hentry ha), h.group]

/-- One more item is filed behind those with its key. -/
theorem Files.insert [Std.LawfulEqOrd κ] (h : t.Files f items) (a : α) :
    (t.insert (f a) ((t.get? (f a)).getD [] ++ [a])).Files f (items ++ [a]) where
  sorted := h.sorted.insert _ _
  group key := by
    rw [get?_insert, List.filter_append]
    by_cases hkey : f a = key
    · subst hkey
      rw [if_pos rfl, Option.getD_some, h.group, List.filter_cons_of_pos (by simp), List.filter_nil]
    · rw [if_neg hkey, h.group, List.filter_cons_of_neg (by simpa using hkey), List.filter_nil,
        List.append_nil]

/-- A table that files items lists them sorted by key, those with one key in their order. -/
theorem Files.flatten_eq_mergeSort [Std.LawfulEqOrd κ] (h : t.Files f items) :
    t.values.flatten = items.mergeSort (keyLE f) :=
  eq_of_sorted_of_filter f h.pairwise_flatten
    (List.pairwise_mergeSort (keyLE_trans f) (keyLE_total f) items)
    fun key => (h.filter_flatten key).trans (filter_mergeSort f items key).symm

end Table

end Deliberation
