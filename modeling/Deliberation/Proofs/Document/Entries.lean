import Deliberation.Document.Basic
import Deliberation.Proofs.Path.Normal
import Deliberation.Proofs.Table
import Deliberation.Proofs.Value.Unboxing

/-!
# Entries of documents

Keys lead from object to object and at last to an entry.  Where every object lists
its keys in strict order, as the objects of a normal document do, each entry of an
object is the one that its key leads to.
-/

namespace Deliberation

namespace Document

def isObject : Document → Bool
  | .object _ => true
  | _ => false

/-- Whether every object that keys lead to lists its keys in strict order. -/
def Ordered (d : Document) : Prop :=
  ∀ chain entries, d.walk? chain = some (.object entries) →
    (⟨entries⟩ : Table String Document).Sorted

/-- Whether a condition holds for the keys of every object that keys lead to. -/
def Keyed (Q : String → Prop) (d : Document) : Prop :=
  ∀ chain entries, d.walk? chain = some (.object entries) → ∀ entry ∈ entries, Q entry.1

/-- Whether the keys of every object that keys lead to read back as themselves. -/
def Plain (d : Document) : Prop := d.Keyed Path.IsSegment

/-- An induction over the entries of an object, with the entries of the objects among them. -/
@[elab_as_elim]
theorem entries_induction {motive : List (String × Document) → Prop} (nil : motive [])
    (object : ∀ key inner rest, motive inner → motive rest → motive ((key, .object inner) :: rest))
    (leaf : ∀ key leaf rest, leaf.isObject = false → motive rest → motive ((key, leaf) :: rest)) :
    ∀ entries, motive entries
  | [] => nil
  | (key, .object inner) :: rest =>
      object key inner rest (entries_induction nil object leaf inner)
        (entries_induction nil object leaf rest)
  | (key, .null) :: rest => leaf key _ rest rfl (entries_induction nil object leaf rest)
  | (key, .bool _) :: rest => leaf key _ rest rfl (entries_induction nil object leaf rest)
  | (key, .int _) :: rest => leaf key _ rest rfl (entries_induction nil object leaf rest)
  | (key, .float _) :: rest => leaf key _ rest rfl (entries_induction nil object leaf rest)
  | (key, .text _) :: rest => leaf key _ rest rfl (entries_induction nil object leaf rest)
  | (key, .array _) :: rest => leaf key _ rest rfl (entries_induction nil object leaf rest)

/-! ## Following keys -/

theorem walk?_append (first second : List String) (d : Document) :
    d.walk? (first ++ second) = (d.walk? first).bind (walk? second) := by
  induction first generalizing d with
  | nil => rfl
  | cons key rest ih =>
      rw [List.cons_append, walk?, walk?]
      cases d.get? key with
      | none => rfl
      | some inner => exact ih inner

/-- No key leads further from a document that is not an object. -/
theorem walk?_cons_of_not_isObject {d : Document} (h : d.isObject = false) (key : String)
    (rest : List String) : d.walk? (key :: rest) = none := by
  cases d with
  | object entries => cases h
  | _ => rfl

theorem walk?_concat_of_not_isObject {d : Document} (h : d.isObject = false) (chain : List String)
    (key : String) : d.walk? (chain ++ [key]) = none := by
  cases chain with
  | nil => exact walk?_cons_of_not_isObject h key []
  | cons first rest => exact walk?_cons_of_not_isObject h first (rest ++ [key])

theorem walk?_ne_object_of_not_isObject {d : Document} (h : d.isObject = false)
    {chain : List String} {entries : List (String × Document)} :
    d.walk? chain ≠ some (object entries) := by
  intro hentries
  cases chain with
  | nil =>
      cases hentries
      cases h
  | cons key rest =>
      rw [walk?_cons_of_not_isObject h] at hentries
      cases hentries

theorem walk?_object_nil (chain : List String) (key : String) :
    (object []).walk? (key :: chain) = none := rfl

/-- A key leads to the first entry if it is its key, and else where it leads in the others. -/
theorem walk?_object_cons (key first : String) (content : Document)
    (entries : List (String × Document)) (chain : List String) :
    (object ((first, content) :: entries)).walk? (key :: chain) =
      if first = key then content.walk? chain else (object entries).walk? (key :: chain) := by
  rw [walk?, get?, Table.find]
  split <;> rfl

section Sorted

variable {entries : List (String × Document)} {key : String} {content : Document}

theorem mem_of_walk? (h : (object entries).walk? [key] = some content) :
    (key, content) ∈ entries := by
  obtain ⟨found, hfound, hcontent⟩ := Option.bind_eq_some_iff.1 h
  cases hcontent
  exact Table.mem_entries_of_get? (t := ⟨entries⟩) hfound

theorem walk?_of_mem (hsorted : (⟨entries⟩ : Table String Document).Sorted)
    (h : (key, content) ∈ entries) : (object entries).walk? [key] = some content := by
  rw [walk?, get?, show Table.find key entries = some content from hsorted.get?_of_mem h]
  rfl

/-- The first key of an ordered object does not come again. -/
theorem walk?_first_eq_none
    (hsorted : (⟨(key, content) :: entries⟩ : Table String Document).Sorted)
    (chain : List String) : (object entries).walk? (key :: chain) = none := by
  have hnone : Table.find key entries = none := by
    refine Table.get?_eq_none_of_forall (t := ⟨entries⟩) fun entry hentry hkey => ?_
    have hlt := (List.pairwise_cons.1 hsorted).1 entry hentry
    rw [hkey, Std.ReflOrd.compare_self] at hlt
    cases hlt
  rw [walk?, get?, hnone]
  rfl

/-- What keys lead to in the later entries, they lead to in all. -/
theorem walk?_of_walk?_rest
    (hsorted : (⟨(key, content) :: entries⟩ : Table String Document).Sorted) {first : String}
    {chain : List String} {found : Document}
    (h : (object entries).walk? (first :: chain) = some found) :
    (object ((key, content) :: entries)).walk? (first :: chain) = some found := by
  rw [walk?_object_cons, if_neg, h]
  rintro rfl
  rw [walk?_first_eq_none hsorted] at h
  cases h

end Sorted

/-! ## Ordered documents -/

section Ordered

variable {entries : List (String × Document)} {key : String} {content : Document}

theorem Ordered.sorted (h : (object entries).Ordered) :
    (⟨entries⟩ : Table String Document).Sorted := h [] _ rfl

theorem ordered_nil : (object []).Ordered := by
  intro chain entries hentries
  cases chain with
  | nil =>
      cases hentries
      exact Table.sorted_empty
  | cons key chain => cases hentries

theorem ordered_singleton (h : content.isObject = false) : (object [(key, content)]).Ordered := by
  intro chain entries hentries
  cases chain with
  | nil =>
      cases hentries
      exact List.pairwise_singleton _ _
  | cons first chain =>
      rw [walk?_object_cons] at hentries
      split at hentries
      · exact absurd hentries (walk?_ne_object_of_not_isObject h)
      · cases hentries

theorem Ordered.inside {d inner : Document} {chain : List String} (h : d.Ordered)
    (hinner : d.walk? chain = some inner) : inner.Ordered := by
  intro further entries hentries
  refine h (chain ++ further) _ ?_
  rw [walk?_append, hinner]
  exact hentries

theorem Ordered.first (h : (object ((key, content) :: entries)).Ordered) : content.Ordered :=
  h.inside (walk?_of_mem h.sorted List.mem_cons_self)

theorem Ordered.rest (h : (object ((key, content) :: entries)).Ordered) :
    (object entries).Ordered := by
  intro chain inner hinner
  cases chain with
  | nil =>
      cases hinner
      exact (List.pairwise_cons.1 h.sorted).2
  | cons first chain => exact h _ _ (walk?_of_walk?_rest h.sorted hinner)

theorem Keyed.inside {Q : String → Prop} {d inner : Document} {chain : List String}
    (h : d.Keyed Q) (hinner : d.walk? chain = some inner) : inner.Keyed Q := by
  intro further entries hentries
  refine h (chain ++ further) _ ?_
  rw [walk?_append, hinner]
  exact hentries

theorem Keyed.mono {P Q : String → Prop} {d : Document} (h : d.Keyed P)
    (hPQ : ∀ key, P key → Q key) : d.Keyed Q :=
  fun chain entries hentries entry hentry => hPQ entry.1 (h chain entries hentries entry hentry)

theorem keyed_of_not_isObject {Q : String → Prop} {d : Document} (h : d.isObject = false) :
    d.Keyed Q := fun _ _ hentries => absurd hentries (walk?_ne_object_of_not_isObject h)

theorem keyed_nil (Q : String → Prop) : (object []).Keyed Q := by
  intro chain entries hentries
  cases chain with
  | nil =>
      cases hentries
      exact fun _ hentry => nomatch hentry
  | cons key chain => cases hentries

/-- The keys are the first key, those in its entry, and those of the other entries. -/
theorem Keyed.cons {Q : String → Prop} (hkey : Q key) (hcontent : content.Keyed Q)
    (hrest : (object entries).Keyed Q) : (object ((key, content) :: entries)).Keyed Q := by
  intro chain inner hinner
  cases chain with
  | nil =>
      cases hinner
      exact List.forall_mem_cons.2 ⟨hkey, hrest [] _ rfl⟩
  | cons first chain =>
      rw [walk?_object_cons] at hinner
      split at hinner
      · exact hcontent chain inner hinner
      · exact hrest (first :: chain) inner hinner

theorem Keyed.first {Q : String → Prop} (h : (object ((key, content) :: entries)).Keyed Q) :
    content.Keyed Q := by
  have hfirst : (object ((key, content) :: entries)).walk? [key] = some content :=
    (walk?_object_cons ..).trans (if_pos rfl)
  exact h.inside hfirst

theorem Keyed.rest {Q : String → Prop} (h : (object ((key, content) :: entries)).Keyed Q)
    (hsorted : (⟨(key, content) :: entries⟩ : Table String Document).Sorted) :
    (object entries).Keyed Q := by
  intro chain inner hinner
  cases chain with
  | nil =>
      cases hinner
      exact fun entry hentry => h [] _ rfl entry (List.mem_cons_of_mem _ hentry)
  | cons first chain => exact h _ _ (walk?_of_walk?_rest hsorted hinner)

/-- A key that leads on from an object of a plain document reads back as itself. -/
theorem Plain.isSegment {d : Document} (h : d.Plain) {chain : List String}
    (hthere : d.walk? (chain ++ [key]) = some content) : Path.IsSegment key := by
  rw [walk?_append] at hthere
  obtain ⟨inner, hinner, hkey⟩ := Option.bind_eq_some_iff.1 hthere
  cases inner with
  | object entries => exact h chain entries hinner _ (mem_of_walk? hkey)
  | _ => cases hkey

end Ordered

/-! ## Normal documents -/

theorem mem_normalizeEntries {entries : List (String × Document)} {entry : String × Document}
    (h : entry ∈ normalizeEntries entries) : ∃ original, entry.2 = normalize original := by
  induction entries with
  | nil => cases h
  | cons first rest ih =>
      obtain ⟨key, content⟩ := first
      rcases List.mem_cons.1 h with rfl | h
      · exact ⟨content, rfl⟩
      · exact ih h

theorem sorted_sortEntries (entries : List (String × Document)) :
    (⟨sortEntries entries⟩ : Table String Document).Sorted ∧
      ∀ entry ∈ sortEntries entries, entry ∈ entries := by
  have hfold : ∀ (rest : List (String × Document)) (t : Table String Document), t.Sorted →
      (rest.foldl (fun t entry => t.insert entry.1 entry.2) t).Sorted ∧
        ∀ entry ∈ (rest.foldl (fun t entry => t.insert entry.1 entry.2) t).entries,
          entry ∈ t.entries ∨ entry ∈ rest := by
    intro rest
    induction rest with
    | nil => exact fun t ht => ⟨ht, fun _ => Or.inl⟩
    | cons first rest ih =>
        intro t ht
        obtain ⟨hsorted, hmem⟩ := ih _ (ht.insert first.1 first.2)
        refine ⟨hsorted, fun entry hentry => ?_⟩
        rcases hmem entry hentry with hinserted | hrest
        · rcases Table.mem_place hinserted with rfl | hold
          · exact Or.inr List.mem_cons_self
          · exact Or.inl hold
        · exact Or.inr (List.mem_cons_of_mem _ hrest)
  obtain ⟨hsorted, hmem⟩ := hfold entries Table.empty Table.sorted_empty
  exact ⟨hsorted, fun entry hentry => (hmem entry hentry).resolve_left List.not_mem_nil⟩

/-- A normal document lists the keys of its objects in strict order, at every level. -/
theorem ordered_normalize (d : Document) : d.normalize.Ordered := by
  intro chain entries hentries
  induction chain generalizing d with
  | nil =>
      cases d with
      | object given =>
          rw [walk?, normalize, Option.some.injEq, object.injEq] at hentries
          rw [← hentries]
          exact (sorted_sortEntries _).1
      | _ => cases hentries
  | cons key chain ih =>
      cases d with
      | object given =>
          obtain ⟨inner, hinner, hchain⟩ := Option.bind_eq_some_iff.1 hentries
          have hmem := Table.mem_entries_of_get? (t := ⟨sortEntries _⟩) hinner
          obtain ⟨original, rfl⟩ := mem_normalizeEntries ((sorted_sortEntries _).2 _ hmem)
          exact ih original hchain
      | _ => cases hentries

/-! ## Data -/

mutual

/-- A document holds no boxes. -/
theorem marks_toDatum {β : Type} : ∀ d : Document, (d.toDatum : Datum β).marks = []
  | .null => rfl
  | .bool _ => rfl
  | .int i => by
      unfold toDatum
      split <;> rfl
  | .float _ => rfl
  | .text _ => rfl
  | .array items => marksAll_toData items
  | .object _ => rfl

theorem marksAll_toData {β : Type} :
    ∀ items : List Document, Datum.marksAll (toData items : List (Datum β)) = []
  | [] => rfl
  | item :: rest => by
      rw [toData, Datum.marksAll, marks_toDatum item, marksAll_toData rest, List.append_nil]

end

end Document

end Deliberation
