import Deliberation.Proofs.Belief.Grafting
import Deliberation.Proofs.Belief.Normal

/-!
# Entries that stay

The entries of an object are added to a view in the order of their keys.  An array or
a scalar goes where its key leads when it is read as a functor, which may be into the
view that a later object beside it gets.  Then it does not stay: the view of the
object takes the place of that view.
-/

namespace Deliberation

namespace Document

/-- An entry that is no object, under a key that is read as a functor, and not covered later. -/
structure Survives (d : Document) (chain : List String) (key : String) (content : Document)
    (f : Symbol) : Prop where
  there : d.walk? (chain ++ [key]) = some content
  leaf : content.isObject = false
  functor : Symbol.ofPath? (Path.parse key) = some f
  uncovered : ∀ first inner, f.view.segments.head? = some first →
    d.walk? (chain ++ [first]) = some (.object inner) → compare first key = .lt

/-- Whether a way starts with the key of an object among the entries. -/
def Covers (entries : List (String × Document)) (way : List String) : Prop :=
  ∃ first inner, way.head? = some first ∧ (first, Document.object inner) ∈ entries

/-- Whether a literal is for an entry that stays, in a bucket at the end of a way. -/
def States (d : Document) (way : List String) (bucket : Bucket) (l : Literal) : Prop :=
  ∃ chain key content f, d.Survives chain key content f ∧ way = chain ++ f.view.segments ∧
    bucket = ⟨false, f.name⟩ ∧ l = BeliefGraph.leafLiteral ⟨.empty, f.name⟩ content

/-- Whether a way leads to an object, or to a view on the way to an entry that stays. -/
def Opens (d : Document) (way : List String) : Prop :=
  (∃ inner, d.walk? way = some (.object inner)) ∨
    ∃ chain key content f, d.Survives chain key content f ∧ way <+: chain ++ f.view.segments

theorem not_covers_nil (way : List String) : ¬ Covers [] way := by
  rintro ⟨first, inner, -, hmem⟩
  cases hmem

theorem covers_iff_of_isPrefix {entries : List (String × Document)} {first : String}
    {further way : List String} (h : first :: further <+: way) :
    Covers entries (first :: further) ↔ Covers entries way := by
  obtain ⟨behind, rfl⟩ := h
  exact Iff.rfl

theorem covers_cons_object {key : String} {inner : List (String × Document)}
    {rest : List (String × Document)} {way : List String} :
    Covers ((key, .object inner) :: rest) way ↔ way.head? = some key ∨ Covers rest way := by
  constructor
  · rintro ⟨first, found, hhead, hmem⟩
    rcases List.mem_cons.1 hmem with heq | hmem
    · cases heq
      exact Or.inl hhead
    · exact Or.inr ⟨first, found, hhead, hmem⟩
  · rintro (hhead | ⟨first, found, hhead, hmem⟩)
    · exact ⟨key, inner, hhead, List.mem_cons_self⟩
    · exact ⟨first, found, hhead, List.mem_cons_of_mem _ hmem⟩

theorem covers_cons_leaf {key : String} {content : Document} (hleaf : content.isObject = false)
    {rest : List (String × Document)} {way : List String} :
    Covers ((key, content) :: rest) way ↔ Covers rest way := by
  constructor
  · rintro ⟨first, found, hhead, hmem⟩
    rcases List.mem_cons.1 hmem with heq | hmem
    · cases heq
      cases hleaf
    · exact ⟨first, found, hhead, hmem⟩
  · rintro ⟨first, found, hhead, hmem⟩
    exact ⟨first, found, hhead, List.mem_cons_of_mem _ hmem⟩

theorem not_survives_nil {chain : List String} {key : String} {content : Document} {f : Symbol} :
    ¬ (object []).Survives chain key content f := by
  intro h
  have hthere := h.there
  cases chain <;> cases hthere

section Cons

variable {key : String} {content : Document} {rest : List (String × Document)}
  (hsorted : (⟨(key, content) :: rest⟩ : Table String Document).Sorted)

include hsorted

/-- An entry of the later entries stays in them when it stays in all, and the other way around. -/
theorem survives_cons_of_rest {chain : List String} {last : String} {found : Document} {f : Symbol}
    (hthere : (object rest).walk? (chain ++ [last]) = some found) :
    (object ((key, content) :: rest)).Survives chain last found f ↔
      (object rest).Survives chain last found f := by
  have hwalk : ∀ next, (object ((key, content) :: rest)).walk? (chain ++ [next]) =
      (object rest).walk? (chain ++ [next]) ∨ chain = [] ∧ next = key := by
    intro next
    cases chain with
    | nil =>
        by_cases hnext : key = next
        · exact Or.inr ⟨rfl, hnext.symm⟩
        · exact Or.inl ((walk?_object_cons next key content rest []).trans (if_neg hnext))
    | cons first chain =>
        have hfirst : key ≠ first := by
          rintro rfl
          rw [List.cons_append, walk?_first_eq_none hsorted] at hthere
          cases hthere
        exact Or.inl ((walk?_object_cons first key content rest _).trans (if_neg hfirst))
  have hlast : (object ((key, content) :: rest)).walk? (chain ++ [last]) = some found := by
    refine ((hwalk last).resolve_right ?_).trans hthere
    rintro ⟨rfl, rfl⟩
    rw [List.nil_append, walk?_first_eq_none hsorted] at hthere
    cases hthere
  constructor
  · intro h
    refine ⟨hthere, h.leaf, h.functor, fun first inner hhead hobject => ?_⟩
    rcases hwalk first with heq | ⟨rfl, rfl⟩
    · exact h.uncovered first inner hhead (heq.trans hobject)
    · rw [List.nil_append, walk?_first_eq_none hsorted] at hobject
      cases hobject
  · intro h
    refine ⟨hlast, h.leaf, h.functor, fun first inner hhead hobject => ?_⟩
    rcases hwalk first with heq | ⟨rfl, rfl⟩
    · exact h.uncovered first inner hhead (heq.symm.trans hobject)
    · -- The first entry is before all others.
      exact (List.pairwise_cons.1 hsorted).1 _ (mem_of_walk? hthere)

/-- A first entry that is no object stays unless its way starts with the key of a later object. -/
theorem survives_cons_leaf (hleaf : content.isObject = false) {chain : List String} {last : String}
    {found : Document} {f : Symbol} :
    (object ((key, content) :: rest)).Survives chain last found f ↔
      (chain = [] ∧ last = key ∧ found = content ∧ Symbol.ofPath? (Path.parse key) = some f ∧
        ¬ Covers rest f.view.segments) ∨
      (object rest).Survives chain last found f := by
  constructor
  · intro h
    have hthere := h.there
    cases chain with
    | nil =>
        rw [List.nil_append, walk?_object_cons] at hthere
        split at hthere
        · next hlast =>
            subst hlast
            cases hthere
            refine Or.inl ⟨rfl, rfl, rfl, h.functor, ?_⟩
            rintro ⟨first, inner, hhead, hmem⟩
            have hobject := walk?_of_mem hsorted (List.mem_cons_of_mem _ hmem)
            have hbefore := h.uncovered first inner hhead hobject
            have hafter := (List.pairwise_cons.1 hsorted).1 _ hmem
            rw [Std.OrientedOrd.eq_swap, hafter] at hbefore
            cases hbefore
        · exact Or.inr ((survives_cons_of_rest hsorted hthere).1 h)
    | cons first chain =>
        rw [List.cons_append, walk?_object_cons] at hthere
        split at hthere
        · rw [walk?_concat_of_not_isObject hleaf] at hthere
          cases hthere
        · exact Or.inr ((survives_cons_of_rest hsorted hthere).1 h)
  · rintro (⟨rfl, rfl, rfl, hfunctor, hcovers⟩ | h)
    · refine ⟨?_, hleaf, hfunctor, fun first inner hhead hobject => ?_⟩
      · exact (walk?_object_cons ..).trans (if_pos rfl)
      · rw [List.nil_append, walk?_object_cons] at hobject
        split at hobject
        · cases hobject
          cases hleaf
        · exact absurd ⟨first, inner, hhead, mem_of_walk? hobject⟩ hcovers
    · exact (survives_cons_of_rest hsorted h.there).2 h

end Cons

theorem survives_cons_object {key : String} {inner rest : List (String × Document)}
    (hsorted : (⟨(key, .object inner) :: rest⟩ : Table String Document).Sorted)
    {chain : List String} {last : String} {found : Document} {f : Symbol} :
    (object ((key, .object inner) :: rest)).Survives chain last found f ↔
      (∃ further, chain = key :: further ∧ (object inner).Survives further last found f) ∨
      (object rest).Survives chain last found f := by
  have hinside : ∀ {further next}, (object ((key, .object inner) :: rest)).walk?
      (key :: further ++ [next]) = (object inner).walk? (further ++ [next]) :=
    (walk?_object_cons ..).trans (if_pos rfl)
  constructor
  · intro h
    have hthere := h.there
    cases chain with
    | nil =>
        rw [List.nil_append, walk?_object_cons] at hthere
        split at hthere
        · have hleaf := h.leaf
          cases hthere
          cases hleaf
        · exact Or.inr ((survives_cons_of_rest hsorted hthere).1 h)
    | cons first further =>
        rw [List.cons_append, walk?_object_cons] at hthere
        split at hthere
        · next hfirst =>
            subst hfirst
            refine Or.inl ⟨further, rfl, hthere, h.leaf, h.functor, ?_⟩
            intro first found hhead hobject
            exact h.uncovered first found hhead (hinside.trans hobject)
        · exact Or.inr ((survives_cons_of_rest hsorted hthere).1 h)
  · rintro (⟨further, rfl, h⟩ | h)
    · refine ⟨hinside.trans h.there, h.leaf, h.functor, fun first found hhead hobject => ?_⟩
      exact h.uncovered first found hhead (hinside.symm.trans hobject)
    · exact (survives_cons_of_rest hsorted h.there).2 h

/-! ### Literals and views of the entries that stay -/

theorem not_states_nil {way : List String} {bucket : Bucket} {l : Literal} :
    ¬ (object []).States way bucket l := by
  rintro ⟨chain, key, content, f, h, -⟩
  exact not_survives_nil h

theorem states_cons_leaf {key : String} {content : Document} {rest : List (String × Document)}
    (hsorted : (⟨(key, content) :: rest⟩ : Table String Document).Sorted)
    (hleaf : content.isObject = false) {way : List String} {bucket : Bucket} {l : Literal} :
    (object ((key, content) :: rest)).States way bucket l ↔
      (∃ f, Symbol.ofPath? (Path.parse key) = some f ∧ ¬ Covers rest way ∧
        way = f.view.segments ∧ bucket = ⟨false, f.name⟩ ∧
        l = BeliefGraph.leafLiteral ⟨.empty, f.name⟩ content) ∨
      (object rest).States way bucket l := by
  constructor
  · rintro ⟨chain, last, found, f, h, rfl, hplace⟩
    rcases (survives_cons_leaf hsorted hleaf).1 h with ⟨rfl, rfl, rfl, hfunctor, hcovers⟩ | h
    · exact Or.inl ⟨f, hfunctor, hcovers, rfl, hplace⟩
    · exact Or.inr ⟨chain, last, found, f, h, rfl, hplace⟩
  · rintro (⟨f, hfunctor, hcovers, rfl, hplace⟩ | ⟨chain, last, found, f, h, rfl, hplace⟩)
    · refine ⟨[], key, content, f, ?_, rfl, hplace⟩
      exact (survives_cons_leaf hsorted hleaf).2 (Or.inl ⟨rfl, rfl, rfl, hfunctor, hcovers⟩)
    · exact ⟨chain, last, found, f, (survives_cons_leaf hsorted hleaf).2 (Or.inr h), rfl, hplace⟩

theorem states_cons_object {key : String} {inner rest : List (String × Document)}
    (hsorted : (⟨(key, .object inner) :: rest⟩ : Table String Document).Sorted)
    {way : List String} {bucket : Bucket} {l : Literal} :
    (object ((key, .object inner) :: rest)).States way bucket l ↔
      (∃ further, way = key :: further ∧ (object inner).States further bucket l) ∨
      (object rest).States way bucket l := by
  constructor
  · rintro ⟨chain, last, found, f, h, rfl, hplace⟩
    rcases (survives_cons_object hsorted).1 h with ⟨further, rfl, hinside⟩ | h
    · exact Or.inl ⟨_, rfl, further, last, found, f, hinside, rfl, hplace⟩
    · exact Or.inr ⟨chain, last, found, f, h, rfl, hplace⟩
  · rintro (⟨way, rfl, further, last, found, f, h, rfl, hplace⟩ |
      ⟨chain, last, found, f, h, rfl, hplace⟩)
    · refine ⟨key :: further, last, found, f, ?_, rfl, hplace⟩
      exact (survives_cons_object hsorted).2 (Or.inl ⟨further, rfl, h⟩)
    · exact ⟨chain, last, found, f, (survives_cons_object hsorted).2 (Or.inr h), rfl, hplace⟩

/-- The empty way leads to the object itself. -/
theorem opens_nil (entries : List (String × Document)) : (object entries).Opens [] :=
  Or.inl ⟨entries, rfl⟩

theorem not_opens_cons_of_nil (first : String) (way : List String) :
    ¬ (object []).Opens (first :: way) := by
  rintro (⟨inner, hinner⟩ | ⟨chain, key, content, f, h, -⟩)
  · cases hinner
  · exact not_survives_nil h

theorem opens_cons_leaf {key : String} {content : Document} {rest : List (String × Document)}
    (hsorted : (⟨(key, content) :: rest⟩ : Table String Document).Sorted)
    (hleaf : content.isObject = false) {way : List String} :
    (object ((key, content) :: rest)).Opens way ↔
      (∃ f, Symbol.ofPath? (Path.parse key) = some f ∧ ¬ Covers rest way ∧
        way <+: f.view.segments) ∨
      (object rest).Opens way := by
  constructor
  · rintro (⟨inner, hinner⟩ | ⟨chain, last, found, f, h, hway⟩)
    · refine Or.inr (Or.inl ?_)
      cases way with
      | nil => exact ⟨rest, rfl⟩
      | cons first further =>
          rw [walk?_object_cons] at hinner
          split at hinner
          · cases further with
            | nil =>
                cases hinner
                cases hleaf
            | cons second further =>
                rw [walk?_cons_of_not_isObject hleaf] at hinner
                cases hinner
          · exact ⟨inner, hinner⟩
    · rcases (survives_cons_leaf hsorted hleaf).1 h with ⟨rfl, rfl, rfl, hfunctor, hcovers⟩ | h
      · cases way with
        | nil => exact Or.inr (opens_nil rest)
        | cons first further =>
            refine Or.inl ⟨f, hfunctor, ?_, hway⟩
            rwa [covers_iff_of_isPrefix hway]
      · exact Or.inr (Or.inr ⟨chain, last, found, f, h, hway⟩)
  · rintro (⟨f, hfunctor, hcovers, hway⟩ | ⟨inner, hinner⟩ | ⟨chain, last, found, f, h, hway⟩)
    · cases way with
      | nil => exact opens_nil _
      | cons first further =>
          refine Or.inr ⟨[], key, content, f, ?_, hway⟩
          rw [covers_iff_of_isPrefix hway] at hcovers
          exact (survives_cons_leaf hsorted hleaf).2 (Or.inl ⟨rfl, rfl, rfl, hfunctor, hcovers⟩)
    · cases way with
      | nil => exact opens_nil _
      | cons first further => exact Or.inl ⟨inner, walk?_of_walk?_rest hsorted hinner⟩
    · exact Or.inr ⟨chain, last, found, f, (survives_cons_leaf hsorted hleaf).2 (Or.inr h), hway⟩

theorem opens_cons_object {key : String} {inner rest : List (String × Document)}
    (hsorted : (⟨(key, .object inner) :: rest⟩ : Table String Document).Sorted)
    {way : List String} :
    (object ((key, .object inner) :: rest)).Opens way ↔
      (∃ further, way = key :: further ∧ (object inner).Opens further) ∨
      (object rest).Opens way := by
  cases way with
  | nil => exact iff_of_true (opens_nil _) (Or.inr (opens_nil rest))
  | cons first way =>
      constructor
      · rintro (⟨found, hfound⟩ | ⟨chain, last, found, f, h, hway⟩)
        · rw [walk?_object_cons] at hfound
          split at hfound
          · next hfirst => exact Or.inl ⟨way, hfirst ▸ rfl, Or.inl ⟨found, hfound⟩⟩
          · exact Or.inr (Or.inl ⟨found, hfound⟩)
        · rcases (survives_cons_object hsorted).1 h with ⟨further, rfl, hinside⟩ | h
          · obtain ⟨rfl, hbehind⟩ := List.cons_prefix_cons.1 hway
            exact Or.inl ⟨way, rfl, Or.inr ⟨further, last, found, f, hinside, hbehind⟩⟩
          · exact Or.inr (Or.inr ⟨chain, last, found, f, h, hway⟩)
      · rintro (⟨_, heq, hinside⟩ | ⟨found, hfound⟩ | ⟨chain, last, found, f, h, hway⟩)
        · obtain ⟨rfl, rfl⟩ := List.cons.inj heq
          rcases hinside with ⟨found, hfound⟩ | ⟨further, last, found, f, h, hway⟩
          · exact Or.inl ⟨found, (walk?_object_cons ..).trans ((if_pos rfl).trans hfound)⟩
          · refine Or.inr ⟨first :: further, last, found, f, ?_, ?_⟩
            · exact (survives_cons_object hsorted).2 (Or.inl ⟨further, rfl, h⟩)
            · exact List.cons_prefix_cons.2 ⟨rfl, hway⟩
        · exact Or.inl ⟨found, walk?_of_walk?_rest hsorted hfound⟩
        · exact Or.inr ⟨chain, last, found, f, (survives_cons_object hsorted).2 (Or.inr h), hway⟩

end Document

end Deliberation
