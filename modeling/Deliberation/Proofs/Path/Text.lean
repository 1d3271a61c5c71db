import Deliberation.Proofs.Path.Normal
import Mathlib.Data.List.TakeWhile

/-!
# The text of a path

A slash in a text ends one piece and starts the next, so that reading takes two
texts with a slash between them one after the other.  The text of a path is made
up in this way from its segments.  It reads back as the path exactly when every
segment reads back as itself, and this holds of all paths that are read from text.
-/

namespace Deliberation

namespace Text

/-- Whether a word has a blank at neither end. -/
def Tight (word : List Char) : Prop :=
  (∀ c ∈ word.head?, isBlank c = false) ∧ ∀ c ∈ word.getLast?, isBlank c = false

theorem trimStart_eq_self_iff (word : List Char) :
    trimStart word = word ↔ ∀ c ∈ word.head?, isBlank c = false := by
  cases word with
  | nil => simp [trimStart]
  | cons first rest => simp [trimStart, List.dropWhile_eq_self_iff]

theorem trimEnd_eq_self_iff (word : List Char) :
    trimEnd word = word ↔ ∀ c ∈ word.getLast?, isBlank c = false := by
  have hreverse : trimEnd word = word ↔ trimStart word.reverse = word.reverse := by
    rw [trimEnd, List.reverse_eq_iff, trimStart]
  rw [hreverse, trimStart_eq_self_iff, List.head?_reverse]

/-- Trimming leaves the words without a blank at either end, and only these. -/
theorem trim_eq_self_iff (word : List Char) : trim word = word ↔ Tight word := by
  constructor
  · intro htrim
    -- neither of the two steps can have taken something away
    have hstart : trimStart word = word := by
      have hshorter : (trimStart word).Sublist word := List.dropWhile_sublist isBlank
      apply hshorter.eq_of_length_le
      calc
        word.length = (trim word).length := by rw [htrim]
        _ ≤ (trimStart word).length := (trimEnd_isPrefix _).length_le
    rw [trim, hstart] at htrim
    exact ⟨(trimStart_eq_self_iff word).1 hstart, (trimEnd_eq_self_iff word).1 htrim⟩
  · rintro ⟨hstart, hend⟩
    rw [trim, (trimStart_eq_self_iff word).2 hstart, (trimEnd_eq_self_iff word).2 hend]

theorem pieces_eq_splitOn (separator : Char) (text : List Char) :
    pieces separator text = text.splitOn separator := by
  induction text with
  | nil => rw [pieces, List.splitOn_nil]
  | cons c rest ih =>
      rw [pieces, List.splitOn_cons_eq_if_modifyHead, ih]
      by_cases hc : c = separator
      · simp [hc]
      · cases hpieces : rest.splitOn separator with
        | nil => exact absurd hpieces (List.splitOn_ne_nil _ _)
        | cons piece others => simp [hc]

/-- A separator ends the pieces in front of it. -/
theorem pieces_append (separator : Char) (first second : List Char) :
    pieces separator (first ++ separator :: second) =
      pieces separator first ++ pieces separator second := by
  simp only [pieces_eq_splitOn]
  exact List.splitOn_append_cons_self ..

end Text

namespace Path

theorem isSegment_iff (s : String) :
    IsSegment s ↔ s ≠ "" ∧ separator ∉ s.toList ∧ Text.Tight s.toList := by
  rw [IsSegment, Text.trim_eq_self_iff]

/-- Two texts with a slash between them are read one after the other. -/
theorem parse_append (first second : String) :
    parse (first ++ "/" ++ second) = parse first ++ parse second := by
  have htext : (first ++ "/" ++ second).toList =
      first.toList ++ separator :: second.toList := by
    simp [separator]
  apply congrArg Path.mk
  rw [htext, Text.pieces_append, List.map_append, List.filter_append, List.map_append]
  rfl

theorem text_cons_cons (first second : String) (rest : List String) :
    text ⟨first :: second :: rest⟩ = first ++ "/" ++ text ⟨second :: rest⟩ :=
  String.intercalate_cons_cons

/-- The text of a normal path is read segment by segment. -/
theorem parse_text_of_normal {p : Path} (hp : p.Normal) : parse p.text = p := by
  obtain ⟨segments⟩ := p
  induction segments with
  | nil => rfl
  | cons first rest ih =>
      obtain ⟨hfirst, hrest⟩ := List.forall_mem_cons.1 hp
      cases rest with
      | nil =>
          rw [text, String.intercalate_singleton]
          exact parse_of_isSegment hfirst
      | cons second others =>
          rw [text_cons_cons, parse_append, parse_of_isSegment hfirst, ih hrest]
          rfl

theorem parse_text_iff (p : Path) : parse p.text = p ↔ p.Normal := by
  constructor
  · intro hsame
    rw [← hsame]
    exact normal_parse p.text
  · exact parse_text_of_normal

/--
Text stands for paths whose segments are not empty, hold no slash and have no
blank at either end: these and no others come back when their text is read.  So
what is read from any text comes back, and a slash joins texts as paths are
joined.
-/
theorem text_faithful :
    (∀ p : Path, parse p.text = p ↔
      ∀ s ∈ p.segments, s ≠ "" ∧ '/' ∉ s.toList ∧ Text.Tight s.toList) ∧
      (∀ t : String, parse (parse t).text = parse t) ∧
      ∀ s t : String, parse (s ++ "/" ++ t) = parse s ++ parse t := by
  refine ⟨fun p => ?_, fun t => ?_, parse_append⟩
  · rw [parse_text_iff]
    exact forall₂_congr fun s _ => isSegment_iff s
  · exact parse_text_of_normal (normal_parse t)

end Path

end Deliberation
