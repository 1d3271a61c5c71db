import Deliberation.Path
import Mathlib.Data.List.DropRight

/-!
# Normal paths

A segment is normal when reading it as a path gives it back: it is not empty,
holds no separator, and has no blank at either end.  Reading any text gives
normal segments only.
-/

namespace Deliberation

namespace Text

theorem trimEnd_isPrefix (word : List Char) : trimEnd word <+: word :=
  List.rdropWhile_prefix isBlank word

/-- What trimming leaves at the start has no blank in front, so trimming again does nothing. -/
theorem trim_trim (word : List Char) : trim (trim word) = trim word := by
  have hstart : trimStart (trim word) = trim word := by
    obtain ⟨behind, hbehind⟩ := trimEnd_isPrefix (trimStart word)
    refine List.dropWhile_eq_self_iff.2 ?_
    intro hlength
    have hfixed : trimStart (trimStart word) = trimStart word :=
      List.dropWhile_idempotent (p := isBlank) (l := word)
    have hfirst := List.dropWhile_eq_self_iff.1 hfixed
      (Nat.lt_of_lt_of_le hlength (List.IsPrefix.length_le ⟨behind, hbehind⟩))
    rwa [← List.IsPrefix.getElem ⟨behind, hbehind⟩ hlength] at hfirst
  unfold trim at hstart ⊢
  rw [hstart]
  exact List.rdropWhile_idempotent isBlank (trimStart word)

theorem trim_sublist (word : List Char) : (trim word).Sublist word :=
  (trimEnd_isPrefix _).sublist.trans (List.dropWhile_sublist isBlank)

theorem separator_not_mem_of_mem_pieces {separator : Char} {text piece : List Char}
    (hpiece : piece ∈ pieces separator text) : separator ∉ piece := by
  induction text generalizing piece with
  | nil =>
      rw [List.mem_singleton.1 hpiece]
      exact List.not_mem_nil
  | cons c rest ih =>
      unfold pieces at hpiece
      split at hpiece
      · rcases List.mem_cons.1 hpiece with rfl | hrest
        · exact List.not_mem_nil
        · exact ih hrest
      · rename_i hc
        split at hpiece
        · rw [List.mem_singleton.1 hpiece]
          simp [Ne.symm hc]
        · rename_i first others heq
          rcases List.mem_cons.1 hpiece with rfl | hothers
          · have hfirst : separator ∉ first := ih (heq ▸ List.mem_cons_self)
            simp [Ne.symm hc, hfirst]
          · exact ih (heq ▸ List.mem_cons_of_mem first hothers)

theorem pieces_of_not_mem {separator : Char} {text : List Char} (h : separator ∉ text) :
    pieces separator text = [text] := by
  induction text with
  | nil => rfl
  | cons c rest ih =>
      have hc : c ≠ separator := fun hc => h (hc ▸ List.mem_cons_self)
      have hrest : separator ∉ rest := fun hrest => h (List.mem_cons_of_mem c hrest)
      simp [pieces, hc, ih hrest]

end Text

namespace Path

theorem parent_concat_last {p : Path} (hp : p.isEmpty = false) :
    p.parent.segments ++ [p.last] = p.segments := by
  have hne : p.segments ≠ [] := by simpa [isEmpty] using hp
  rw [parent, last, List.getLastD_eq_getLast?, List.getLast?_eq_some_getLast hne]
  exact List.dropLast_concat_getLast hne

/-- Whether a text is a segment that reads back as itself. -/
def IsSegment (s : String) : Prop :=
  s ≠ "" ∧ separator ∉ s.toList ∧ Text.trim s.toList = s.toList

instance (s : String) : Decidable (IsSegment s) :=
  inferInstanceAs (Decidable (s ≠ "" ∧ separator ∉ s.toList ∧ Text.trim s.toList = s.toList))

/-- Whether all segments of a path are as reading a path gives them. -/
def Normal (p : Path) : Prop := ∀ s ∈ p.segments, IsSegment s

instance (p : Path) : Decidable p.Normal :=
  inferInstanceAs (Decidable (∀ s ∈ p.segments, IsSegment s))

theorem normal_parse (text : String) : (parse text).Normal := by
  intro s hs
  simp only [parse, List.mem_map, List.mem_filter] at hs
  obtain ⟨word, ⟨⟨piece, hpiece, rfl⟩, hword⟩, rfl⟩ := hs
  refine ⟨?_, ?_, ?_⟩
  · simpa using hword
  · intro hmem
    rw [String.toList_ofList] at hmem
    exact Text.separator_not_mem_of_mem_pieces hpiece ((Text.trim_sublist piece).subset hmem)
  · rw [String.toList_ofList, Text.trim_trim]

theorem parse_of_isSegment {s : String} (h : IsSegment s) : parse s = ⟨[s]⟩ := by
  obtain ⟨hne, hseparator, htrim⟩ := h
  have hword : s.toList ≠ [] := by simpa using hne
  simp [parse, Text.pieces_of_not_mem hseparator, htrim, hword]

end Path

end Deliberation
