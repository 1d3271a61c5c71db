import Deliberation.Proofs.Belief.Normal

/-!
# Taking the path off a functor

A view keeps a literal without the path of its functor and puts the path back when
the literal is read.  What is kept is the name read as a path of its own, and the
literal as it is if the name is blank.  So the functor comes back if its name reads
back as itself, as every name that is read from text does.
-/

namespace Deliberation

namespace Symbol

/-- The functor under which a literal is kept: its name read as a path. -/
def stripped (f : Symbol) : Symbol := (ofPath? (Path.parse f.name)).getD f

/-- Whether the name of a functor stays as it is when the path is taken off. -/
def KeepsName (f : Symbol) : Prop := Path.IsSegment f.name ∨ Path.parse f.name = .empty

/-- Whether a functor comes back when its path is taken off and put back. -/
def Restorable (f : Symbol) : Prop :=
  Path.IsSegment f.name ∨ Path.parse f.name = .empty ∧ f.view = .empty

instance (f : Symbol) : Decidable f.KeepsName :=
  inferInstanceAs (Decidable (Path.IsSegment f.name ∨ Path.parse f.name = .empty))

instance (f : Symbol) : Decidable f.Restorable :=
  inferInstanceAs (Decidable
    (Path.IsSegment f.name ∨ Path.parse f.name = .empty ∧ f.view = .empty))

theorem stripped_of_isSegment {f : Symbol} (h : Path.IsSegment f.name) :
    f.stripped = ⟨.empty, f.name⟩ := by
  rw [stripped, Path.parse_of_isSegment h]
  rfl

theorem stripped_of_blank {f : Symbol} (h : Path.parse f.name = .empty) : f.stripped = f := by
  rw [stripped, h]
  rfl

theorem KeepsName.name_stripped {f : Symbol} (h : f.KeepsName) : f.stripped.name = f.name := by
  rcases h with hsegment | hblank
  · rw [stripped_of_isSegment hsegment]
  · rw [stripped_of_blank hblank]

/-- A name that is not blank is kept with the segments that it is read as. -/
theorem path_stripped {f : Symbol} (h : Path.parse f.name ≠ .empty) :
    f.stripped.path = Path.parse f.name := by
  generalize hp : Path.parse f.name = p at h
  obtain ⟨segments⟩ := p
  rcases List.eq_nil_or_concat segments with rfl | ⟨front, last, rfl⟩
  · exact absurd rfl h
  · rw [stripped, hp, ofPath?]
    simp [Path.isEmpty, Path.parent, Path.last, path]

/-- Functors of one view whose names are kept are told apart by what is kept. -/
theorem KeepsName.stripped_inj {f f' : Symbol} (h : f.KeepsName) (h' : f'.KeepsName)
    (hview : f.view = f'.view) : f.stripped = f'.stripped ↔ f = f' := by
  refine ⟨fun hsame => ?_, congrArg _⟩
  have hname : f.name = f'.name := by rw [← h.name_stripped, hsame, h'.name_stripped]
  obtain ⟨view, name⟩ := f
  exact congrArg₂ Symbol.mk hview hname

/-- Only a functor with a proper name comes back, or one that is a blank name without a path. -/
theorem restored_iff (f : Symbol) :
    (⟨f.view ++ f.stripped.view, f.stripped.name⟩ : Symbol) = f ↔ f.Restorable := by
  by_cases hblank : Path.parse f.name = .empty
  · have hname : ¬ Path.IsSegment f.name := fun hsegment => by
      rw [Path.parse_of_isSegment hsegment] at hblank
      cases hblank
    rw [stripped_of_blank hblank, Restorable, or_iff_right hname, and_iff_right hblank]
    obtain ⟨⟨view⟩, name⟩ := f
    constructor
    · intro hsame
      have hview : view ++ view = view := congrArg (fun f => f.view.segments) hsame
      exact congrArg Path.mk (List.append_right_eq_self.1 hview)
    · intro hempty
      cases hempty
      rfl
  · constructor
    · intro hsame
      have hviews := congrArg (fun f => f.view.segments) hsame
      have hname := congrArg Symbol.name hsame
      have hview : f.stripped.view.segments = [] := List.append_right_eq_self.1 hviews
      have hparse : Path.parse f.name = ⟨[f.name]⟩ := by
        rw [← path_stripped hblank, path, hview, hname]
        rfl
      refine Or.inl (Path.normal_parse f.name f.name ?_)
      rw [hparse]
      exact List.mem_singleton_self _
    · intro hrestorable
      have hsegment := hrestorable.resolve_right fun h => hblank h.1
      rw [stripped_of_isSegment hsegment]
      exact congrArg (Symbol.mk · f.name) (congrArg Path.mk (List.append_nil _))

end Symbol

namespace Literal

theorem inView_eq (l : Literal) : l.inView = { l with functor := l.functor.stripped } := by
  unfold inView Symbol.stripped
  cases Symbol.ofPath? (Path.parse l.functor.name) with
  | none => obtain ⟨functor, arguments, annotations, negated, marked⟩ := l; rfl
  | some f => rfl

theorem under_inView_eq (l : Literal) :
    l.inView.under l.functor.view =
      { l with
        functor := ⟨l.functor.view ++ l.functor.stripped.view, l.functor.stripped.name⟩ } := by
  rw [inView_eq]
  rfl

/-- Equality of literals that differ in their functors only depends on the functors. -/
theorem equal_congr_of_functor (heap : Heap) (l m : Literal) (f f' : Symbol)
    (h : f = f' ↔ l.functor = m.functor) :
    Literal.equal heap { l with functor := f } { m with functor := f' } = l.equal heap m := by
  rw [Bool.eq_iff_iff, equal_iff, equal_iff]
  dsimp only
  rw [h]

/-- The functor of a literal that is made from text has segments that read back as themselves. -/
theorem normal_of_ofText {text : String} {arguments : List Term} {l : Literal}
    (h : ofText text arguments = .ok l) : l.Normal := by
  unfold ofText build at h
  dsimp only at h
  generalize String.ofList (text.toList.filter _) = functor at h
  cases hf : Symbol.ofPath? (Path.parse functor) with
  | none =>
      rw [hf] at h
      cases h
  | some f =>
      rw [hf] at h
      cases h
      exact Symbol.normal_of_ofPath? hf

/--
Taking the path off a functor and putting it back gives the literal again exactly
when the name reads back as itself, or is blank and has no path; otherwise the two
are not even equal.  Literals of one view whose names are kept are equal exactly
when they are equal in the view.  Every literal from text has such a name.
-/
theorem strip_and_restore (heap : Heap) (l : Literal) :
    (l.functor.Restorable → l.inView.under l.functor.view = l) ∧
      (¬ l.functor.Restorable → (l.inView.under l.functor.view).equal heap l = false) ∧
      (∀ m : Literal, l.functor.view = m.functor.view → l.functor.KeepsName →
        m.functor.KeepsName → l.inView.equal heap m.inView = l.equal heap m) ∧
      ∀ text arguments, ofText text arguments = .ok l →
        l.functor.Restorable ∧ l.functor.KeepsName := by
  refine ⟨fun h => ?_, fun h => ?_, fun m hview hl hm => ?_, fun text arguments h => ?_⟩
  · obtain ⟨functor, arguments, annotations, negated, marked⟩ := l
    exact (under_inView_eq _).trans (congrArg (Literal.mk · arguments annotations negated marked)
      ((Symbol.restored_iff functor).2 h))
  · rw [under_inView_eq, Bool.eq_false_iff]
    intro hequal
    exact h ((Symbol.restored_iff l.functor).1 ((equal_iff heap _ _).1 hequal).1.1)
  · rw [inView_eq, inView_eq]
    exact equal_congr_of_functor heap l m _ _ (hl.stripped_inj hm hview)
  · have hname := (normal_of_ofText h).name
    exact ⟨Or.inl hname, Or.inl hname⟩

/-- A name with a blank in front loses it, and is then the same as the name without the blank. -/
theorem strip_and_restore_changes_name :
    (inView ⟨⟨⟨["v"]⟩, " x"⟩, [], [], false, false⟩).under ⟨["v"]⟩ =
        ⟨⟨⟨["v"]⟩, "x"⟩, [], [], false, false⟩ ∧
      equal {} ⟨⟨⟨["v"]⟩, "x"⟩, [], [], false, false⟩
        ⟨⟨⟨["v"]⟩, " x"⟩, [], [], false, false⟩ = false ∧
      (inView ⟨⟨⟨["v"]⟩, " x"⟩, [], [], false, false⟩).equal {}
        (inView ⟨⟨⟨["v"]⟩, "x"⟩, [], [], false, false⟩) = true :=
  ⟨rfl, rfl, rfl⟩

/-- A functor from text comes back and is told from others; a name with a slash is changed. -/
theorem strip_and_restore_of_text :
    ofText " v / x" [.raw (.int 1)] = .ok ⟨⟨⟨["v"]⟩, "x"⟩, [.raw (.int 1)], [], false, false⟩ ∧
      (inView ⟨⟨⟨["v"]⟩, "x"⟩, [.raw (.int 1)], [], false, false⟩).under ⟨["v"]⟩ =
        ⟨⟨⟨["v"]⟩, "x"⟩, [.raw (.int 1)], [], false, false⟩ ∧
      (inView ⟨⟨⟨["v"]⟩, "x"⟩, [.raw (.int 1)], [], false, false⟩).equal {}
        (inView ⟨⟨⟨["v"]⟩, " "⟩, [.raw (.int 1)], [], false, false⟩) = false ∧
      ((inView ⟨⟨⟨["v"]⟩, "a/b"⟩, [], [], false, false⟩).under ⟨["v"]⟩).equal {}
        ⟨⟨⟨["v"]⟩, "a/b"⟩, [], [], false, false⟩ = false := by
  have htext : ofText " v / x" [.raw (.int 1)] =
      .ok ⟨⟨⟨["v"]⟩, "x"⟩, [.raw (.int 1)], [], false, false⟩ := by rfl
  obtain ⟨hrestore, -, hsame, hnormal⟩ := strip_and_restore {}
    ⟨⟨⟨["v"]⟩, "x"⟩, [.raw (.int 1)], [], false, false⟩
  obtain ⟨hrestorable, hkeeps⟩ := hnormal _ _ htext
  refine ⟨htext, hrestore hrestorable, ?_, ?_⟩
  · refine (hsame _ ?_ hkeeps (Or.inr (by decide))).trans ?_
    · rfl
    · rfl
  · obtain ⟨-, hchanged, -, -⟩ := strip_and_restore {} ⟨⟨⟨["v"]⟩, "a/b"⟩, [], [], false, false⟩
    exact hchanged (by decide)

end Literal

end Deliberation
