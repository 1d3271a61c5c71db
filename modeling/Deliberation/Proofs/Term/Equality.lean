import Deliberation.Proofs.Value.Equality
import Deliberation.Term.Identity

/-!
# Equality of literals

Two literals are equal when their functors and flags are the same and their
arguments are alike, in their identity keys and in their contents.  This is
equality of keys, and so an equivalence, since equality of values is one.
-/

namespace Deliberation

theorem Symbol.path_inj {f f' : Symbol} : f.path = f'.path ↔ f = f' := by
  refine ⟨fun h => ?_, congrArg _⟩
  obtain ⟨⟨view⟩, name⟩ := f
  obtain ⟨⟨view'⟩, name'⟩ := f'
  obtain ⟨hview, hname⟩ := List.append_inj' (Path.mk.inj h) rfl
  exact congrArg₂ (fun view name => Symbol.mk ⟨view⟩ name) hview (List.singleton_inj.1 hname)

namespace Literal

theorem identity_eq_iff (l m : Literal) :
    l.identity = m.identity ↔ l.functor = m.functor ∧ l.negated = m.negated ∧
      l.marked = m.marked ∧ Term.identityAll l.arguments = Term.identityAll m.arguments := by
  obtain ⟨functor, arguments, annotations, negated, marked⟩ := l
  obtain ⟨otherFunctor, otherArguments, otherAnnotations, otherNegated, otherMarked⟩ := m
  simp [identity]

theorem equal_iff (heap : Heap) (l m : Literal) :
    l.equal heap m = true ↔
      (l.functor = m.functor ∧ l.negated = m.negated ∧ l.marked = m.marked ∧
        Term.identityAll l.arguments = Term.identityAll m.arguments) ∧
      Term.equalAll heap l.arguments m.arguments = true := by
  obtain ⟨functor, arguments, annotations, negated, marked⟩ := l
  simp [equal, identity_eq_iff]

theorem identity_of_equal {heap : Heap} {l m : Literal} (h : l.equal heap m = true) :
    l.identity = m.identity :=
  (identity_eq_iff l m).2 ((equal_iff heap l m).1 h).1

end Literal

/-! ## Contents -/

/-- What equality sees of a term: the contents of raw values beside the identities of literals. -/
inductive ContentKey (heap : Heap) where
  | value (content : Quotient heap.equality)
  | var (name : Path)
  | literal (key : IdentityKey) (arguments : List (ContentKey heap))

mutual

def Term.content (heap : Heap) : Term → ContentKey heap
  | .raw v => .value (heap.meaning v)
  | .var x => .var x.name
  | .lit l => l.content heap

def Literal.content (heap : Heap) : Literal → ContentKey heap
  | ⟨functor, arguments, annotations, negated, marked⟩ =>
      .literal (Literal.mk functor arguments annotations negated marked).identity
        (Term.contentAll heap arguments)

def Term.contentAll (heap : Heap) : List Term → List (ContentKey heap)
  | [] => []
  | t :: rest => t.content heap :: Term.contentAll heap rest

end

section Content

variable (heap : Heap)

mutual

theorem Term.equal_iff_content :
    ∀ t u : Term, t.equal heap u = true ↔ t.content heap = u.content heap
  | .raw v, u => by
      cases u with
      | raw w => simp [Term.equal, Term.content, heap.equal_iff_meaning]
      | var x => simp [Term.equal, Term.content]
      | lit m => obtain ⟨⟩ := m; simp [Term.equal, Term.content, Literal.content]
  | .var x, u => by
      cases u with
      | raw w => simp [Term.equal, Term.content]
      | var y => simp [Term.equal, Term.content]
      | lit m => obtain ⟨⟩ := m; simp [Term.equal, Term.content, Literal.content]
  | .lit l, u => by
      cases u with
      | raw w => obtain ⟨⟩ := l; simp [Term.equal, Term.content, Literal.content]
      | var y => obtain ⟨⟩ := l; simp [Term.equal, Term.content, Literal.content]
      | lit m => simpa [Term.equal, Term.content] using Literal.equal_iff_content l m

theorem Literal.equal_iff_content :
    ∀ l m : Literal, l.equal heap m = true ↔ l.content heap = m.content heap
  | ⟨functor, arguments, annotations, negated, marked⟩, m => by
      have harguments := Term.equalAll_iff_content arguments m.arguments
      obtain ⟨⟩ := m
      simp [Literal.equal, Literal.content, harguments]

theorem Term.equalAll_iff_content :
    ∀ ts us : List Term,
      Term.equalAll heap ts us = true ↔ Term.contentAll heap ts = Term.contentAll heap us
  | [], us => by cases us <;> simp [Term.equalAll, Term.contentAll]
  | t :: ts, [] => by simp [Term.equalAll, Term.contentAll]
  | t :: ts, u :: us => by
      simp [Term.equalAll, Term.contentAll, Term.equal_iff_content t u,
        Term.equalAll_iff_content ts us]

end

end Content

end Deliberation
