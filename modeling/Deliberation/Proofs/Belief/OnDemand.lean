import Deliberation.Proofs.Belief.Leaves

/-!
# Views on demand

A view can be made on demand from the part of a document under a path.  Where the
path leads to an object or nowhere, the view lists what the view of the whole
document lists below the path.  An array or a scalar is listed under `value`, where
the whole view, which has a literal in the place of the path, lists nothing.
-/

namespace Deliberation

namespace BeliefGraph

/-- The entries of the object whose view is made for what a path leads to. -/
def onDemand : Option Document → List (String × Document)
  | none => []
  | some (.object inner) => inner
  | some leaf => [("value", leaf)]

theorem onDemand_of_not_isObject {content : Document} (hleaf : content.isObject = false) :
    onDemand (some content) = [("value", content)] := by
  cases content with
  | object inner => cases hleaf
  | _ => rfl

/-- An array or a scalar is the entry `value` of an object. -/
theorem ofDocument_of_not_isObject {content : Document} (hleaf : content.isObject = false)
    (g : BeliefGraph) (name : String) :
    g.ofDocument name content = g.ofDocument name (.object [("value", content)]) := by
  rw [ofDocument_object, addEntries_cons_leaf hleaf, addEntries_nil]
  cases content with
  | object inner => cases hleaf
  | _ => rw [ofDocument, ofLeaf]

/-- A view on demand is the view of an object. -/
theorem fromDocument_eq (d : Document) (g : BeliefGraph) (name : String) (parent : Path) :
    fromDocument d g name parent =
      g.ofDocument name (.object (onDemand (d.walk? (parent.push name).segments))) := by
  unfold fromDocument
  cases d.walk? (parent.push name).segments with
  | none =>
      refine Eq.symm ((ofDocument_object g name []).trans ?_)
      rw [addEntries_nil]
  | some part =>
      cases part with
      | object inner => rfl
      | _ => exact ofDocument_of_not_isObject rfl g name

theorem ordered_onDemand {d : Document} (h : d.Ordered) (way : List String) :
    (Document.object (onDemand (d.walk? way))).Ordered := by
  cases hpart : d.walk? way with
  | none => exact Document.ordered_nil
  | some part =>
      cases part with
      | object inner => exact h.inside hpart
      | _ => exact Document.ordered_singleton rfl

theorem plain_onDemand {d : Document} (h : d.Plain) (way : List String) :
    (Document.object (onDemand (d.walk? way))).Plain := by
  cases hpart : d.walk? way with
  | none => exact Document.keyed_nil _
  | some part =>
      cases part with
      | object inner => exact h.inside hpart
      | _ =>
          exact Document.Keyed.cons (Q := Path.IsSegment) (by decide)
            (Document.keyed_of_not_isObject rfl) (Document.keyed_nil _)

/-- A generator is asked for the last segment of a path below all others. -/
theorem push_last {p : Path} (hp : p.isEmpty = false) (hnormal : p.Normal) :
    p.parent.push p.last = p := by
  have hlast : p.last ∈ p.segments := by
    rw [← Path.parent_concat_last hp]
    exact List.mem_append_right _ List.mem_cons_self
  rw [Path.push_of_ne _ (hnormal p.last hlast).1]
  exact congrArg Path.mk (Path.parent_concat_last hp)

section Readings

variable {entries : List (String × Document)} (hordered : (Document.object entries).Ordered)
  (hplain : (Document.object entries).Plain)

include hordered hplain

/-- A functor below a path, read in the view of the whole document. -/
theorem get?_literals_below {g eager : BeliefGraph} {v : ViewId} {name : String}
    (heager : g.ofDocument name (.object entries) = (eager, v)) (p : Path) (f : Symbol) :
    (eager.literals v).get? (p ++ f.path) =
      (((Document.object entries).walk? p.segments).bind
        (Document.leafAt? · f.path.segments)).map fun content =>
          [(leafLiteral f content).under p] := by
  have hpath : p ++ f.path = Symbol.path ⟨p ++ f.view, f.name⟩ :=
    congrArg Path.mk (List.append_assoc p.segments f.view.segments [f.name]).symm
  rw [← Document.leafAt?_append, ← Path.append_segments, hpath,
    get?_literals_of_made hordered hplain heager]
  rfl

/-- A functor read in a view on demand. -/
theorem get?_literals_onDemand {g lazy : BeliefGraph} {w : ViewId} {p : Path}
    (hp : p.isEmpty = false) (hnormal : p.Normal)
    (hlazy : fromDocument (.object entries) g p.last p.parent = (lazy, w)) (f : Symbol) :
    (lazy.literals w).get? f.path =
      ((Document.object (onDemand ((Document.object entries).walk? p.segments))).leafAt?
        f.path.segments).map fun content => [leafLiteral f content] := by
  rw [fromDocument_eq, push_last hp hnormal] at hlazy
  exact get?_literals_of_made (ordered_onDemand hordered _) (plain_onDemand hplain _) hlazy f

end Readings

/--
A view on demand agrees with the view of the whole document.  Where the path leads
to an object or nowhere, it lists the literals that the whole view lists strictly
below the path, none if it leads nowhere; where the path leads to an array or a
scalar, it lists the content under `value`, and the whole view lists nothing there.
-/
theorem view_on_demand_agrees {g g' eager lazy : BeliefGraph} {v w : ViewId} {name : String}
    {entries : List (String × Document)} (hordered : (Document.object entries).Ordered)
    (hplain : (Document.object entries).Plain) {p : Path} (hp : p.isEmpty = false)
    (hnormal : p.Normal) (heager : g.ofDocument name (.object entries) = (eager, v))
    (hlazy : fromDocument (.object entries) g' p.last p.parent = (lazy, w)) :
    ((∀ content, (Document.object entries).walk? p.segments = some content →
        content.isObject = true) →
      ∀ q, ((lazy.literals w).get? q).map (List.map (Literal.under p)) =
        if q.isEmpty then none else (eager.literals v).get? (p ++ q)) ∧
      ((Document.object entries).walk? p.segments = none →
        ∀ q, (lazy.literals w).get? q = none) ∧
      ∀ content, (Document.object entries).walk? p.segments = some content →
        content.isObject = false →
        (∀ q, (lazy.literals w).get? q =
          if q = ⟨["value"]⟩ then
            some [⟨⟨.empty, "value"⟩, leafArguments content, [], false, false⟩]
          else none) ∧
          ∀ q, q.isEmpty = false → (eager.literals v).get? (p ++ q) = none := by
  have hwhole := get?_literals_below hordered hplain heager p
  have hpart := get?_literals_onDemand hordered hplain hp hnormal hlazy
  refine ⟨fun hobject q => ?_, fun hnone q => ?_, fun content hcontent hleaf =>
    ⟨fun q => ?_, fun q hq => ?_⟩⟩
  · induction q using Symbol.path_cases with
    | empty =>
        rw [get?_literals_empty]
        rfl
    | functor f =>
        have hne : ¬ f.path.isEmpty = true := by simp [Symbol.path, Path.isEmpty]
        rw [if_neg hne, hpart, hwhole, Option.map_map]
        cases hthere : (Document.object entries).walk? p.segments with
        | none =>
            rw [onDemand, Document.leafAt?_path_nil]
            rfl
        | some part =>
            have hinner := hobject part hthere
            cases part with
            | object inner => rfl
            | _ => cases hinner
  · induction q using Symbol.path_cases with
    | empty => exact get?_literals_empty lazy w
    | functor f =>
        rw [hpart, hnone, onDemand, Document.leafAt?_path_nil]
        rfl
  · induction q using Symbol.path_cases with
    | empty =>
        rw [get?_literals_empty]
        rfl
    | functor f =>
        rw [hpart, hcontent, onDemand_of_not_isObject hleaf, Document.leafAt?_singleton hleaf]
        by_cases hf : f.path = ⟨["value"]⟩
        · have hsymbol : f = ⟨.empty, "value"⟩ := Symbol.path_inj.1 hf
          rw [if_pos hf, if_pos (congrArg Path.segments hf), hsymbol]
          rfl
        · have hsegments : f.path.segments ≠ ["value"] := fun h => hf (congrArg Path.mk h)
          rw [if_neg hf, if_neg hsegments]
          rfl
  · obtain ⟨f, rfl⟩ := Symbol.exists_path_eq hq
    rw [hwhole, hcontent, Option.bind_some, Document.leafAt?_path_of_not_isObject hleaf]
    rfl

/-- The view on demand for the number at `a` lists a literal, the whole view nothing below `a`. -/
theorem view_on_demand_states_value :
    ((fromDocument (.object [("a", .int 1)]) {} "a" .empty).1.literals
        (fromDocument (.object [("a", .int 1)]) {} "a" .empty).2).get? ⟨["value"]⟩ =
      some [⟨⟨.empty, "value"⟩, [.raw (.int 1)], [], false, false⟩] ∧
      ((({} : BeliefGraph).ofDocument "" (.object [("a", .int 1)])).1.literals root).get?
        ⟨["a", "value"]⟩ = none := by
  have hlazy : fromDocument (.object [("a", .int 1)]) {} "a" .empty =
      ({} : BeliefGraph).ofDocument "a" (.int 1) := rfl
  refine ⟨?_, ?_⟩
  · rw [hlazy, ofDocument_of_not_isObject rfl, ofDocument_object, addEntries_cons_leaf rfl,
      addEntries_nil]
    rfl
  · rw [ofDocument_object, addEntries_cons_leaf rfl, addEntries_nil]
    rfl

/-- The array at `b` is read from a view on demand for `a` as from the whole view. -/
theorem view_on_demand_agrees_nested :
    (Document.object nested).Ordered ∧ (Document.object nested).Plain ∧
      ∃ eager v lazy w, ({} : BeliefGraph).ofDocument "d" (.object nested) = (eager, v) ∧
        fromDocument (.object nested) {} "a" .empty = (lazy, w) ∧
        ((lazy.literals w).get? ⟨["b"]⟩).map (List.map (Literal.under ⟨["a"]⟩)) =
          (eager.literals v).get? ⟨["a", "b"]⟩ := by
  have heager : ({} : BeliefGraph).ofDocument "d" (.object nested) = (_, _) := rfl
  have hlazy : fromDocument (.object nested) {} (Path.mk ["a"]).last (Path.mk ["a"]).parent =
    (_, _) := rfl
  obtain ⟨hagrees, -, -⟩ := view_on_demand_agrees ordered_nested plain_nested rfl (by decide)
    heager hlazy
  refine ⟨ordered_nested, plain_nested, _, _, _, _, rfl, rfl, hagrees ?_ ⟨["b"]⟩⟩
  rintro content ⟨⟩
  rfl

end BeliefGraph

end Deliberation
