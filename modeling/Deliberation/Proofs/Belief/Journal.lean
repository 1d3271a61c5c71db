import Deliberation.Plan.Trigger
import Deliberation.Proofs.Belief.Changes
import Deliberation.Proofs.Belief.Normal

/-!
# Belief triggers as a journal

A list of triggers is replayed on a tree of beliefs by making the changes that
they announce.  It is genuine when each trigger announces a real change of what
was replayed before it: what is added was not held, and what is deleted was.  The
triggers of a genuine list that are about one belief alternate.
-/

namespace Deliberation

/-- Whether two literals are one belief: they belong to one view and are equal there. -/
def Literal.sameBelief (heap : Heap) (l m : Literal) : Bool :=
  decide (l.functor.view = m.functor.view) && l.inView.equal heap m.inView

/-- Among normal literals a belief is told apart by equality. -/
theorem Literal.sameBelief_of_normal (heap : Heap) {l m : Literal} (hl : l.Normal)
    (hm : m.Normal) : l.sameBelief heap m = l.equal heap m := by
  rw [equal_eq_inView heap hl hm, sameBelief]
  cases hequal : l.inView.equal heap m.inView with
  | false => rw [Bool.and_false, Bool.and_false]
  | true =>
      obtain ⟨⟨⟨view⟩, name⟩, arguments, annotations, negated, marked⟩ := l
      obtain ⟨⟨⟨view'⟩, name'⟩, arguments', annotations', negated', marked'⟩ := m
      simp [bucketOf_eq_of_equal hequal]

/-- The kinds of triggers that say in turn that something holds and does not hold any more. -/
def Alternating : Bool → List TriggerKind → Prop
  | _, [] => True
  | held, kind :: rest =>
      kind = (if held then .deleteBelief else .addBelief) ∧ Alternating (!held) rest

namespace BeliefGraph

variable {heap : Heap} {g : BeliefGraph}

/-- Make the change that a trigger announces; a goal announces none. -/
def follow (heap : Heap) (g : BeliefGraph) (t : Trigger) : BeliefGraph :=
  match t.kind with
  | .addBelief =>
      match g.add heap root t.literal (some blank) with
      | .ok (_, after) => after
      | .error _ => g
  | .deleteBelief => (g.remove heap root t.literal).2
  | .addGoal => g
  | .deleteGoal => g

/-- Make the changes that triggers announce, in turn. -/
def replay (heap : Heap) (g : BeliefGraph) (triggers : List Trigger) : BeliefGraph :=
  triggers.foldl (follow heap) g

/-- Whether a trigger announces a real change: an addition of what is not held, or a deletion of
what is. -/
def Announces (heap : Heap) (g : BeliefGraph) (t : Trigger) : Prop :=
  match t.kind with
  | .addBelief => g.containsLiteral heap root t.literal = false
  | .deleteBelief => g.containsLiteral heap root t.literal = true
  | .addGoal => True
  | .deleteGoal => True

/-- Whether each trigger announces a real change of what the triggers before it leave. -/
def Genuine (heap : Heap) (g : BeliefGraph) : List Trigger → Prop
  | [] => True
  | t :: rest => g.Announces heap t ∧ Genuine heap (g.follow heap t) rest

theorem replay_append (first second : List Trigger) :
    g.replay heap (first ++ second) = (g.replay heap first).replay heap second :=
  List.foldl_append

theorem genuine_append (first second : List Trigger) :
    g.Genuine heap (first ++ second) ↔
      g.Genuine heap first ∧ (g.replay heap first).Genuine heap second := by
  induction first generalizing g with
  | nil => simp [Genuine, replay]
  | cons t rest ih => simp [Genuine, ih, replay, and_assoc]

/-! ## Triggers on a tree -/

theorem follow_added (htree : g.IsTree) {l : Literal}
    (hnew : g.containsLiteral heap root l = false) :
    Added g l (g.follow heap ⟨.addBelief, l⟩) := by
  obtain ⟨after, hadd, hadded⟩ := add_blank_of_not_contains htree hnew
  simp only [follow, hadd]
  exact hadded

theorem follow_removed (htree : g.IsTree) {l : Literal}
    (hheld : g.containsLiteral heap root l = true) :
    Removed heap g l (g.follow heap ⟨.deleteBelief, l⟩) := by
  obtain ⟨after, hremove, hremoved⟩ := remove_of_contains htree hheld
  simp only [follow, hremove]
  exact hremoved

theorem isTree_follow (htree : g.IsTree) (t : Trigger) : (g.follow heap t).IsTree := by
  obtain ⟨kind, l⟩ := t
  cases kind with
  | addBelief =>
      cases hheld : g.containsLiteral heap root l with
      | false => exact (follow_added htree hheld).tree
      | true =>
          simp only [follow, add_of_contains hheld]
          exact htree
  | deleteBelief =>
      cases hheld : g.containsLiteral heap root l with
      | true => exact (follow_removed htree hheld).tree
      | false =>
          simp only [follow, remove_of_not_contains hheld]
          exact htree
  | addGoal => exact htree
  | deleteGoal => exact htree

theorem isTree_replay (htree : g.IsTree) (triggers : List Trigger) :
    (g.replay heap triggers).IsTree := by
  unfold replay
  induction triggers generalizing g with
  | nil => exact htree
  | cons t rest ih => exact ih (isTree_follow htree t)

/-- Goals can be left out of a journal. -/
theorem replay_filter (triggers : List Trigger) :
    g.replay heap (triggers.filter fun t => !t.isGoal) = g.replay heap triggers := by
  unfold replay
  induction triggers generalizing g with
  | nil => rfl
  | cons t rest ih =>
      obtain ⟨kind, l⟩ := t
      cases kind <;> exact ih

theorem Genuine.filter {triggers : List Trigger} (hgenuine : g.Genuine heap triggers) :
    g.Genuine heap (triggers.filter fun t => !t.isGoal) := by
  induction triggers generalizing g with
  | nil => trivial
  | cons t rest ih =>
      obtain ⟨hfirst, hrest⟩ := hgenuine
      obtain ⟨kind, l⟩ := t
      cases kind with
      | addBelief => exact ⟨hfirst, ih hrest⟩
      | deleteBelief => exact ⟨hfirst, ih hrest⟩
      | addGoal => exact ih hrest
      | deleteGoal => exact ih hrest

/-! ## One belief -/

theorem place_of_sameBelief {l m : Literal} (hsame : l.sameBelief heap m = true) :
    l.functor.view.segments = m.functor.view.segments ∧ bucketOf l.inView = bucketOf m.inView := by
  obtain ⟨hview, hequal⟩ := Bool.and_eq_true_iff.1 hsame
  exact ⟨congrArg Path.segments (of_decide_eq_true hview), Literal.bucketOf_eq_of_equal hequal⟩

theorem sameBelief_of_place {l m : Literal}
    (hplace : l.functor.view.segments = m.functor.view.segments) :
    l.sameBelief heap m = l.inView.equal heap m.inView := by
  have hview : l.functor.view = m.functor.view := congrArg Path.mk hplace
  rw [Literal.sameBelief, decide_eq_true hview, Bool.true_and]

theorem Added.containsLiteral {l : Literal} {after : BeliefGraph} (hadded : Added g l after)
    (m : Literal) :
    after.containsLiteral heap root m =
      (g.containsLiteral heap root m || l.sameBelief heap m) := by
  rw [containsLiteral_eq, containsLiteral_eq, hadded.held]
  by_cases hplace : l.functor.view.segments = m.functor.view.segments ∧
      bucketOf l.inView = bucketOf m.inView
  · rw [if_pos hplace, List.any_append, sameBelief_of_place hplace.1]
    simp
  · have happart : l.sameBelief heap m = false :=
      Bool.eq_false_iff.2 fun hsame => hplace (place_of_sameBelief hsame)
    rw [if_neg hplace, happart, Bool.or_false]

/-- Whether a literal is equal to one of two that are one belief is the same question. -/
theorem equal_congr_right {l m : Literal} (hequal : l.equal heap m = true) (other : Literal) :
    other.equal heap l = other.equal heap m := by
  rw [Bool.eq_iff_iff, Literal.equal_iff_content, Literal.equal_iff_content,
    (Literal.equal_iff_content heap l m).1 hequal]

theorem Removed.containsLiteral {l : Literal} {after : BeliefGraph}
    (hremoved : Removed heap g l after) (m : Literal) :
    after.containsLiteral heap root m =
      (g.containsLiteral heap root m && !l.sameBelief heap m) := by
  rw [containsLiteral_eq, containsLiteral_eq, hremoved.held]
  by_cases hplace : l.functor.view.segments = m.functor.view.segments ∧
      bucketOf l.inView = bucketOf m.inView
  · rw [if_pos hplace, List.any_filter, sameBelief_of_place hplace.1]
    cases hsame : l.inView.equal heap m.inView with
    | true =>
        rw [Bool.not_true, Bool.and_false, List.any_eq_false]
        intro other _
        rw [equal_congr_right hsame other]
        simp
    | false =>
        rw [Bool.not_false, Bool.and_true]
        congr 1
        funext other
        cases hother : other.equal heap m.inView with
        | false => rw [Bool.and_false]
        | true =>
            have hnot : other.equal heap l.inView = false := by
              rw [Literal.equal_iff_content] at hother
              rw [Bool.eq_false_iff, Ne, Literal.equal_iff_content, hother]
              intro hcontent
              rw [(Literal.equal_iff_content heap _ _).2 hcontent.symm] at hsame
              cases hsame
            rw [hnot]
            rfl
  · have happart : l.sameBelief heap m = false :=
      Bool.eq_false_iff.2 fun hsame => hplace (place_of_sameBelief hsame)
    rw [if_neg hplace, happart, Bool.not_false, Bool.and_true]

theorem containsLiteral_congr {l m : Literal} (hsame : l.sameBelief heap m = true) :
    g.containsLiteral heap root l = g.containsLiteral heap root m := by
  obtain ⟨hview, hbucket⟩ := place_of_sameBelief hsame
  rw [sameBelief_of_place hview] at hsame
  rw [containsLiteral_eq, containsLiteral_eq, hview, hbucket]
  congr 1
  funext other
  exact equal_congr_right hsame other

/-- The triggers about one belief add and delete it in turn, from what was held at first. -/
theorem Genuine.alternating (htree : g.IsTree) {triggers : List Trigger}
    (hgenuine : g.Genuine heap triggers) (l : Literal) :
    Alternating (g.containsLiteral heap root l)
      ((triggers.filter fun t => !t.isGoal && t.literal.sameBelief heap l).map Trigger.kind) := by
  -- Whether `l` is held flips at each trigger about it and stays at all others.
  induction triggers generalizing g with
  | nil => trivial
  | cons t rest ih =>
      obtain ⟨hfirst, hrest⟩ := hgenuine
      have hbehind := ih (isTree_follow htree t) hrest
      obtain ⟨kind, m⟩ := t
      cases kind with
      | addGoal => exact hbehind
      | deleteGoal => exact hbehind
      | addBelief =>
          rw [(follow_added htree hfirst).containsLiteral] at hbehind
          cases hsame : m.sameBelief heap l with
          | true =>
              have hheld : g.containsLiteral heap root l = false :=
                (containsLiteral_congr hsame).symm.trans hfirst
              rw [List.filter_cons_of_pos (by simp [Trigger.isGoal, TriggerKind.isGoal, hsame]),
                hheld]
              rw [hsame, Bool.or_true] at hbehind
              exact ⟨rfl, hbehind⟩
          | false =>
              rw [List.filter_cons_of_neg (by simp [hsame])]
              rw [hsame, Bool.or_false] at hbehind
              exact hbehind
      | deleteBelief =>
          rw [(follow_removed htree hfirst).containsLiteral] at hbehind
          cases hsame : m.sameBelief heap l with
          | true =>
              have hheld : g.containsLiteral heap root l = true :=
                (containsLiteral_congr hsame).symm.trans hfirst
              rw [List.filter_cons_of_pos (by simp [Trigger.isGoal, TriggerKind.isGoal, hsame]),
                hheld]
              rw [hsame, Bool.not_true, Bool.and_false] at hbehind
              exact ⟨rfl, hbehind⟩
          | false =>
              rw [List.filter_cons_of_neg (by simp [hsame])]
              rw [hsame, Bool.not_false, Bool.and_true] at hbehind
              exact hbehind

/-! ## Stretches of a journal -/

/-- A graph became another one by the changes that a genuine list of triggers announces. -/
structure Replayed (heap : Heap) (g after : BeliefGraph) (triggers : List Trigger) : Prop where
  result : after = g.replay heap triggers
  genuine : g.Genuine heap triggers

namespace Replayed

variable {after : BeliefGraph} {l : Literal}

theorem nil (heap : Heap) (g : BeliefGraph) : Replayed heap g g [] := ⟨rfl, trivial⟩

theorem append {middle : BeliefGraph} {first second : List Trigger}
    (hfirst : Replayed heap g middle first) (hsecond : Replayed heap middle after second) :
    Replayed heap g after (first ++ second) := by
  obtain ⟨rfl, hgenuine⟩ := hfirst
  exact ⟨by rw [replay_append]; exact hsecond.result,
    (genuine_append first second).2 ⟨hgenuine, hsecond.genuine⟩⟩

theorem filter {triggers : List Trigger} (h : Replayed heap g after triggers) :
    Replayed heap g after (triggers.filter fun t => !t.isGoal) :=
  ⟨by rw [replay_filter]; exact h.result, h.genuine.filter⟩

/-- Goals leave the beliefs alone. -/
theorem goal (heap : Heap) (g : BeliefGraph) {t : Trigger} (ht : t.isGoal = true) :
    Replayed heap g g [t] := by
  obtain ⟨kind, l⟩ := t
  cases kind with
  | addBelief => cases ht
  | deleteBelief => cases ht
  | addGoal => exact ⟨rfl, trivial, trivial⟩
  | deleteGoal => exact ⟨rfl, trivial, trivial⟩

theorem confirm (htree : g.IsTree)
    (hadd : g.add heap root l (some blank) = .ok (false, after)) : Replayed heap g after [] := by
  cases hheld : g.containsLiteral heap root l with
  | true =>
      rw [add_of_contains hheld] at hadd
      cases hadd
      exact nil heap g
  | false =>
      obtain ⟨stored, hstored, -⟩ := add_blank_of_not_contains htree hheld
      rw [hstored] at hadd
      cases hadd

theorem believe (hadd : g.add heap root l (some blank) = .ok (true, after)) :
    Replayed heap g after [⟨.addBelief, l⟩] := by
  refine ⟨?_, ?_, trivial⟩
  · simp only [replay, List.foldl_cons, List.foldl_nil, follow, hadd]
  · cases hheld : g.containsLiteral heap root l with
    | true =>
        rw [add_of_contains hheld] at hadd
        cases hadd
    | false => exact hheld

theorem miss (htree : g.IsTree) (hremove : g.remove heap root l = (false, after)) :
    Replayed heap g after [] := by
  cases hheld : g.containsLiteral heap root l with
  | false =>
      rw [remove_of_not_contains hheld] at hremove
      cases hremove
      exact nil heap g
  | true =>
      obtain ⟨kept, hkept, -⟩ := remove_of_contains htree hheld
      rw [hkept] at hremove
      cases hremove

theorem forget (hremove : g.remove heap root l = (true, after)) :
    Replayed heap g after [⟨.deleteBelief, l⟩] := by
  refine ⟨?_, ?_, trivial⟩
  · simp only [replay, List.foldl_cons, List.foldl_nil, follow, hremove]
  · cases hheld : g.containsLiteral heap root l with
    | true => exact hheld
    | false =>
        rw [remove_of_not_contains hheld] at hremove
        cases hremove

theorem tree {triggers : List Trigger} (h : Replayed heap g after triggers) (htree : g.IsTree) :
    after.IsTree := by
  rw [h.result]
  exact isTree_replay htree triggers

end Replayed

end BeliefGraph

end Deliberation
