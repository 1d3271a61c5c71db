import Deliberation.Proofs.Belief.Filing
import Deliberation.Proofs.Belief.Orderly

/-!
# The reads of a view graph

A view is read by walks that stop at a path, by a recursion over all that lies
below it, and by counting.  In an orderly graph these are parts of one listing:
the literals of a view and of the views below it, each as often as ways lead to
the view that keeps it.  A walk along a path picks from the listing what stands
below the path, and a bucket what has one functor and one flag.
-/

namespace Deliberation

namespace Path

theorem empty_append (p : Path) : empty ++ p = p := rfl

theorem append_empty (p : Path) : p ++ empty = p := congrArg mk (List.append_nil p.segments)

theorem append_assoc (p q r : Path) : p ++ q ++ r = p ++ (q ++ r) :=
  congrArg mk (List.append_assoc p.segments q.segments r.segments)

theorem push_of_ne (p : Path) {segment : String} (h : segment ≠ "") :
    p.push segment = p ++ ⟨[segment]⟩ := if_neg h

theorem push_eq_append (p : Path) (segment : String) :
    p.push segment = p ++ empty.push segment := by
  unfold push
  split
  · exact (append_empty p).symm
  · rfl

end Path

/-- A functor starts with a path when its view does, or when it is the path. -/
theorem Symbol.startsWith_iff (f : Symbol) (p : Path) :
    f.path.startsWith p = true ↔ f.path = p ∨ p.segments <+: f.view.segments := by
  rw [Path.startsWith_iff, path, List.prefix_concat_iff]
  refine or_congr_left ⟨fun h => ?_, fun h => ?_⟩
  · exact congrArg Path.mk h.symm
  · exact (Path.mk.inj h).symm

theorem Symbol.not_isPrefix_of_path_eq {f : Symbol} {p : Path} (h : f.path = p) :
    ¬ p.segments <+: f.view.segments := by
  intro hprefix
  have hlength := hprefix.length_le
  rw [← h, path, List.length_append, List.length_singleton] at hlength
  exact Nat.not_succ_le_self _ hlength

/-- The literals at or below a path are those below it and those at it. -/
theorem Literal.filter_startsWith_perm (literals : List Literal) (p : Path) :
    (literals.filter (fun l => p.segments.isPrefixOf l.functor.view.segments) ++
      literals.filter (·.functor.path = p)).Perm
        (literals.filter (·.functor.path.startsWith p)) := by
  have hbelow : literals.filter (fun l => p.segments.isPrefixOf l.functor.view.segments) =
      (literals.filter (·.functor.path.startsWith p)).filter
        (fun l => p.segments.isPrefixOf l.functor.view.segments) := by
    rw [List.filter_filter]
    refine List.filter_congr fun l _ => (Bool.and_eq_left_iff_imp.2 fun hl => ?_).symm
    exact (Symbol.startsWith_iff _ _).2 (Or.inr (List.isPrefixOf_iff_prefix.1 hl))
  have hthere : literals.filter (·.functor.path = p) =
      (literals.filter (·.functor.path.startsWith p)).filter
        (fun l => !p.segments.isPrefixOf l.functor.view.segments) := by
    rw [List.filter_filter]
    refine List.filter_congr fun l _ => ?_
    rw [Bool.eq_iff_iff, Bool.and_eq_true, Symbol.startsWith_iff, Bool.not_eq_true',
      Bool.eq_false_iff, Ne, List.isPrefixOf_iff_prefix, decide_eq_true_iff]
    refine ⟨fun hl => ⟨?_, Or.inl hl⟩, fun hl => hl.2.resolve_right hl.1⟩
    exact Symbol.not_isPrefix_of_path_eq hl
  rw [hbelow, hthere]
  exact List.filter_append_perm _ _

theorem Literal.filter_negated_perm (literals : List Literal) :
    (literals.filter (·.negated = false) ++ literals.filter (·.negated = true)).Perm literals := by
  have hflags : literals.filter (·.negated = true) =
      literals.filter fun l => !decide (l.negated = false) := by
    refine List.filter_congr fun l _ => ?_
    cases l.negated <;> rfl
  rw [hflags]
  exact List.filter_append_perm _ _

theorem Literal.under_empty (l : Literal) : l.under .empty = l := by
  obtain ⟨functor, arguments, annotations, negated, marked⟩ := l
  rfl

theorem Literal.under_under (p q : Path) (l : Literal) :
    (l.under q).under p = l.under (p ++ q) := by
  unfold under
  rw [Path.append_assoc]

/-- Seen from above a view, a literal has a functor of the view itself only if it has no path. -/
theorem Literal.functor_under_eq_iff (f : Symbol) (l : Literal) :
    (l.under f.view).functor = f ↔ l.functor = ⟨.empty, f.name⟩ := by
  obtain ⟨⟨view⟩, name⟩ := f
  obtain ⟨⟨⟨inner⟩, own⟩, arguments, annotations, negated, marked⟩ := l
  change Symbol.mk ⟨view ++ inner⟩ own = ⟨⟨view⟩, name⟩ ↔ Symbol.mk ⟨inner⟩ own = ⟨⟨[]⟩, name⟩
  simp

namespace BeliefGraph

/-! ## One listing -/

theorem literalsTo_under (g : BeliefGraph) (n : Nat) (path : Path) (v : ViewId) :
    g.literalsTo n path v = (g.literalsTo n .empty v).map (Literal.under path) := by
  induction n generalizing path v with
  | zero => rfl
  | succ n ih =>
      rw [literalsTo, literalsTo, List.map_append, List.map_flatMap, List.map_flatMap]
      congr 1
      · refine List.flatMap_congr fun literals _ => ?_
        rw [List.map_map]
        rfl
      · refine List.flatMap_congr fun entry _ => ?_
        dsimp only
        rw [ih (path.push entry.1), ih (Path.empty.push entry.1), List.map_map,
          Path.push_eq_append path]
        exact List.map_congr_left fun l _ => (Literal.under_under _ _ l).symm

theorem literalsFrom_under (g : BeliefGraph) (path : Path) (v : ViewId) :
    g.literalsFrom path v = (g.literalsFrom .empty v).map (Literal.under path) :=
  literalsTo_under g g.size path v

theorem countTo_eq_length (g : BeliefGraph) (n : Nat) (path : Path) (v : ViewId) :
    g.countTo n v = (g.literalsTo n path v).length := by
  induction n generalizing path v with
  | zero => rfl
  | succ n ih =>
      have hchildren : (g.view v).children.values.map (g.countTo n) =
          (g.view v).children.entries.map fun entry =>
            (g.literalsTo n (path.push entry.1) entry.2).length := by
        rw [Table.values, List.map_map]
        exact List.map_congr_left fun entry _ => ih _ entry.2
      have hcount : g.countTo (n + 1) v = ((g.view v).buckets.values.map List.length).sum +
          ((g.view v).children.values.map (g.countTo n)).sum := rfl
      rw [hcount, literalsTo, List.length_append, List.length_flatMap, List.length_flatMap,
        hchildren]
      simp only [List.length_map]

/-- The listing grows by filing, so that a table of all literals sorts it by functor. -/
theorem files_literals (g : BeliefGraph) (v : ViewId) :
    (g.literals v).Files (·.functor.path) (g.literalsFrom .empty v) := by
  have hfold : ∀ (rest done : List Literal) (t : Table Path (List Literal)),
      t.Files (·.functor.path) done →
      (rest.foldl fileLiteral t).Files (·.functor.path) (done ++ rest) := by
    intro rest
    induction rest with
    | nil =>
        intro done t ht
        rwa [List.append_nil]
    | cons l rest ih =>
        intro done t ht
        have hnext := ih _ _ (ht.insert l)
        rwa [List.append_assoc] at hnext
  exact hfold (g.literalsFrom .empty v) [] {} ⟨Table.sorted_empty, fun _ => rfl⟩

/-- All the literals that reading a view by functor gives. -/
def listed (g : BeliefGraph) (v : ViewId) : List Literal := (g.literals v).values.flatten

theorem listed_perm (g : BeliefGraph) (v : ViewId) :
    (g.listed v).Perm (g.literalsFrom .empty v) := by
  rw [listed, (g.files_literals v).flatten_eq_mergeSort]
  exact List.mergeSort_perm _ _

theorem Orderly.bucketOf_eq {g : BeliefGraph} (h : g.Orderly) {v : ViewId} :
    ∀ entry ∈ (g.view v).buckets.entries, ∀ l ∈ entry.2, bucketOf l = entry.1 := by
  intro entry hentry l hl
  obtain ⟨hfunctor, hnegated⟩ := ((h v).filed entry hentry).2 l hl
  rw [bucketOf, hfunctor, hnegated]

/-- The literals that a view keeps itself have no path. -/
theorem Orderly.functor_of_mem {g : BeliefGraph} (h : g.Orderly) {v : ViewId} {l : Literal}
    (hl : l ∈ (g.view v).buckets.values.flatten) : l.functor = ⟨.empty, l.functor.name⟩ := by
  obtain ⟨literals, hliterals, hl⟩ := List.mem_flatten.1 hl
  obtain ⟨entry, hentry, rfl⟩ := List.mem_map.1 hliterals
  rw [(((h v).filed entry hentry).2 l hl).1]

/-- A kept literal and a literal of its view are equal as the kept ones or as those with a path. -/
theorem Orderly.equal_inView {g : BeliefGraph} (h : g.Orderly) (heap : Heap) {target : ViewId}
    {l kept : Literal} (hl : Path.IsSegment l.functor.name)
    (hkept : kept ∈ g.held target ⟨l.negated, l.functor.name⟩) :
    kept.equal heap l.inView = (kept.under l.functor.view).equal heap l := by
  have hfunctor := (h.held hkept).2.1
  rw [Bool.eq_iff_iff, Literal.equal_iff, Literal.equal_iff, Literal.inView_of_isSegment hl]
  refine and_congr_left fun _ => and_congr_left fun _ => ?_
  exact iff_of_true hfunctor ((Literal.functor_under_eq_iff l.functor kept).2 hfunctor)

theorem Orderly.containsLiteral_eq_any {g : BeliefGraph} (h : g.Orderly) (heap : Heap) (v : ViewId)
    {l : Literal} (hl : Path.IsSegment l.functor.name) :
    g.containsLiteral heap v l =
      (g.matching v l.negated l.functor.path).any (·.equal heap l) := by
  have hbucket : bucketOf l.inView = ⟨l.negated, l.functor.name⟩ := by
    rw [Literal.inView_of_isSegment hl]
    rfl
  rw [matching_path, containsLiteral, locate?_eq_childAt?, hbucket]
  cases g.childAt? v l.functor.view.segments with
  | none => rfl
  | some target =>
      rw [Option.elim_some, List.any_map, Bool.eq_iff_iff, List.any_eq_true, List.any_eq_true]
      refine exists_congr fun kept => and_congr_right fun hkept => ?_
      rw [h.equal_inView heap hl hkept, Function.comp_apply]

theorem literalsAt_of_ne (g : BeliefGraph) (v : ViewId) {path : Path}
    (hpath : ¬ path.isEmpty = true) :
    g.literalsAt v path = (g.childAt? v path.segments).elim [] (g.literalsFrom path) ++
      g.matching v false path ++ g.matching v true path := by
  rw [literalsAt, if_neg hpath, below?, if_neg hpath]
  cases g.childAt? v path.segments <;> rfl

section Parts

variable {g : BeliefGraph} (h : g.Orderly) (hsound : g.Sound) {v : ViewId} (hv : v < g.size)

include h hsound hv

/-- The listing of a view: its own literals, and those of its children with their names before. -/
theorem Orderly.literalsFrom_eq :
    g.literalsFrom .empty v = (g.view v).buckets.values.flatten ++
      (g.view v).children.entries.flatMap fun entry =>
        (g.literalsFrom .empty entry.2).map (Literal.under ⟨[entry.1]⟩) := by
  have hkept : ∀ literals : List Literal, literals.map (Literal.under .empty) = literals :=
    fun literals => (List.map_congr_left fun l _ => l.under_empty).trans (List.map_id' _)
  rw [← hsound.literalsTo_eq hv (Nat.le_succ g.size), literalsTo]
  congr 1
  · rw [List.flatMap_def, List.map_congr_left fun literals _ => hkept literals, List.map_id']
  · refine List.flatMap_congr fun entry hentry => ?_
    have hname : entry.1 ≠ "" := fun heq => (h v).named (heq ▸ List.mem_map_of_mem hentry)
    dsimp only
    rw [Path.push_of_ne _ hname, Path.empty_append]
    exact literalsFrom_under g ⟨[entry.1]⟩ entry.2

/-- A way picks from the listing what stands below its end. -/
theorem Orderly.filter_below (way : List String) :
    (g.literalsFrom .empty v).filter (fun l => way.isPrefixOf l.functor.view.segments) =
      (g.childAt? v way).elim [] (g.literalsFrom ⟨way⟩) := by
  induction way generalizing v with
  | nil => exact List.filter_eq_self.2 fun _ _ => List.isPrefixOf_nil_left
  | cons name rest ih =>
      have hown : (g.view v).buckets.values.flatten.filter
          (fun l => (name :: rest).isPrefixOf l.functor.view.segments) = [] := by
        refine List.filter_eq_nil_iff.2 fun l hl => ?_
        rw [h.functor_of_mem hl]
        exact Bool.false_ne_true
      have hother : ∀ entry ∈ (g.view v).children.entries, entry.1 ≠ name →
          ((g.literalsFrom .empty entry.2).map (Literal.under ⟨[entry.1]⟩)).filter
            (fun l => (name :: rest).isPrefixOf l.functor.view.segments) = [] := by
        intro entry _ hne
        refine List.filter_eq_nil_iff.2 fun l hl => ?_
        obtain ⟨m, -, rfl⟩ := List.mem_map.1 hl
        simp [Literal.under, Path.append_segments, List.isPrefixOf, Ne.symm hne]
      rw [h.literalsFrom_eq hsound hv, List.filter_append, hown, List.nil_append,
        List.filter_flatMap, (h v).children.flatMap_of_key hother, childAt?_cons, child?]
      cases hchild : (g.view v).children.get? name with
      | none => rfl
      | some child =>
          have hbehind : (g.literalsFrom .empty child).filter
              ((fun l => (name :: rest).isPrefixOf l.functor.view.segments) ∘
                Literal.under ⟨[name]⟩) =
              (g.childAt? child rest).elim [] (g.literalsFrom ⟨rest⟩) := by
            rw [← ih (hsound.closed (child_of_child? hchild))]
            refine List.filter_congr fun l _ => ?_
            simp [Literal.under, Path.append_segments]
          rw [Option.elim_some, Option.bind_some, List.filter_map, hbehind]
          cases g.childAt? child rest with
          | none => rfl
          | some target =>
              rw [Option.elim_some, Option.elim_some, literalsFrom_under g ⟨rest⟩,
                literalsFrom_under g ⟨name :: rest⟩, List.map_map]
              exact List.map_congr_left fun l _ => Literal.under_under ⟨[name]⟩ ⟨rest⟩ l

/-- A bucket of a view picks from the listing what has its name and flag and no path. -/
theorem Orderly.filter_here (negated : Bool) (name : String) :
    (g.literalsFrom .empty v).filter
        (fun l => decide (l.functor = ⟨.empty, name⟩ ∧ l.negated = negated)) =
      g.held v ⟨negated, name⟩ := by
  have hchildren : ((g.view v).children.entries.flatMap fun entry =>
      (g.literalsFrom .empty entry.2).map (Literal.under ⟨[entry.1]⟩)).filter
        (fun l => decide (l.functor = ⟨.empty, name⟩ ∧ l.negated = negated)) = [] := by
    refine List.filter_eq_nil_iff.2 fun l hl => ?_
    obtain ⟨entry, -, hl⟩ := List.mem_flatMap.1 hl
    obtain ⟨m, -, rfl⟩ := List.mem_map.1 hl
    rw [decide_eq_true_iff]
    intro hhere
    have hview := congrArg (fun f => f.view.segments) hhere.1
    cases hview
  rw [h.literalsFrom_eq hsound hv, List.filter_append, hchildren, List.append_nil, BeliefGraph.held,
    ← (h v).buckets.filter_flatten h.bucketOf_eq]
  refine List.filter_congr fun l hl => decide_eq_decide.2 ?_
  rw [h.functor_of_mem hl, bucketOf, Symbol.mk.injEq, Bucket.mk.injEq]
  exact ⟨fun hhere => ⟨hhere.2, hhere.1.2⟩, fun hhere => ⟨⟨rfl, hhere.2⟩, hhere.1⟩⟩

/-- The literals with a functor and a flag, in the order of the listing. -/
theorem Orderly.matching_symbol (negated : Bool) (f : Symbol) :
    g.matching v negated f.path =
      (g.literalsFrom .empty v).filter
        (fun l => decide (l.functor = f ∧ l.negated = negated)) := by
  have hbelow : (g.literalsFrom .empty v).filter
        (fun l => decide (l.functor = f ∧ l.negated = negated)) =
      ((g.childAt? v f.view.segments).elim [] (g.literalsFrom f.view)).filter
        (fun l => decide (l.functor = f ∧ l.negated = negated)) := by
    rw [← h.filter_below hsound hv, List.filter_filter]
    refine List.filter_congr fun l _ => (Bool.and_eq_left_iff_imp.2 fun hl => ?_).symm
    rw [(of_decide_eq_true hl).1]
    exact List.isPrefixOf_iff_prefix.2 (List.prefix_refl _)
  rw [hbelow, matching_path]
  cases htarget : g.childAt? v f.view.segments with
  | none => rfl
  | some target =>
      have hmade := hsound.lt_of_locate? hv ((g.locate?_eq_childAt? v f.view).trans htarget)
      rw [Option.elim_some, Option.elim_some, literalsFrom_under, List.filter_map,
        ← h.filter_here hsound hmade]
      refine congrArg _ (List.filter_congr fun l _ => decide_eq_decide.2 ?_)
      exact and_congr_left fun _ => (Literal.functor_under_eq_iff f l).symm

/-- The literals with a functor and a flag, in the order of the listing. -/
theorem Orderly.matching_eq (negated : Bool) (functor : Path) :
    g.matching v negated functor =
      ((g.literalsFrom .empty v).filter (·.functor.path = functor)).filter
        (·.negated = negated) := by
  obtain ⟨segments⟩ := functor
  rcases List.eq_nil_or_concat segments with rfl | ⟨front, last, rfl⟩
  · -- No literal has the empty path, and no bucket the empty name.
    have hheld : g.held v ⟨negated, ""⟩ = [] :=
      List.eq_nil_iff_forall_not_mem.2 fun l hl => (h.held hl).1 rfl
    have hnone : (g.literalsFrom .empty v).filter (·.functor.path = ⟨[]⟩) = [] :=
      List.filter_eq_nil_iff.2 fun l _ => by simp [Symbol.path]
    rw [hnone]
    exact congrArg (List.map _) hheld
  · rw [List.concat_eq_append, List.filter_filter]
    refine (h.matching_symbol hsound hv negated ⟨⟨front⟩, last⟩).trans ?_
    refine List.filter_congr fun l _ => ?_
    rw [← Bool.decide_and, decide_eq_decide, and_comm]
    exact and_congr_right fun _ => Symbol.path_inj.symm

/-- Reading at a path gives what stands at it or below. -/
theorem Orderly.literalsAt_perm (path : Path) :
    (g.literalsAt v path).Perm
      ((g.literalsFrom .empty v).filter (·.functor.path.startsWith path)) := by
  by_cases hempty : path.isEmpty = true
  · obtain ⟨segments⟩ := path
    obtain rfl := List.isEmpty_iff.1 hempty
    refine List.Perm.of_eq (List.filter_eq_self.2 fun l _ => ?_).symm
    exact List.isPrefixOf_nil_left
  · rw [literalsAt_of_ne g v hempty, List.append_assoc, ← h.filter_below hsound hv,
      h.matching_eq hsound hv, h.matching_eq hsound hv]
    exact ((Literal.filter_negated_perm _).append_left _).trans
      (Literal.filter_startsWith_perm _ path)

/-- A literal is found where an equal one is listed. -/
theorem Orderly.containsLiteral_iff (heap : Heap) {l : Literal}
    (hl : Path.IsSegment l.functor.name) :
    g.containsLiteral heap v l = true ↔
      ∃ m ∈ g.literalsFrom .empty v, m.equal heap l = true := by
  rw [h.containsLiteral_eq_any heap v hl, h.matching_symbol hsound hv, List.any_filter,
    List.any_eq_true]
  refine exists_congr fun m => and_congr_right fun _ => ?_
  rw [Bool.and_eq_true, decide_eq_true_iff, and_iff_right_iff_imp]
  intro hequal
  obtain ⟨⟨hfunctor, hnegated, -⟩, -⟩ := (Literal.equal_iff heap m l).1 hequal
  exact ⟨hfunctor, hnegated⟩

end Parts

/-! ## Views -/

theorem Orderly.ne_empty_of_child? {g : BeliefGraph} (h : g.Orderly) {v child : ViewId}
    {name : String} (hchild : g.child? v name = some child) : name ≠ "" := by
  rintro rfl
  exact (h v).named (Table.mem_keys_iff.2 (Option.isSome_of_eq_some hchild))

/-- A view that is listed is at the end of the way that it is listed under. -/
theorem Orderly.childAt?_of_mem_viewsTo {g : BeliefGraph} (h : g.Orderly) {n : Nat}
    {path p : Path} {v w : ViewId} (hmem : (p, w) ∈ g.viewsTo n path v) :
    ∃ way, way ≠ [] ∧ p = path ++ ⟨way⟩ ∧ g.childAt? v way = some w := by
  induction n generalizing path v with
  | zero => cases hmem
  | succ n ih =>
      obtain ⟨⟨name, child⟩, hentry, hmem⟩ := List.mem_flatMap.1 hmem
      have hchild : g.child? v name = some child := (h v).children.get?_of_mem hentry
      have hpush : path.push name = path ++ ⟨[name]⟩ :=
        Path.push_of_ne path (h.ne_empty_of_child? hchild)
      rcases List.mem_append.1 hmem with hbelow | hhere
      · obtain ⟨way, -, rfl, hway⟩ := ih hbelow
        refine ⟨name :: way, List.cons_ne_nil _ _, ?_, ?_⟩
        · rw [hpush, Path.append_assoc]
          rfl
        · rw [childAt?_cons, hchild]
          exact hway
      · obtain ⟨rfl, rfl⟩ := Prod.mk.inj (List.mem_singleton.1 hhere)
        refine ⟨[name], List.cons_ne_nil _ _, hpush, ?_⟩
        rw [childAt?_cons, hchild]
        rfl

/-- Every way down ends at a view that is listed, if the bound is not below the height. -/
theorem Orderly.mem_viewsTo_of_childAt? {g : BeliefGraph} (h : g.Orderly) (hsound : g.Sound)
    {name : String} {rest : List String} {v w : ViewId}
    (hway : g.childAt? v (name :: rest) = some w) {n : Nat} (hn : g.rank v ≤ n) (path : Path) :
    (path ++ ⟨name :: rest⟩, w) ∈ g.viewsTo n path v := by
  induction n generalizing name rest v path with
  | zero =>
      rw [childAt?_cons] at hway
      obtain ⟨child, hchild, -⟩ := Option.bind_eq_some_iff.1 hway
      have hrank := hsound.rank_lt (child_of_child? hchild)
      exact absurd (Nat.lt_of_lt_of_le hrank hn) (Nat.not_lt_zero _)
  | succ n ih =>
      rw [childAt?_cons] at hway
      obtain ⟨child, hchild, hrest⟩ := Option.bind_eq_some_iff.1 hway
      have hrank := hsound.rank_lt (child_of_child? hchild)
      have hpush : path.push name = path ++ ⟨[name]⟩ :=
        Path.push_of_ne path (h.ne_empty_of_child? hchild)
      refine List.mem_flatMap.2 ⟨(name, child), Table.mem_entries_of_get? hchild, ?_⟩
      dsimp only
      rw [hpush, List.mem_append]
      cases rest with
      | nil =>
          cases hrest
          exact Or.inr (List.mem_singleton.2 rfl)
      | cons next rest =>
          left
          have hn' := Nat.le_of_lt_succ (Nat.lt_of_lt_of_le hrank hn)
          have hbelow := ih hrest hn' (path ++ ⟨[name]⟩)
          rwa [Path.append_assoc] at hbelow

theorem Orderly.get?_viewsBelow {g : BeliefGraph} (h : g.Orderly) (hsound : g.Sound) {v : ViewId}
    (hv : v < g.size) (p : Path) : (g.viewsBelow v).get? p = g.below? v p := by
  refine Table.get?_ofList (fun key value => ?_) p
  rw [below?]
  constructor
  · intro hmem
    obtain ⟨way, hne, rfl, hway⟩ := h.childAt?_of_mem_viewsTo hmem
    rw [Path.empty_append, if_neg (by simpa [Path.isEmpty] using hne)]
    exact hway
  · intro hbelow
    split at hbelow
    · cases hbelow
    · next hne =>
        obtain ⟨_ | ⟨name, rest⟩⟩ := key
        · exact absurd rfl hne
        · have hrank := Nat.le_of_lt (hsound.rank_lt_size hv)
          exact h.mem_viewsTo_of_childAt? hsound hbelow hrank .empty

/--
All reads of a view agree.  Reading at a path gives the listed literals that
start with it, each as often as it is listed; those with one functor and one flag
come in the order of their list; a literal is found where an equal one is listed;
counting gives the length of the listing; and a path leads to a view exactly when
the view is listed under it.
-/
theorem reads_agree {g : BeliefGraph} (h : Assembled g) {v : ViewId} (hv : v < g.size) :
    (∀ p, (g.literalsAt v p).Perm ((g.listed v).filter (·.functor.path.startsWith p))) ∧
      (∀ negated f, g.matching v negated f =
        (((g.literals v).get? f).getD []).filter (·.negated = negated)) ∧
      (∀ heap l, Path.IsSegment l.functor.name →
        (g.containsLiteral heap v l = true ↔ ∃ m ∈ g.listed v, m.equal heap l = true)) ∧
      g.count v = (g.listed v).length ∧
      ∀ p, p.isEmpty = false →
        (p ∈ (g.viewsBelow v).keys ↔ g.containsView v p = true) ∧
          (g.containsView v p = true ↔ (g.below? v p).isSome) ∧
          (g.viewsBelow v).get? p = g.below? v p := by
  have horderly := h.orderly
  have hsound := h.built.sound
  have hperm := g.listed_perm v
  refine ⟨fun p => ?_, fun negated f => ?_, fun heap l hl => ?_, ?_, fun p hp => ?_⟩
  · exact (horderly.literalsAt_perm hsound hv p).trans (hperm.filter _).symm
  · rw [horderly.matching_eq hsound hv, (g.files_literals v).group]
  · rw [horderly.containsLiteral_iff hsound hv heap hl]
    exact exists_congr fun m => and_congr_left fun _ => hperm.mem_iff.symm
  · rw [hperm.length_eq]
    exact countTo_eq_length g g.size .empty v
  · have hbelow : g.below? v p = g.childAt? v p.segments := if_neg (by simp [hp])
    rw [Table.mem_keys_iff, horderly.get?_viewsBelow hsound hv, hbelow, containsView,
      locate?_eq_childAt?]
    exact ⟨Iff.rfl, Iff.rfl, rfl⟩

/-- The literal `x` in the view that is both `b` and `a/b`, and `~a` beside the view `a`. -/
def doubled : BeliefGraph :=
  (shared.setHeld 2 ⟨false, "x"⟩ [⟨⟨.empty, "x"⟩, [], [], false, false⟩]).setHeld root ⟨true, "a"⟩
    [⟨⟨.empty, "a"⟩, [], [], true, false⟩]

theorem assembled_doubled : Assembled doubled := by
  have hmade : Assembled ((rooted.create "a").1.create "b").1 :=
    .create _ (.create _ (.create _ .empty))
  have ha : Assembled (((rooted.create "a").1.create "b").1.hang root .empty 1 none).2 :=
    .hang .empty hmade (by decide) (by decide) (Or.inl rfl) List.not_mem_nil
  have hb : Assembled ((((rooted.create "a").1.create "b").1.hang root .empty 1 none).2.hang 1
      .empty 2 none).2 := .hang .empty ha (by decide) (by decide) (Or.inl rfl) List.not_mem_nil
  have hshared : Assembled shared :=
    .hang .empty hb (by decide) (by decide) (Or.inl rfl) List.not_mem_nil
  have haddx : shared.add {} 2 ⟨⟨.empty, "x"⟩, [], [], false, false⟩ none = .ok (true,
      shared.setHeld 2 ⟨false, "x"⟩ [⟨⟨.empty, "x"⟩, [], [], false, false⟩]) := rfl
  have hx : Assembled (shared.setHeld 2 ⟨false, "x"⟩ [⟨⟨.empty, "x"⟩, [], [], false, false⟩]) :=
    .add {} _ hshared (by decide) (Or.inl rfl) (by decide) List.not_mem_nil haddx
  have hadda : (shared.setHeld 2 ⟨false, "x"⟩ [⟨⟨.empty, "x"⟩, [], [], false, false⟩]).add {} root
      ⟨⟨.empty, "a"⟩, [], [], true, false⟩ none = .ok (true, doubled) := rfl
  exact .add {} _ hx (by decide) (Or.inl rfl) (by decide) List.not_mem_nil hadda

/-- The shared view is read twice, once below each parent, and `~a` comes with what is in `a`. -/
theorem reads_agree_doubled :
    doubled.count root = 3 ∧ (doubled.listed root).length = 3 ∧
      (doubled.literalsAt root ⟨["a"]⟩).map (·.functor.text) = ["a/b/x", "a"] ∧
      (doubled.literalsAt root ⟨["a"]⟩).Perm
        ((doubled.listed root).filter (·.functor.path.startsWith ⟨["a"]⟩)) := by
  have hcount : doubled.count root = 3 := by rfl
  have hat : (doubled.literalsAt root ⟨["a"]⟩).map (·.functor.text) = ["a/b/x", "a"] := by decide
  obtain ⟨hreads, -, -, hlength, -⟩ := reads_agree assembled_doubled (v := root) (by decide)
  exact ⟨hcount, hlength ▸ hcount, hat, hreads ⟨["a"]⟩⟩
end BeliefGraph

end Deliberation
