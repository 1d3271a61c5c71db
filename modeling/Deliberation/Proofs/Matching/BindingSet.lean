import Deliberation.Matching.Binding
import Mathlib.Data.List.Nodup

/-!
# Binding sets

The variables of a literal are counted once for each name, and so are bindings.
A set that grows by one binding at a time keeps what it has: a further term under
a name must be equal to the one that is there.
-/

namespace Deliberation

/-! ## Distinct variables -/

namespace Variable

/-- The step by which a list of variables with different names grows. -/
def addNew (found : List Variable) (x : Variable) : List Variable :=
  if found.any (·.name = x.name) then found else found ++ [x]

theorem mem_names_addNew (found : List Variable) (x : Variable) (name : Path) :
    name ∈ (addNew found x).map Variable.name ↔ name ∈ found.map Variable.name ∨ name = x.name := by
  unfold addNew
  by_cases hknown : found.any (·.name = x.name)
  · rw [if_pos hknown, iff_self_or]
    rintro rfl
    simpa using hknown
  · rw [if_neg hknown]
    simp

theorem nodup_names_addNew {found : List Variable} (hfound : (found.map Variable.name).Nodup)
    (x : Variable) : ((addNew found x).map Variable.name).Nodup := by
  unfold addNew
  by_cases hknown : found.any (·.name = x.name)
  · rw [if_pos hknown]
    exact hfound
  · rw [if_neg hknown, List.map_append, List.map_singleton, List.nodup_append_comm,
      List.singleton_append, List.nodup_cons]
    exact ⟨by simpa using hknown, hfound⟩

theorem distinct_eq_foldl (vars : List Variable) : distinct vars = vars.foldl addNew [] := rfl

theorem mem_names_distinct (vars : List Variable) (name : Path) :
    name ∈ (distinct vars).map Variable.name ↔ name ∈ vars.map Variable.name := by
  have hfold : ∀ found : List Variable, name ∈ (vars.foldl addNew found).map Variable.name ↔
      name ∈ found.map Variable.name ∨ name ∈ vars.map Variable.name := by
    induction vars with
    | nil => simp
    | cons x rest ih =>
        intro found
        rw [List.foldl_cons, ih, mem_names_addNew, List.map_cons, List.mem_cons, or_assoc]
  rw [distinct_eq_foldl, hfold, List.map_nil, List.mem_nil_iff, false_or]

theorem nodup_names_distinct (vars : List Variable) :
    ((distinct vars).map Variable.name).Nodup := by
  have hfold : ∀ found : List Variable, (found.map Variable.name).Nodup →
      ((vars.foldl addNew found).map Variable.name).Nodup := by
    induction vars with
    | nil => exact fun _ hfound => hfound
    | cons x rest ih => exact fun found hfound => ih _ (nodup_names_addNew hfound x)
  exact hfold [] List.nodup_nil

end Variable

/-! ## Making bindings in turn -/

namespace BindingSet

/-- The names that are bound. -/
def names (b : BindingSet) : List Path := b.bindings.map Binding.name

/-- Make bindings in turn. -/
def bindEach (s : Store) : BindingSet → List Binding → Option BindingSet
  | b, [] => some b
  | b, pair :: rest =>
      (b.bind s pair.name pair.value pair.position).bind fun b => bindEach s b rest

theorem bindEach_append (s : Store) (b : BindingSet) (first second : List Binding) :
    bindEach s b (first ++ second) = (bindEach s b first).bind fun b => bindEach s b second := by
  induction first generalizing b with
  | nil => rfl
  | cons pair rest ih =>
      rw [List.cons_append, bindEach, bindEach, Option.bind_assoc]
      congr 1
      funext b
      exact ih b

theorem get?_isSome_iff (b : BindingSet) (name : Path) :
    (b.get? name).isSome ↔ name ∈ b.names := by
  simp [get?, names, List.find?_isSome]

theorem get?_eq_none_iff (b : BindingSet) (name : Path) :
    b.get? name = none ↔ name ∉ b.names := by
  rw [← get?_isSome_iff, Option.not_isSome_iff_eq_none]

/-- What a binding set puts in the place of variables. -/
def substitution (b : BindingSet) (name : Path) : Term := (b.get? name).getD (.raw .empty)

theorem substitution_of_get? {b : BindingSet} {name : Path} {t : Term}
    (h : b.get? name = some t) : b.substitution name = t := by
  rw [substitution, h, Option.getD_some]

theorem exists_of_get? {b : BindingSet} {name : Path} {t : Term} (h : b.get? name = some t) :
    ∃ binding ∈ b.bindings, binding.name = name ∧ binding.value = t := by
  obtain ⟨binding, hfind, hvalue⟩ := Option.map_eq_some_iff.1 h
  have hname := List.find?_some hfind
  exact ⟨binding, List.mem_of_find?_eq_some hfind, of_decide_eq_true hname, hvalue⟩

theorem get?_concat (b : BindingSet) (binding : Binding) (name : Path) :
    (BindingSet.mk (b.bindings ++ [binding])).get? name =
      (b.get? name).or (if binding.name = name then some binding.value else none) := by
  unfold get?
  rw [List.find?_append]
  by_cases hname : binding.name = name
  · cases b.bindings.find? fun other => other.name = name <;> simp [hname]
  · cases b.bindings.find? fun other => other.name = name <;> simp [hname]

/-- A binding that succeeds either finds an equal term under the name or puts the term there. -/
theorem bind_eq_some_iff {s : Store} {b after : BindingSet} {name : Path} {t : Term}
    {position : List Nat} :
    b.bind s name t position = some after ↔
      (∃ known, b.get? name = some known ∧
        (known.resolve s).equal s.heap (t.resolve s) = true ∧ after = b) ∨
      (b.get? name = none ∧ after = ⟨b.bindings ++ [⟨name, t.resolve s, position⟩]⟩) := by
  unfold bind
  cases hknown : b.get? name with
  | none => simp only [Option.some.injEq, reduceCtorEq, false_and, exists_false, false_or,
      true_and, eq_comm]
  | some known =>
      simp only [Option.ite_none_right_eq_some, Option.some.injEq, reduceCtorEq, false_and,
        or_false]
      constructor
      · rintro ⟨hequal, rfl⟩
        exact ⟨known, rfl, hequal, rfl⟩
      · rintro ⟨_, rfl, hequal, rfl⟩
        exact ⟨hequal, rfl⟩

variable {s : Store} {b after : BindingSet} {pairs : List Binding}

/-- What is bound stays bound. -/
theorem get?_of_bindEach (h : bindEach s b pairs = some after) {name : Path} {t : Term}
    (hknown : b.get? name = some t) : after.get? name = some t := by
  induction pairs generalizing b with
  | nil =>
      cases h
      exact hknown
  | cons pair rest ih =>
      obtain ⟨middle, hfirst, hrest⟩ := Option.bind_eq_some_iff.1 h
      refine ih hrest ?_
      rcases bind_eq_some_iff.1 hfirst with ⟨_, _, _, rfl⟩ | ⟨_, rfl⟩
      · exact hknown
      · rw [get?_concat, hknown]
        rfl

/-- Every pair is bound: to its term, or to an equal one that was there before. -/
theorem agrees_of_bindEach (h : bindEach s b pairs = some after) {pair : Binding}
    (hpair : pair ∈ pairs) :
    ∃ t, after.get? pair.name = some t ∧
      (t = pair.value.resolve s ∨
        (t.resolve s).equal s.heap (pair.value.resolve s) = true) := by
  induction pairs generalizing b with
  | nil => cases hpair
  | cons first rest ih =>
      obtain ⟨middle, hfirst, hrest⟩ := Option.bind_eq_some_iff.1 h
      rcases List.mem_cons.1 hpair with rfl | hlater
      · rcases bind_eq_some_iff.1 hfirst with ⟨known, hknown, hequal, rfl⟩ | ⟨hnew, rfl⟩
        · exact ⟨known, get?_of_bindEach hrest hknown, Or.inr hequal⟩
        · refine ⟨_, get?_of_bindEach hrest ?_, Or.inl rfl⟩
          rw [get?_concat, hnew, if_pos rfl]
          rfl
      · exact ih hrest hlater

/-- Every binding is an old one or comes from a pair. -/
theorem origin_of_bindEach (h : bindEach s b pairs = some after) {binding : Binding}
    (hbinding : binding ∈ after.bindings) :
    binding ∈ b.bindings ∨
      ∃ pair ∈ pairs, binding.name = pair.name ∧ binding.value = pair.value.resolve s := by
  induction pairs generalizing b with
  | nil =>
      cases h
      exact Or.inl hbinding
  | cons first rest ih =>
      obtain ⟨middle, hfirst, hrest⟩ := Option.bind_eq_some_iff.1 h
      rcases ih hrest with hmiddle | ⟨pair, hpair, horigin⟩
      · rcases bind_eq_some_iff.1 hfirst with ⟨_, _, _, rfl⟩ | ⟨_, rfl⟩
        · exact Or.inl hmiddle
        · rcases List.mem_append.1 hmiddle with hold | hnew
          · exact Or.inl hold
          · rw [List.mem_singleton.1 hnew]
            exact Or.inr ⟨first, List.mem_cons_self, rfl, rfl⟩
      · exact Or.inr ⟨pair, List.mem_cons_of_mem _ hpair, horigin⟩

theorem nodup_names_of_bindEach (h : bindEach s b pairs = some after) (hb : b.names.Nodup) :
    after.names.Nodup := by
  induction pairs generalizing b with
  | nil =>
      cases h
      exact hb
  | cons first rest ih =>
      obtain ⟨middle, hfirst, hrest⟩ := Option.bind_eq_some_iff.1 h
      refine ih hrest ?_
      rcases bind_eq_some_iff.1 hfirst with ⟨_, _, _, rfl⟩ | ⟨hnew, rfl⟩
      · exact hb
      · rw [names, List.map_append, List.map_singleton, List.nodup_append_comm,
          List.singleton_append, List.nodup_cons]
        exact ⟨(get?_eq_none_iff _ _).1 hnew, hb⟩

/-- Names are added in the order in which they first appear among the pairs. -/
theorem names_of_bindEach {found vars : List Variable} (h : bindEach s b pairs = some after)
    (hb : b.names = found.map Variable.name)
    (hnames : pairs.map Binding.name = vars.map Variable.name) :
    after.names = (vars.foldl Variable.addNew found).map Variable.name := by
  induction pairs generalizing b found vars with
  | nil =>
      cases h
      rw [List.map_eq_nil_iff.1 hnames.symm]
      exact hb
  | cons first rest ih =>
      obtain ⟨middle, hfirst, hrest⟩ := Option.bind_eq_some_iff.1 h
      cases vars with
      | nil => cases hnames
      | cons x vars =>
          obtain ⟨hname, hnames⟩ := List.cons.inj hnames
          rw [List.foldl_cons]
          refine ih hrest ?_ hnames
          have hknown : found.any (·.name = x.name) = true ↔ first.name ∈ b.names := by
            rw [hb, hname]
            simp
          unfold Variable.addNew
          rcases bind_eq_some_iff.1 hfirst with ⟨known, hget, -, rfl⟩ | ⟨hget, rfl⟩
          · rw [if_pos (hknown.2 ((get?_isSome_iff _ _).1 (by rw [hget]; rfl)))]
            exact hb
          · have hfresh := (get?_eq_none_iff _ _).1 hget
            rw [if_neg fun hany => hfresh (hknown.1 hany), List.map_append, ← hb, names,
              List.map_append]
            exact congrArg (names b ++ [·]) hname

/-- Every binding is an old one or the first pair with its name. -/
theorem first_of_bindEach (h : bindEach s b pairs = some after) {binding : Binding}
    (hbinding : binding ∈ after.bindings) :
    binding ∈ b.bindings ∨ ∃ front pair back, pairs = front ++ pair :: back ∧
      binding = ⟨pair.name, pair.value.resolve s, pair.position⟩ ∧ pair.name ∉ b.names ∧
      ∀ other ∈ front, other.name ≠ pair.name := by
  induction pairs generalizing b with
  | nil =>
      cases h
      exact Or.inl hbinding
  | cons first rest ih =>
      obtain ⟨middle, hfirst, hrest⟩ := Option.bind_eq_some_iff.1 h
      rcases bind_eq_some_iff.1 hfirst with ⟨known, hget, -, rfl⟩ | ⟨hget, rfl⟩
      · have hknown : first.name ∈ middle.names := (get?_isSome_iff _ _).1 (by rw [hget]; rfl)
        refine (ih hrest).imp_right ?_
        rintro ⟨front, pair, back, rfl, rfl, hnew, hfront⟩
        refine ⟨first :: front, pair, back, rfl, rfl, hnew, ?_⟩
        rw [List.forall_mem_cons]
        exact ⟨fun hname => hnew (hname ▸ hknown), hfront⟩
      · have hfresh := (get?_eq_none_iff _ _).1 hget
        rcases ih hrest with hmiddle | ⟨front, pair, back, rfl, rfl, hnew, hfront⟩
        · rcases List.mem_append.1 hmiddle with hold | hlast
          · exact Or.inl hold
          · refine Or.inr ⟨[], first, rest, rfl, List.mem_singleton.1 hlast, hfresh, ?_⟩
            exact fun _ hother => absurd hother List.not_mem_nil
        · rw [names, List.map_append, List.mem_append, not_or] at hnew
          refine Or.inr ⟨first :: front, pair, back, rfl, rfl, hnew.1, ?_⟩
          rw [List.forall_mem_cons]
          exact ⟨fun hname => hnew.2 (List.mem_singleton.2 hname.symm), hfront⟩

/-! ### From nothing -/

theorem mem_names_of_bindEach (h : bindEach s .empty pairs = some after) (name : Path) :
    name ∈ after.names ↔ name ∈ pairs.map Binding.name := by
  constructor
  · intro hname
    obtain ⟨binding, hbinding, rfl⟩ := List.mem_map.1 hname
    rcases origin_of_bindEach h hbinding with hold | ⟨pair, hpair, horigin, _⟩
    · cases hold
    · exact List.mem_map.2 ⟨pair, hpair, horigin.symm⟩
  · intro hname
    obtain ⟨pair, hpair, rfl⟩ := List.mem_map.1 hname
    obtain ⟨t, ht, _⟩ := agrees_of_bindEach h hpair
    rw [← get?_isSome_iff, ht]
    rfl

/-- What holds of all the terms in pairs holds of the terms that are bound. -/
theorem forall_of_bindEach {P : Term → Prop} (hpairs : ∀ pair ∈ pairs, P (pair.value.resolve s))
    (h : bindEach s .empty pairs = some after) {name : Path} {t : Term}
    (ht : after.get? name = some t) : P t := by
  obtain ⟨binding, hbinding, -, rfl⟩ := exists_of_get? ht
  rcases origin_of_bindEach h hbinding with hold | ⟨pair, hpair, -, hvalue⟩
  · cases hold
  · rw [hvalue]
    exact hpairs pair hpair

/-- The size of a binding set is the number of the variables that were paired. -/
theorem size_eq_of_bindEach (h : bindEach s .empty pairs = some after) {vars : List Variable}
    (hvars : ∀ name, name ∈ pairs.map Binding.name ↔ name ∈ vars.map Variable.name) :
    after.size = (Variable.distinct vars).length := by
  have hperm : after.names.Perm ((Variable.distinct vars).map Variable.name) := by
    rw [List.perm_ext_iff_of_nodup (nodup_names_of_bindEach h List.nodup_nil)
      (Variable.nodup_names_distinct vars)]
    intro name
    rw [mem_names_of_bindEach h, hvars, Variable.mem_names_distinct]
  simpa [names, size] using hperm.length_eq

end BindingSet

end Deliberation
