import Deliberation.Proofs.Term.Agreement

/-!
# Writing in any order

Terms are written to names one after the other, and where they come from says
nothing about their order.  Every order has the same outcome in two cases only:
no name is a constant and no two different terms are written to one place, or all
constants refuse with one message and nothing else would change anything.
-/

namespace Deliberation

namespace Context

/-! ## Scopes that are the same -/

/-- Two scopes have one store, and every name stands for the same variable in both. -/
structure Scope.Same (first second : Scope) : Prop where
  store : first.store = second.store
  lookup : ∀ name, first.context.get? name = second.context.get? name

section Same

variable {a b c a' b' : Scope} {name : Path} {t : Term}

namespace Scope.Same

theorem refl (a : Scope) : a.Same a := ⟨rfl, fun _ => rfl⟩

theorem symm (h : a.Same b) : b.Same a := ⟨h.store.symm, fun name => (h.lookup name).symm⟩

theorem trans (h : a.Same b) (h' : b.Same c) : a.Same c :=
  ⟨h.store.trans h'.store, fun name => (h.lookup name).trans (h'.lookup name)⟩

theorem fixes (h : a.Same b) (name : Path) : a.context.fixes name = b.context.fixes name := by
  rw [Context.fixes, Context.fixes, h.lookup]

theorem slot? (h : a.Same b) (name : Path) : a.context.slot? name = b.context.slot? name := by
  rw [Context.slot?, Context.slot?, h.lookup]

theorem value? (h : a.Same b) (name : Path) :
    a.context.value? a.store name = b.context.value? b.store name := by
  rw [Context.value?, Context.value?, h.lookup, h.store]

theorem owns (h : a.Same b) (hb : b.context.Owns b.store) : a.context.Owns a.store where
  inside hx hcell := by
    rw [h.lookup] at hx
    exact h.store ▸ hb.inside hx hcell
  apart hx hy hcell hcell' := by
    rw [h.lookup] at hx hy
    exact hb.apart hx hy hcell hcell'

/-- A scope agrees with what a scope agrees with that is the same. -/
theorem alike (h : a.Same b) {hidden : SlotId → Prop} {names : Path → Prop}
    (hb : b.Alike hidden names c) : a.Alike hidden names c where
  store := h.store ▸ hb.store
  owns := ⟨h.owns hb.owns.1, hb.owns.2⟩
  kind name hname := by
    rw [Context.kind?, h.lookup]
    exact hb.kind name hname
  value name hname := (h.value? name).trans (hb.value name hname)
  slot name i j hname hi := hb.slot name i j hname ((h.slot? name).symm.trans hi)

theorem unchanged (h : a.Same b) {name : Path} (hb : c.Unchanged name b) :
    c.Unchanged name a where
  lookup := (h.lookup name).trans hb.lookup
  value := (h.value? name).trans hb.value

end Scope.Same

/-- The variable that a name stands for when it was bound. -/
def filled (name : Path) (t : Term) : Option Variable → Variable
  | none => ⟨name, .free (some t)⟩
  | some ⟨own, .free _⟩ => ⟨own, .free (some t)⟩
  | some ⟨own, .relocate target _⟩ => ⟨own, .relocate target (some t)⟩
  | some x => x

theorem get?_bound (h : bindIn a name t = .ok a') :
    a'.context.get? name = some (filled name t (a.context.get? name)) := by
  cases hx : a.context.get? name with
  | none =>
      simp only [bindIn, hx] at h
      cases h
      exact (get?_insert _ _ _).trans (if_pos rfl)
  | some x =>
      have hname := name_of_get? hx
      obtain ⟨own, cell⟩ := x
      simp only [bindIn, hx, Variable.set] at h
      cases cell <;> cases h <;> exact (get?_insert _ _ _).trans (if_pos hname)

theorem Scope.Same.bindIn (h : a.Same b) (ha : Context.bindIn a name t = .ok a')
    (hb : Context.bindIn b name t = .ok b') : a'.Same b' where
  store := by rw [store_of_bindIn ha, store_of_bindIn hb, h.slot?, h.store]
  lookup other := by
    by_cases hother : name = other
    · rw [← hother, get?_bound ha, get?_bound hb, h.lookup]
    · rw [get?_of_bindIn ha hother, get?_of_bindIn hb hother, h.lookup]

/-- In scopes that are the same the same is written. -/
theorem Scope.Same.bindAll (h : a.Same b) (pairs : List (Path × Term)) :
    (Context.bindAll pairs a).1 = (Context.bindAll pairs b).1 ∧
      (Context.bindAll pairs a).2.Same (Context.bindAll pairs b).2 := by
  induction pairs generalizing a b with
  | nil => exact ⟨rfl, h⟩
  | cons pair rest ih =>
      rw [bindAll_cons, bindAll_cons]
      cases hfixed : a.context.fixes pair.1 with
      | true =>
          rw [bindIn_of_fixes hfixed, bindIn_of_fixes ((h.fixes _).symm.trans hfixed)]
          exact ⟨rfl, h⟩
      | false =>
          obtain ⟨a', ha⟩ := exists_bindIn_of_not_fixes hfixed pair.2
          obtain ⟨b', hb⟩ := exists_bindIn_of_not_fixes ((h.fixes _).symm.trans hfixed) pair.2
          rw [ha, hb]
          exact ih (h.bindIn ha hb)

end Same

/-! ## Places -/

/-- Whether two names keep their values in one place: they are one name, or share a slot. -/
def Meets (c : Context) (first second : Path) : Prop :=
  first = second ∨ ∃ i, c.slot? first = some i ∧ c.slot? second = some i

/-- The slots of a context are slots of the store. -/
def Inside (s : Store) (c : Context) : Prop :=
  ∀ name i, c.slot? name = some i → i < s.slots.size

section Places

variable {scope middle after : Scope} {name other : Path} {t u : Term}

theorem Scope.Evolves.meets {first second : Path} (h : scope.Evolves after) :
    after.context.Meets first second ↔ scope.context.Meets first second := by
  rw [Meets, Meets, h.slot?, h.slot?]

theorem Inside.evolves (h : scope.context.Inside scope.store) (hevolves : scope.Evolves after) :
    after.context.Inside after.store := by
  intro name i hi
  rw [hevolves.slot?] at hi
  exact Nat.lt_of_lt_of_le (h name i hi) hevolves.size

/-- What is written to a name is then the value of all names that meet it. -/
theorem value?_of_meets (hinside : scope.context.Inside scope.store)
    (h : bindIn scope name t = .ok after) (hmeets : scope.context.Meets name other) :
    after.context.value? after.store other = some t := by
  cases hslot : scope.context.slot? name with
  | some i =>
      have hother : scope.context.slot? other = some i := by
        obtain rfl | ⟨j, hj, hother⟩ := hmeets
        · exact hslot
        · rwa [← Option.some.inj (hslot.symm.trans hj)] at hother
      rw [value?_of_slot? (((evolves_of_bindIn h).slot? other).trans hother), store_of_bindIn h,
        hslot]
      exact (Store.readSlot_writeSlot (hinside name i hslot) t i).trans (if_pos rfl)
  | none =>
      obtain rfl | ⟨j, hj, -⟩ := hmeets
      · rw [value?_of_get? (get?_bound h)]
        cases hx : scope.context.get? name with
        | none => rfl
        | some x =>
            rw [slot?, hx] at hslot
            obtain ⟨own, cell⟩ := x
            cases cell with
            | free value => rfl
            | relocate target value => rfl
            | mutex i => cases hslot
            | constant value =>
                have hfixed : scope.context.fixes name = true := by
                  rw [fixes, hx]
                  rfl
                rw [bindIn_of_fixes hfixed] at h
                cases h
      · rw [hslot] at hj
        cases hj

/-- Terms for different places can be written in either order, and so can one term twice. -/
theorem same_of_swap {first second first' second' : Scope}
    (hagree : scope.context.Meets name other → t = u)
    (h : bindIn scope name t = .ok first) (hthen : bindIn first other u = .ok second)
    (h' : bindIn scope other u = .ok first') (hthen' : bindIn first' name t = .ok second') :
    second.Same second' := by
  have hslot := (evolves_of_bindIn h).slot? other
  have hslot' := (evolves_of_bindIn h').slot? name
  by_cases hname : name = other
  · obtain rfl := hname
    obtain rfl := hagree (Or.inl rfl)
    obtain rfl := Except.ok.inj (h.symm.trans h')
    obtain rfl := Except.ok.inj (hthen.symm.trans hthen')
    exact .refl second
  · constructor
    · rw [store_of_bindIn hthen, store_of_bindIn hthen', hslot, hslot', store_of_bindIn h,
        store_of_bindIn h']
      cases hi : scope.context.slot? name with
      | none => rfl
      | some i =>
          cases hj : scope.context.slot? other with
          | none => rfl
          | some j =>
              by_cases hij : i = j
              · rw [hagree (Or.inr ⟨i, hi, hij ▸ hj⟩), hij]
              · exact congrArg (Store.mk scope.store.heap) (Array.setIfInBounds_comm _ _ hij)
    · intro wanted
      by_cases hfirst : name = wanted
      · have hsecond : other ≠ wanted := fun h => hname (hfirst.trans h.symm)
        rw [get?_of_bindIn hthen hsecond, ← hfirst, get?_bound h, get?_bound hthen',
          get?_of_bindIn h' (Ne.symm hname)]
      · by_cases hsecond : other = wanted
        · rw [get?_of_bindIn hthen' hfirst, ← hsecond, get?_bound h', get?_bound hthen,
            get?_of_bindIn h hname]
        · rw [get?_of_bindIn hthen hsecond, get?_of_bindIn h hfirst, get?_of_bindIn hthen' hfirst,
            get?_of_bindIn h' hsecond]

end Places

/-! ## Orders that agree -/

/-- Two orders of writing have one result and leave the same scope. -/
def Scope.SameOutcome (scope : Scope) (first second : List (Path × Term)) : Prop :=
  (bindAll first scope).1 = (bindAll second scope).1 ∧
    (bindAll first scope).2.Same (bindAll second scope).2

/-- No constant is among the names. -/
def Scope.Unfixed (scope : Scope) (pairs : List (Path × Term)) : Prop :=
  ∀ p ∈ pairs, scope.context.fixes p.1 = false

/-- No constant is among the names, and names that meet get one and the same term. -/
structure Scope.Compatible (scope : Scope) (pairs : List (Path × Term)) : Prop where
  unfixed : scope.Unfixed pairs
  agree : ∀ p ∈ pairs, ∀ q ∈ pairs, scope.context.Meets p.1 q.1 → p.2 = q.2

/-- Constants are among the names and refuse with one message; other names have their terms
already. -/
structure Scope.Idle (scope : Scope) (pairs : List (Path × Term)) : Prop where
  refused : ∃ p ∈ pairs, scope.context.fixes p.1 = true
  message : ∀ p ∈ pairs, ∀ q ∈ pairs, scope.context.fixes p.1 = true →
    scope.context.fixes q.1 = true → p.1.text = q.1.text
  idle : ∀ p ∈ pairs, scope.context.fixes p.1 = false → ∀ after,
    bindIn scope p.1 p.2 = .ok after → after.Same scope

section Orders

variable {scope after : Scope} {pairs others : List (Path × Term)} {p : Path × Term}

theorem Scope.SameOutcome.trans {more : List (Path × Term)} (h : scope.SameOutcome pairs others)
    (h' : scope.SameOutcome others more) : scope.SameOutcome pairs more :=
  ⟨h.1.trans h'.1, h.2.trans h'.2⟩

namespace Scope.Unfixed

/-- The first name is bound, and the rest goes on from there. -/
theorem step (h : scope.Unfixed (p :: pairs)) :
    ∃ after, bindIn scope p.1 p.2 = .ok after ∧ scope.Evolves after ∧ after.Unfixed pairs ∧
      bindAll (p :: pairs) scope = bindAll pairs after := by
  obtain ⟨hfirst, hrest⟩ := List.forall_mem_cons.1 h
  obtain ⟨after, hbind⟩ := exists_bindIn_of_not_fixes hfirst p.2
  have hevolves := evolves_of_bindIn hbind
  refine ⟨after, hbind, hevolves, fun q hq => (hevolves.fixes q.1).trans (hrest q hq), ?_⟩
  rw [bindAll_cons, hbind]

/-- The term that is written last is the value of all names that meet its name. -/
theorem value?_last (h : scope.Unfixed (pairs ++ [p]))
    (hinside : scope.context.Inside scope.store) {name : Path}
    (hmeets : scope.context.Meets p.1 name) :
    (bindAll (pairs ++ [p]) scope).2.context.value? (bindAll (pairs ++ [p]) scope).2.store name =
      some p.2 := by
  induction pairs generalizing scope with
  | nil =>
      obtain ⟨after, hbind, -, -, hrest⟩ := h.step
      rw [List.nil_append, hrest]
      exact value?_of_meets hinside hbind hmeets
  | cons first rest ih =>
      rw [List.cons_append] at h ⊢
      obtain ⟨after, -, hevolves, hafter, hrest⟩ := h.step
      rw [hrest]
      exact ih hafter (hinside.evolves hevolves) (hevolves.meets.2 hmeets)

end Scope.Unfixed

namespace Scope.Compatible

theorem perm (h : scope.Compatible pairs) (hperm : others.Perm pairs) :
    scope.Compatible others where
  unfixed p hp := h.unfixed p (hperm.subset hp)
  agree p hp q hq := h.agree p (hperm.subset hp) q (hperm.subset hq)

theorem rest (h : scope.Compatible (p :: pairs)) (hafter : bindIn scope p.1 p.2 = .ok after) :
    after.Compatible pairs where
  unfixed q hq := ((evolves_of_bindIn hafter).fixes q.1).trans
    (h.unfixed q (List.mem_cons_of_mem p hq))
  agree q hq r hr hmeets := h.agree q (List.mem_cons_of_mem p hq) r (List.mem_cons_of_mem p hr)
    ((evolves_of_bindIn hafter).meets.1 hmeets)

/-- Compatible terms are written with one outcome in every order. -/
theorem sameOutcome (h : scope.Compatible pairs) (hperm : others.Perm pairs) :
    scope.SameOutcome others pairs := by
  induction hperm generalizing scope with
  | nil => exact ⟨rfl, .refl scope⟩
  | cons p hperm ih =>
      obtain ⟨after, hbind, -, -, hrest⟩ := h.unfixed.step
      obtain ⟨after', hbind', -, -, hrest'⟩ := (h.perm (hperm.cons p)).unfixed.step
      obtain rfl := Except.ok.inj (hbind.symm.trans hbind')
      rw [SameOutcome, hrest, hrest']
      exact ih (h.rest hbind)
  | swap p q rest =>
      obtain ⟨first, hfirst, -, hlater, hrest⟩ := h.unfixed.step
      obtain ⟨second, hsecond, -, -, hrest'⟩ := hlater.step
      obtain ⟨first', hfirst', -, hlater', hother⟩ := (h.perm (.swap p q rest)).unfixed.step
      obtain ⟨second', hsecond', -, -, hother'⟩ := hlater'.step
      have hagree := h.agree p List.mem_cons_self q (List.mem_cons_of_mem _ List.mem_cons_self)
      rw [SameOutcome, hrest, hrest', hother, hother']
      exact (same_of_swap hagree hfirst hsecond hfirst' hsecond').symm.bindAll rest
  | trans hfirst hsecond ih ih' => exact (ih (h.perm hsecond)).trans (ih' h)

end Scope.Compatible

/-- Idle terms leave the scope as it is, and the message is that of any constant among them. -/
theorem Scope.Idle.bindAll (h : scope.Idle pairs) (hp : p ∈ pairs)
    (hfixed : scope.context.fixes p.1 = true) :
    (Context.bindAll pairs scope).1 = .error (.constantRebind p.1.text) ∧
      (Context.bindAll pairs scope).2.Same scope := by
  induction pairs generalizing p with
  | nil => cases hp
  | cons first rest ih =>
      rw [bindAll_cons]
      cases hfirst : scope.context.fixes first.1 with
      | true =>
          rw [bindIn_of_fixes hfirst, h.message p hp first List.mem_cons_self hfixed hfirst]
          exact ⟨rfl, .refl scope⟩
      | false =>
          obtain ⟨after, hbind⟩ := exists_bindIn_of_not_fixes hfirst first.2
          have hsame := h.idle first List.mem_cons_self hfirst after hbind
          have hmem : p ∈ rest := by
            refine (List.mem_cons.1 hp).resolve_left ?_
            rintro rfl
            cases hfirst.symm.trans hfixed
          have hrest : scope.Idle rest :=
            ⟨⟨p, hmem, hfixed⟩,
              fun q hq r hr =>
                h.message q (List.mem_cons_of_mem _ hq) r (List.mem_cons_of_mem _ hr),
              fun q hq => h.idle q (List.mem_cons_of_mem _ hq)⟩
          obtain ⟨hresult, hafter⟩ := ih hrest hmem hfixed
          obtain ⟨hresult', hafter'⟩ := hsame.bindAll rest
          rw [hbind]
          exact ⟨hresult'.trans hresult, hafter'.trans hafter⟩

theorem Scope.Idle.sameOutcome (h : scope.Idle pairs) (hperm : others.Perm pairs) :
    scope.SameOutcome others pairs := by
  have hothers : scope.Idle others :=
    ⟨h.refused.imp fun p hp => ⟨hperm.mem_iff.2 hp.1, hp.2⟩,
      fun p hp q hq => h.message p (hperm.mem_iff.1 hp) q (hperm.mem_iff.1 hq),
      fun p hp => h.idle p (hperm.mem_iff.1 hp)⟩
  obtain ⟨p, hp, hfixed⟩ := h.refused
  obtain ⟨hresult, hafter⟩ := h.bindAll hp hfixed
  obtain ⟨hresult', hafter'⟩ := hothers.bindAll (hperm.mem_iff.2 hp) hfixed
  exact ⟨hresult'.trans hresult.symm, hafter'.trans hafter.symm⟩

/-! ## Orders that disagree -/

/-- An item of a list comes first in some order. -/
theorem exists_perm_cons {α : Type} {a : α} {items : List α} (h : a ∈ items) :
    ∃ rest, (a :: rest).Perm items := by
  obtain ⟨front, behind, rfl⟩ := List.append_of_mem h
  exact ⟨front ++ behind, List.perm_middle.symm⟩

theorem bindAll_of_fixes (hfixed : scope.context.fixes p.1 = true) (rest : List (Path × Term)) :
    bindAll (p :: rest) scope = (.error (.constantRebind p.1.text), scope) := by
  rw [bindAll_cons, bindIn_of_fixes hfixed]

/-- Without constants, what is written last to a place shows whether all agree on it. -/
theorem Scope.compatible_of_sameOutcome (hinside : scope.context.Inside scope.store)
    (hunfixed : scope.Unfixed pairs)
    (h : ∀ others, others.Perm pairs → scope.SameOutcome others pairs) :
    scope.Compatible pairs := by
  refine ⟨hunfixed, fun p hp q hq hmeets => ?_⟩
  have hlast : ∀ r ∈ pairs, scope.context.Meets r.1 q.1 →
      (bindAll pairs scope).2.context.value? (bindAll pairs scope).2.store q.1 = some r.2 := by
    intro r hr hrq
    obtain ⟨rest, hrest⟩ := exists_perm_cons hr
    have hperm : (rest ++ [r]).Perm pairs := (List.perm_append_singleton r rest).trans hrest
    have hunfixed' : scope.Unfixed (rest ++ [r]) := fun s hs => hunfixed s (hperm.subset hs)
    rw [← (h _ hperm).2.value?, hunfixed'.value?_last hinside hrq]
  exact Option.some.inj ((hlast p hp hmeets).symm.trans (hlast q hq (Or.inl rfl)))

/-- With a constant, what is written before it shows whether anything would change. -/
theorem Scope.idle_of_sameOutcome (hp : p ∈ pairs) (hfixed : scope.context.fixes p.1 = true)
    (h : ∀ others, others.Perm pairs → scope.SameOutcome others pairs) : scope.Idle pairs := by
  have hfirst : ∀ q ∈ pairs, scope.context.fixes q.1 = true →
      (bindAll pairs scope).1 = .error (.constantRebind q.1.text) ∧
        (bindAll pairs scope).2.Same scope := by
    intro q hq hq'
    obtain ⟨rest, hrest⟩ := exists_perm_cons hq
    obtain ⟨hresult, hsame⟩ := h _ hrest
    rw [bindAll_of_fixes hq'] at hresult hsame
    exact ⟨hresult.symm, hsame.symm⟩
  refine ⟨⟨p, hp, hfixed⟩, fun q hq r hr hq' hr' => ?_, fun q hq hq' after hbind => ?_⟩
  · have htexts := (hfirst q hq hq').1.symm.trans (hfirst r hr hr').1
    exact TermError.constantRebind.inj (Except.error.inj htexts)
  · -- the constant comes right behind the name
    obtain ⟨others, hothers⟩ := exists_perm_cons hq
    have hmem : p ∈ others := by
      refine (List.mem_cons.1 (hothers.mem_iff.2 hp)).resolve_left ?_
      rintro rfl
      cases hq'.symm.trans hfixed
    obtain ⟨rest, hrest⟩ := exists_perm_cons hmem
    have hsame := (h _ ((hrest.cons q).trans hothers)).2
    rw [bindAll_cons, hbind] at hsame
    dsimp only at hsame
    rw [bindAll_of_fixes (((evolves_of_bindIn hbind).fixes p.1).trans hfixed)] at hsame
    exact hsame.trans (hfirst p hp hfixed).2

/-- All orders of writing have one outcome exactly if the terms are compatible or idle. -/
theorem Scope.sameOutcome_iff (hinside : scope.context.Inside scope.store) :
    (∀ others, others.Perm pairs → scope.SameOutcome others pairs) ↔
      scope.Compatible pairs ∨ scope.Idle pairs := by
  constructor
  · intro h
    by_cases hfixed : ∃ p ∈ pairs, scope.context.fixes p.1 = true
    · obtain ⟨p, hp, hfixed⟩ := hfixed
      exact Or.inr (idle_of_sameOutcome hp hfixed h)
    · refine Or.inl (compatible_of_sameOutcome hinside (fun p hp => ?_) h)
      exact Bool.eq_false_iff.2 fun hp' => hfixed ⟨p, hp, hp'⟩
  · rintro (h | h)
    · exact fun others => h.sameOutcome
    · exact fun others => h.sameOutcome

end Orders

end Context

end Deliberation
