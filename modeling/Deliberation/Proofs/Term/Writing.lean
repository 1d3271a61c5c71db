import Deliberation.Proofs.Matching.Binding

/-!
# Writing to contexts

Only a constant refuses to be bound.  So names that are bound in turn are all
bound, or the first constant among them stops the writing.  Whatever is written,
the variables that a context has keep their kind, their slot and their being
bound, constants keep their value, and new variables are free; of the slots of
the store only those of the context are written to.
-/

namespace Deliberation

variable {ε σ α β : Type}

/-- An effect leads from every state to a related one. -/
def Moves (R : σ → σ → Prop) (x : ExceptT ε (StateM σ) α) : Prop := ∀ s, R s (x s).2

namespace Moves

variable {R : σ → σ → Prop}

theorem pure (hrefl : ∀ s, R s s) (a : α) : Moves R (Pure.pure a : ExceptT ε (StateM σ) α) :=
  hrefl

theorem get (hrefl : ∀ s, R s s) : Moves R (MonadState.get : ExceptT ε (StateM σ) σ) := hrefl

theorem throw (hrefl : ∀ s, R s s) (e : ε) :
    Moves R (MonadExcept.throw e : ExceptT ε (StateM σ) α) := hrefl

theorem bind (htrans : ∀ {a b c}, R a b → R b c → R a c) {x : ExceptT ε (StateM σ) α}
    {f : α → ExceptT ε (StateM σ) β} (hx : Moves R x) (hf : ∀ a, Moves R (f a)) :
    Moves R (x >>= f) := by
  intro s
  have hs := hx s
  rw [bind_apply]
  cases happly : x s with
  | mk result after =>
      rw [happly] at hs
      cases result with
      | ok a => exact htrans hs (hf a after)
      | error e => exact hs

end Moves

/-! ## Cells -/

/-- What binding can make of a cell. -/
inductive Cell.Evolves : Cell → Cell → Prop where
  | free {before after : Option Term} (h : before.isSome → after.isSome) :
      Evolves (.free before) (.free after)
  | constant (t : Term) : Evolves (.constant t) (.constant t)
  | mutex (i : SlotId) : Evolves (.mutex i) (.mutex i)
  | relocate (target : Path) {before after : Option Term} (h : before.isSome → after.isSome) :
      Evolves (.relocate target before) (.relocate target after)

namespace Cell.Evolves

theorem refl (cell : Cell) : cell.Evolves cell := by
  cases cell with
  | free value => exact .free id
  | constant t => exact .constant t
  | mutex i => exact .mutex i
  | relocate target value => exact .relocate target id

theorem trans {first second third : Cell} (h : first.Evolves second) (h' : second.Evolves third) :
    first.Evolves third := by
  cases h with
  | free h =>
      cases h' with
      | free h' => exact .free (h' ∘ h)
  | constant t => exact h'
  | mutex i => exact h'
  | relocate target h =>
      cases h' with
      | relocate _ h' => exact .relocate target (h' ∘ h)

theorem kind {before after : Cell} (h : before.Evolves after) : after.kind = before.kind := by
  cases h <;> rfl

theorem eq_mutex {before after : Cell} (h : before.Evolves after) {i : SlotId} :
    after = .mutex i ↔ before = .mutex i := by
  cases h <;> simp

end Cell.Evolves

theorem Variable.evolves_of_set {s after : Store} {x y : Variable} {t : Term}
    (h : x.set s t = .ok (after, y)) : x.cell.Evolves y.cell := by
  obtain ⟨name, cell⟩ := x
  cases cell with
  | free value =>
      cases h
      exact .free fun _ => rfl
  | constant value => cases h
  | mutex slot =>
      cases h
      exact .mutex slot
  | relocate target value =>
      cases h
      exact .relocate target fun _ => rfl

/-- Binding a variable changes the store in its slot at most. -/
theorem Variable.store_of_set {s after : Store} {x y : Variable} {t : Term}
    (h : x.set s t = .ok (after, y)) :
    after = s ∨ ∃ i, x.cell = .mutex i ∧ after = s.writeSlot i t := by
  obtain ⟨name, cell⟩ := x
  cases cell with
  | free value =>
      cases h
      exact .inl rfl
  | constant value => cases h
  | mutex i =>
      cases h
      exact .inr ⟨i, rfl, rfl⟩
  | relocate target value =>
      cases h
      exact .inl rfl

theorem Variable.name_unboundCopy (x : Variable) (s : Store) :
    (x.unboundCopy s).1.name = x.name := by
  unfold unboundCopy
  cases x.cell <;> rfl

theorem Variable.kind_unboundCopy (x : Variable) (s : Store) :
    (x.unboundCopy s).1.kind = x.kind := by
  obtain ⟨name, cell⟩ := x
  cases cell <;> rfl

theorem Store.isSome_readSlot_writeSlot {s : Store} {i j : SlotId} (t : Term)
    (h : (s.readSlot j).isSome) : ((s.writeSlot i t).readSlot j).isSome := by
  by_cases hi : i < s.slots.size
  · rw [readSlot_writeSlot hi]
    split
    · rfl
    · exact h
  · rwa [writeSlot_of_size_le (Nat.le_of_not_lt hi)]

namespace Context

theorem value?_of_get? {c : Context} {name : Path} {x : Variable} (h : c.get? name = some x)
    (s : Store) : c.value? s name = x.value? s := by
  rw [value?, h, Option.bind_some]

theorem Owns.mono {s after : Store} {c : Context} (howns : c.Owns s)
    (hsize : s.slots.size ≤ after.slots.size) : c.Owns after where
  inside hx hcell := Nat.lt_of_lt_of_le (howns.inside hx hcell) hsize
  apart := howns.apart

/-- Each name stands for one variable at most. -/
def Distinct (c : Context) : Prop := (c.vars.map Variable.name).Nodup

theorem mem_names_insertInto {x : Variable} {vars : List Variable} {name : Path}
    (h : name ∈ (insertInto x vars).map Variable.name) :
    name = x.name ∨ name ∈ vars.map Variable.name := by
  induction vars with
  | nil => exact .inl (List.mem_singleton.1 h)
  | cons y rest ih =>
      unfold insertInto at h
      split at h
      · exact (List.mem_cons.1 h).imp_right (List.mem_cons_of_mem _)
      · rcases List.mem_cons.1 h with rfl | h
        · exact .inr List.mem_cons_self
        · exact (ih h).imp_right (List.mem_cons_of_mem _)

theorem Distinct.insert {c : Context} (h : c.Distinct) (x : Variable) : (c.insert x).Distinct := by
  obtain ⟨vars⟩ := c
  unfold Distinct Context.insert at *
  dsimp only at h ⊢
  induction vars with
  | nil => exact List.nodup_singleton _
  | cons y rest ih =>
      obtain ⟨hnew, hrest⟩ := List.nodup_cons.1 h
      unfold insertInto
      split
      · next hname => exact List.nodup_cons.2 ⟨hname ▸ hnew, hrest⟩
      · next hname =>
          refine List.nodup_cons.2 ⟨fun hmem => ?_, ih hrest⟩
          exact (mem_names_insertInto hmem).elim hname hnew

theorem distinct_ofVariables (vars : List Variable) (s : Store) :
    (ofVariables vars s).1.Distinct :=
  ofVariables_induction (motive := fun c _ => c.Distinct) List.nodup_nil
    (fun _ _ _ hc => hc.insert _) vars

theorem Distinct.get?_of_mem {c : Context} (h : c.Distinct) {x : Variable} (hx : x ∈ c.vars) :
    c.get? x.name = some x := by
  cases hfound : c.get? x.name with
  | none => exact absurd (decide_eq_true rfl) (List.find?_eq_none.1 hfound x hx)
  | some y =>
      have hy : y ∈ c.vars := List.mem_of_find?_eq_some hfound
      rw [List.inj_on_of_nodup_map h hy hx (name_of_get? hfound)]

/-! ## Scopes -/

/-- Whether a slot belongs to a variable of a context. -/
def HasSlot (c : Context) (i : SlotId) : Prop := ∃ name x, c.get? name = some x ∧ x.cell = .mutex i

/-- An operation has written to slots of its own context only, and has not got other slots. -/
structure Scope.Confined (before after : Scope) : Prop where
  size : before.store.slots.size ≤ after.store.slots.size
  bound : ∀ i, (before.store.readSlot i).isSome → (after.store.readSlot i).isSome
  spared : ∀ i < before.store.slots.size, ¬ before.context.HasSlot i →
    after.store.readSlot i = before.store.readSlot i
  slots : ∀ {i}, after.context.HasSlot i → before.context.HasSlot i
  distinct : before.context.Distinct → after.context.Distinct

/-- An operation has bound variables of a context and added free ones. -/
structure Scope.Evolves (before after : Scope) : Prop extends Scope.Confined before after where
  known : ∀ {name x}, before.context.get? name = some x →
    ∃ y, after.context.get? name = some y ∧ x.cell.Evolves y.cell
  new : ∀ {name y}, before.context.get? name = none → after.context.get? name = some y →
    y.kind = .free

namespace Scope

theorem Confined.refl (scope : Scope) : scope.Confined scope :=
  ⟨Nat.le_refl _, fun _ h => h, fun _ _ _ => rfl, id, id⟩

theorem Confined.trans {first second third : Scope} (h : first.Confined second)
    (h' : second.Confined third) : first.Confined third where
  size := Nat.le_trans h.size h'.size
  bound i hi := h'.bound i (h.bound i hi)
  spared i hi hslot :=
    (h'.spared i (Nat.lt_of_lt_of_le hi h.size) fun hmiddle => hslot (h.slots hmiddle)).trans
      (h.spared i hi hslot)
  slots hi := h.slots (h'.slots hi)
  distinct hc := h'.distinct (h.distinct hc)

theorem Evolves.refl (scope : Scope) : scope.Evolves scope where
  toConfined := .refl scope
  known h := ⟨_, h, .refl _⟩
  new hnone hsome := by
    rw [hnone] at hsome
    cases hsome

theorem Evolves.trans {first second third : Scope} (h : first.Evolves second)
    (h' : second.Evolves third) : first.Evolves third where
  toConfined := h.toConfined.trans h'.toConfined
  known hx := by
    obtain ⟨y, hy, hxy⟩ := h.known hx
    obtain ⟨z, hz, hyz⟩ := h'.known hy
    exact ⟨z, hz, hxy.trans hyz⟩
  new {name z} hnone hz := by
    cases hy : second.context.get? name with
    | none => exact h'.new hy hz
    | some y =>
        obtain ⟨w, hw, hyw⟩ := h'.known hy
        rw [hz] at hw
        cases hw
        exact hyw.kind.trans (h.new hnone hy)

/-- A variable is put in the place of one that it has evolved from, or is a new free one. -/
theorem evolves_insert {s : Store} {scope : Scope} {x : Variable}
    (hsize : scope.store.slots.size ≤ s.slots.size)
    (hbound : ∀ i, (scope.store.readSlot i).isSome → (s.readSlot i).isSome)
    (hspared : ∀ i < scope.store.slots.size, ¬ scope.context.HasSlot i →
      s.readSlot i = scope.store.readSlot i)
    (hknown : ∀ y, scope.context.get? x.name = some y → y.cell.Evolves x.cell)
    (hnew : scope.context.get? x.name = none → x.kind = .free) :
    scope.Evolves ⟨s, scope.context.insert x⟩ where
  size := hsize
  bound := hbound
  spared := hspared
  slots := by
    rintro i ⟨name, y, hy, hcell⟩
    rw [get?_insert] at hy
    split at hy
    · cases hy
      cases hbefore : scope.context.get? x.name with
      | none =>
          have hfree := hnew hbefore
          rw [Variable.kind, hcell] at hfree
          cases hfree
      | some z => exact ⟨x.name, z, hbefore, (hknown z hbefore).eq_mutex.1 hcell⟩
    · exact ⟨name, y, hy, hcell⟩
  distinct hc := hc.insert x
  known {name y} hy := by
    dsimp only
    rw [get?_insert]
    split
    · next hname => exact ⟨x, rfl, hknown y (hname ▸ hy)⟩
    · exact ⟨y, hy, .refl _⟩
  new {name y} hnone hy := by
    dsimp only at hy
    rw [get?_insert] at hy
    split at hy
    · next hname =>
        cases hy
        exact hnew (hname ▸ hnone)
    · rw [hnone] at hy
      cases hy

end Scope

/-! ## Kinds -/

/-- The kind of the variable with a name. -/
def kind? (c : Context) (name : Path) : Option VariableKind := (c.get? name).map Variable.kind

theorem kind?_insert (c : Context) (x : Variable) (name : Path) :
    (c.insert x).kind? name = if x.name = name then some x.kind else c.kind? name := by
  rw [kind?, get?_insert, apply_ite (Option.map Variable.kind)]
  rfl

/-- The first variable with a name decides its kind in a new context. -/
theorem kind?_ofVariables (vars : List Variable) (s : Store) (name : Path) :
    (ofVariables vars s).1.kind? name = (vars.find? (·.name = name)).map Variable.kind := by
  have hfold : ∀ (c : Context) (s : Store),
      (StateT.run (vars.foldlM
        (fun c x => if c.contains x.name then pure c else c.insert <$> x.unboundCopy) c) s
          : Context × Store).1.kind? name =
        (c.kind? name).or ((vars.find? (·.name = name)).map Variable.kind) := by
    induction vars with
    | nil => exact fun c s => (Option.or_none ..).symm
    | cons x rest ih =>
        intro c s
        rw [List.foldlM_cons, List.find?_cons]
        by_cases hknown : c.contains x.name
        · rw [if_pos hknown]
          refine (ih c s).trans ?_
          by_cases hname : x.name = name
          · -- a variable of the name is there already, and its kind stays
            obtain ⟨y, hy⟩ := Option.isSome_iff_exists.1 hknown
            rw [kind?, ← hname, hy]
            rfl
          · simp only [hname, decide_false]
        · rw [if_neg hknown]
          refine (ih (c.insert (x.unboundCopy s).1) (x.unboundCopy s).2).trans ?_
          rw [kind?_insert, x.name_unboundCopy, x.kind_unboundCopy]
          by_cases hname : x.name = name
          · have hnone : c.kind? name = none := by
              rw [kind?, ← hname, Option.not_isSome_iff_eq_none.1 hknown, Option.map_none]
            simp only [hname, if_true, decide_true, hnone]
            rfl
          · simp only [hname, if_false, decide_false]
  exact hfold empty s

/-- A name keeps its kind, and a new one is that of a free variable. -/
theorem Scope.Evolves.kind? {before after : Scope} (h : before.Evolves after) (name : Path) :
    after.context.kind? name = before.context.kind? name ∨
      before.context.kind? name = none ∧ after.context.kind? name = some .free := by
  unfold Context.kind?
  cases hx : before.context.get? name with
  | some x =>
      obtain ⟨y, hy, hxy⟩ := h.known hx
      rw [hy, Option.map_some, Option.map_some, Variable.kind, Variable.kind, hxy.kind]
      exact .inl rfl
  | none =>
      cases hy : after.context.get? name with
      | none => exact .inl rfl
      | some y => exact .inr ⟨rfl, congrArg some (h.new hx hy)⟩

/-! ## Binding names in turn -/

/-- Whether a name stands for a constant. -/
def fixes (c : Context) (name : Path) : Bool := (c.get? name).any (·.kind = .constant)

theorem fixes_eq (c : Context) (name : Path) : c.fixes name = (c.kind? name == some .constant) := by
  unfold fixes kind?
  cases c.get? name with
  | none => rfl
  | some x => simp [beq_eq_decide]

/-- A constant always has a value. -/
theorem isSome_value?_of_fixes {c : Context} {name : Path} (h : c.fixes name = true) (s : Store) :
    (c.value? s name).isSome := by
  unfold fixes at h
  cases hx : c.get? name with
  | none =>
      rw [hx] at h
      cases h
  | some x =>
      rw [hx] at h
      rw [value?_of_get? hx]
      obtain ⟨known, cell⟩ := x
      cases cell with
      | constant value => rfl
      | free value => cases h
      | mutex i => cases h
      | relocate target value => cases h

theorem evolves_of_bindIn {scope after : Scope} {name : Path} {t : Term}
    (h : bindIn scope name t = .ok after) : scope.Evolves after := by
  cases hx : scope.context.get? name with
  | none =>
      simp only [bindIn, hx] at h
      cases h
      refine Scope.evolves_insert (Nat.le_refl _) (fun _ h => h) (fun _ _ _ => rfl) ?_ fun _ => rfl
      intro y hy
      rw [hx] at hy
      cases hy
  | some x =>
      cases hset : x.set scope.store t with
      | error e =>
          simp only [bindIn, hx, hset] at h
          cases h
      | ok filled =>
          obtain ⟨store, y⟩ := filled
          simp only [bindIn, hx, hset] at h
          cases h
          have hname : y.name = name := (Variable.name_of_set hset).trans (name_of_get? hx)
          have hcell := Variable.evolves_of_set hset
          have hslots : ∀ z, scope.context.get? y.name = some z → z.cell.Evolves y.cell := by
            intro z hz
            rw [hname, hx] at hz
            cases hz
            exact hcell
          have hknown : scope.context.get? y.name = none → y.kind = .free := by
            intro hnone
            rw [hname, hx] at hnone
            cases hnone
          rcases Variable.store_of_set hset with rfl | ⟨i, hi, rfl⟩
          · exact Scope.evolves_insert (Nat.le_refl _) (fun _ h => h) (fun _ _ _ => rfl) hslots
              hknown
          · refine Scope.evolves_insert ?_ (fun _ => Store.isSome_readSlot_writeSlot t) ?_ hslots
              hknown
            · exact Nat.le_of_eq (Array.size_setIfInBounds ..).symm
            · intro j _ hj
              refine Store.readSlot_writeSlot_of_ne t ?_
              rintro rfl
              exact hj ⟨name, x, hx, hi⟩

theorem Scope.Evolves.fixes {before after : Scope} (h : before.Evolves after) (name : Path) :
    after.context.fixes name = before.context.fixes name := by
  rw [fixes_eq, fixes_eq]
  rcases h.kind? name with hkind | ⟨hnone, hfree⟩
  · rw [hkind]
  · rw [hnone, hfree]
    rfl

/-- Binding a constant is refused. -/
theorem bindIn_of_fixes {scope : Scope} {name : Path} (h : scope.context.fixes name = true)
    (t : Term) : bindIn scope name t = .error (.constantRebind name.text) := by
  unfold fixes at h
  cases hx : scope.context.get? name with
  | none =>
      rw [hx] at h
      cases h
  | some x =>
      rw [hx, Option.any_some, decide_eq_true_eq] at h
      have hname := name_of_get? hx
      obtain ⟨known, cell⟩ := x
      cases cell with
      | constant value =>
          subst hname
          simp only [bindIn, hx, Variable.set]
      | free value => cases h
      | mutex i => cases h
      | relocate target value => cases h

/-- Binding anything but a constant succeeds. -/
theorem exists_bindIn_of_not_fixes {scope : Scope} {name : Path}
    (h : scope.context.fixes name = false) (t : Term) :
    ∃ after, bindIn scope name t = .ok after := by
  unfold fixes at h
  cases hx : scope.context.get? name with
  | none =>
      simp only [bindIn, hx]
      exact ⟨_, rfl⟩
  | some x =>
      rw [hx, Option.any_some, decide_eq_false_iff_not] at h
      obtain ⟨known, cell⟩ := x
      simp only [bindIn, hx]
      cases cell with
      | constant value => exact absurd rfl h
      | free value => exact ⟨_, rfl⟩
      | mutex i => exact ⟨_, rfl⟩
      | relocate target value => exact ⟨_, rfl⟩

theorem bindAll_cons (name : Path) (t : Term) (rest : List (Path × Term)) (scope : Scope) :
    bindAll ((name, t) :: rest) scope =
      match bindIn scope name t with
      | .ok after => bindAll rest after
      | .error e => (.error e, scope) := by
  rw [bindAll, bind_apply, bind, bind_apply, get_apply]
  dsimp only
  cases bindIn scope name t <;> rfl

/-- Names are bound in turn up to the first constant among them. -/
theorem bindAll_result (pairs : List (Path × Term)) (scope : Scope) :
    (bindAll pairs scope).1 =
      match pairs.find? fun pair => scope.context.fixes pair.1 with
      | some pair => .error (.constantRebind pair.1.text)
      | none => .ok () := by
  induction pairs generalizing scope with
  | nil => rfl
  | cons pair rest ih =>
      obtain ⟨name, t⟩ := pair
      rw [bindAll_cons, List.find?_cons]
      cases hfixed : scope.context.fixes name with
      | true => rw [bindIn_of_fixes hfixed t]
      | false =>
          obtain ⟨after, hbind⟩ := exists_bindIn_of_not_fixes hfixed t
          rw [hbind, ih after]
          simp only [(evolves_of_bindIn hbind).fixes]

/-- Terms can be written to names that stand for no constant. -/
theorem exists_bindAll_of_not_fixes {pairs : List (Path × Term)} {scope : Scope}
    (h : ∀ name ∈ pairs.map Prod.fst, scope.context.fixes name = false) :
    ∃ after, bindAll pairs scope = (.ok (), after) := by
  have hresult := bindAll_result pairs scope
  have hfind : pairs.find? (fun pair => scope.context.fixes pair.1) = none := by
    rw [List.find?_eq_none]
    intro pair hpair
    rw [h pair.1 (List.mem_map_of_mem hpair)]
    exact Bool.false_ne_true
  rw [hfind] at hresult
  exact ⟨(bindAll pairs scope).2, Prod.ext hresult rfl⟩

/-- A name stands for the same variable with the same value as before. -/
structure Scope.Unchanged (name : Path) (before after : Scope) : Prop where
  lookup : after.context.get? name = before.context.get? name
  value : after.context.value? after.store name = before.context.value? before.store name

theorem Scope.Unchanged.refl (name : Path) (scope : Scope) : scope.Unchanged name scope :=
  ⟨rfl, rfl⟩

theorem Scope.Unchanged.trans {name : Path} {first second third : Scope}
    (h : first.Unchanged name second) (h' : second.Unchanged name third) :
    first.Unchanged name third :=
  ⟨h'.lookup.trans h.lookup, h'.value.trans h.value⟩

/-- The context is dropped, what was written to its slots stays. -/
theorem Scope.Unchanged.discard {name : Path} {s after : Store} {c d : Context}
    (h : Scope.Unchanged name ⟨s, c⟩ ⟨after, d⟩) : Scope.Unchanged name ⟨s, c⟩ ⟨after, c⟩ := by
  refine ⟨rfl, ?_⟩
  have hlookup : d.get? name = c.get? name := h.lookup
  have hvalue : d.value? after name = c.value? s name := h.value
  rwa [value?, hlookup] at hvalue

/-- Names that own their slots are bound without a change to other names. -/
theorem bindAll_keeps_others (scope : Scope) (howns : scope.context.Owns scope.store)
    (pairs : List (Path × Term)) :
    (bindAll pairs scope).2.context.Owns (bindAll pairs scope).2.store ∧
      ∀ name ∉ pairs.map Prod.fst, scope.Unchanged name (bindAll pairs scope).2 := by
  induction pairs generalizing scope with
  | nil => exact ⟨howns, fun name _ => .refl name scope⟩
  | cons pair rest ih =>
      obtain ⟨bound, t⟩ := pair
      rw [bindAll_cons]
      cases hbind : bindIn scope bound t with
      | error e => exact ⟨howns, fun name _ => .refl name scope⟩
      | ok middle =>
          have hbound := bound_of_bindIn howns hbind
          obtain ⟨hlater, hrest⟩ := ih middle hbound.owns
          refine ⟨hlater, fun name hname => ?_⟩
          obtain ⟨hother, hname⟩ := not_or.1 (mt List.mem_cons.2 hname)
          have hfirst : scope.Unchanged name middle :=
            ⟨get?_of_bindIn hbind (Ne.symm hother),
              (hbound.value name).trans (if_neg (Ne.symm hother))⟩
          exact hfirst.trans (hrest name hname)

theorem bind_evolves (name : Path) (t : Term) : Moves Scope.Evolves (bind name t) := by
  intro scope
  unfold bind
  rw [bind_apply, get_apply]
  dsimp only
  cases hbind : bindIn scope name t with
  | ok after => exact evolves_of_bindIn hbind
  | error e => exact .refl scope

theorem bindAll_evolves (pairs : List (Path × Term)) : Moves Scope.Evolves (bindAll pairs) := by
  induction pairs with
  | nil => exact .pure .refl ()
  | cons pair rest ih => exact .bind .trans (bind_evolves pair.1 pair.2) fun _ => ih

end Context

theorem BindingSet.apply_evolves (b : BindingSet) : Moves Context.Scope.Evolves b.apply :=
  Context.bindAll_evolves b.pairs

end Deliberation
