import Deliberation.Proofs.Matching.Attempts
import Deliberation.Proofs.Matching.Rejection

/-!
# Candidates on several workers

On a pool every candidate has a worker of its own, and the workers go on in any
order: one writes a binding to its copy of the context, another asks the guard,
and so on.  They share the store.  The answer is that of the first candidate, by
its place among the candidates, which is accepted or ends in an error; it is
known as soon as all candidates before it are rejected.

Where no variable left in the query is a mutex variable of the context, nothing is
written to the store.  Then no worker takes notice of the others, and whatever their
order is, the answer is the one that the candidates give when they are tried in turn.
Otherwise the workers write to one slot, the order shows, and what the candidates do
in turn is one way among others for a unification to end.
-/

namespace Deliberation

namespace Context

/-- A name does not stand for a mutex variable, so that copies of the context do not share it. -/
def Unshared (c : Context) (name : Path) : Prop := c.kind? name ≠ some .mutex

theorem Unshared.of_evolves {name : Path} {before after : Scope}
    (h : before.context.Unshared name) (hevolves : before.Evolves after) :
    after.context.Unshared name := by
  intro hmutex
  rcases hevolves.kind? name with hkind | ⟨-, hfree⟩
  · exact h (hkind.symm.trans hmutex)
  · cases hfree.symm.trans hmutex

/-- To bind a name that is not shared writes nothing outside the context. -/
theorem Unshared.bindIn {s : Store} {c : Context} {name : Path} (h : c.Unshared name) {t : Term}
    {after : Scope} (hbind : bindIn ⟨s, c⟩ name t = .ok after) : after.store = s := by
  unfold Context.bindIn at hbind
  cases hx : c.get? name with
  | none =>
      simp only [hx] at hbind
      cases hbind
      rfl
  | some x =>
      obtain ⟨known, cell⟩ := x
      simp only [hx] at hbind
      cases cell with
      | free value =>
          cases hbind
          rfl
      | constant value => cases hbind
      | mutex slot =>
          refine absurd ?_ h
          rw [kind?, hx]
          rfl
      | relocate target value =>
          cases hbind
          rfl

/-- None of the variables of a context is a mutex variable. -/
def SlotFree (c : Context) : Prop :=
  ∀ {name x}, c.get? name = some x → x.isMutex = false

theorem slotFree_of_forall_mem {c : Context} (h : ∀ x ∈ c.vars, x.isMutex = false) :
    c.SlotFree :=
  fun hx => h _ (List.mem_of_find?_eq_some hx)

theorem slotFree_iff_unshared {c : Context} : c.SlotFree ↔ ∀ name, c.Unshared name := by
  constructor
  · intro h name hkind
    obtain ⟨x, hx, hmutex⟩ := Option.map_eq_some_iff.1 hkind
    exact absurd (h hx) (by simp [Variable.isMutex, hmutex])
  · intro h name x hx
    refine Bool.eq_false_iff.2 fun hmutex => h name ?_
    rw [kind?, hx, Option.map_some, of_decide_eq_true hmutex]

/-- Without a mutex variable nothing is written outside the context. -/
theorem SlotFree.bindIn {s : Store} {c : Context} (h : c.SlotFree) {name : Path} {t : Term}
    {after : Scope} (hbind : bindIn ⟨s, c⟩ name t = .ok after) :
    after.store = s ∧ after.context.SlotFree := by
  have hunshared := slotFree_iff_unshared.1 h
  refine ⟨(hunshared name).bindIn hbind, slotFree_iff_unshared.2 fun other => ?_⟩
  exact (hunshared other).of_evolves (evolves_of_bindIn hbind)

end Context

namespace Unifier

/-! ## Workers -/

/-- How far a worker has come with a candidate. -/
inductive Trial where
  /-- A copy of the context, and the bindings that are still to be written to it. -/
  | writing (c : Context) (rest : List Binding)
  | ended (outcome : Except ExecutionError (Option Context))

namespace Trial

/-- The number of steps that a worker needs at most. -/
def remaining : Trial → Nat
  | .writing _ rest => rest.length + 1
  | .ended _ => 0

/-- Whether a worker has no mutex variable to write to. -/
def Apart : Trial → Prop
  | .writing c rest => ∀ binding ∈ rest, c.Unshared binding.name
  | .ended _ => True

section Step

variable (strategy : Strategy) (guard : Option Guard)

/-- What is said about a context to which all bindings are written. -/
def judge (s : Store) (c : Context) : Except ExecutionError (Option Context) :=
  match guard with
  | none => .ok (some c)
  | some test =>
      match test s c with
      | .error e => .error e
      | .ok verdict => .ok (if strategy.accepts verdict then some c else none)

/-- A worker writes one binding, or judges the context when there is none left. -/
def step (s : Store) : Trial → Store × Trial
  | .writing c [] => (s, .ended (judge strategy guard s c))
  | .writing c (binding :: rest) =>
      match Context.bindIn ⟨s, c⟩ binding.name binding.value with
      | .ok scope => (scope.store, .writing scope.context rest)
      | .error e => (s, .ended (.error (.term e)))
  | .ended outcome => (s, .ended outcome)

/-- What a worker comes to when it goes on alone. -/
def outcome (s : Store) : Trial → Except ExecutionError (Option Context)
  | .writing c rest => (attempt strategy c guard ⟨rest⟩ s).1
  | .ended outcome => outcome

end Step

end Trial

/-- Workers, one for each candidate, and the store that they share. -/
structure Race where
  store : Store
  trials : List Trial

namespace Race

/-- Every worker has a copy of the context and has written nothing. -/
def start (s : Store) (c : Context) (sets : List BindingSet) : Race :=
  ⟨s, sets.map fun b => .writing c b.bindings⟩

/-- One worker takes a step. -/
def step (strategy : Strategy) (guard : Option Guard) (race : Race) (i : Nat) : Race :=
  match race.trials[i]? with
  | some trial =>
      let (store, trial) := trial.step strategy guard race.store
      ⟨store, race.trials.set i trial⟩
  | none => race

/-- The workers take steps in a given order. -/
def run (strategy : Strategy) (guard : Option Guard) (order : List Nat) (race : Race) : Race :=
  order.foldl (step strategy guard) race

/-- The outcome of the first candidate that is not rejected, when the ones before it are. -/
def answerOf : List Trial → Option (Except ExecutionError (Option Context))
  | [] => some (.ok none)
  | .ended (.ok none) :: rest => answerOf rest
  | .ended outcome :: _ => some outcome
  | .writing _ _ :: _ => none

/-- The answer of a race, once it is known. -/
def answer? (race : Race) : Option (Except ExecutionError (Option Context)) :=
  answerOf race.trials

end Race

/-- Unify a query while the workers for the candidates take steps in a given order. -/
def race (u : Unifier) (order : List Nat) (g : BeliefGraph) (v : ViewId) (query : Literal)
    (c : Context) (guard : Option Guard) (s : Store) : Race :=
  (Race.start s c (candidates s g v (c.fill s query) (c.fill s query).vars.length)).run
    u.strategy guard order

/-! ## One step -/

section Attempts

variable (strategy : Strategy) (guard : Option Guard)

theorem attempt_nil (c : Context) (s : Store) :
    attempt strategy c guard ⟨[]⟩ s = (Trial.judge strategy guard s c, s) := by
  unfold attempt Trial.judge
  simp only [bind_apply, get_apply]
  have happly : BindingSet.apply ⟨[]⟩ ⟨s, c⟩ = (.ok (), ⟨s, c⟩) := rfl
  rw [happly]
  cases guard with
  | none => rfl
  | some test =>
      dsimp only
      cases test s c <;> rfl

theorem attempt_cons (c : Context) (binding : Binding) (rest : List Binding) (s : Store) :
    attempt strategy c guard ⟨binding :: rest⟩ s =
      match Context.bindIn ⟨s, c⟩ binding.name binding.value with
      | .ok scope => attempt strategy scope.context guard ⟨rest⟩ scope.store
      | .error e => (.error (.term e), s) := by
  unfold attempt
  simp only [bind_apply, get_apply, BindingSet.apply_cons]
  cases Context.bindIn ⟨s, c⟩ binding.name binding.value with
  | error e => rfl
  | ok scope => rfl

/-- An attempt that writes to no mutex variable leaves the store as it is. -/
theorem attempt_store {c : Context} {bindings : List Binding}
    (hc : ∀ binding ∈ bindings, c.Unshared binding.name) (s : Store) :
    (attempt strategy c guard ⟨bindings⟩ s).2 = s := by
  induction bindings generalizing c with
  | nil => rw [attempt_nil]
  | cons binding rest ih =>
      obtain ⟨hfirst, hrest⟩ := List.forall_mem_cons.1 hc
      rw [attempt_cons]
      cases hbind : Context.bindIn ⟨s, c⟩ binding.name binding.value with
      | error e => rfl
      | ok scope =>
          dsimp only
          rw [hfirst.bindIn hbind]
          exact ih fun other hother =>
            (hrest other hother).of_evolves (Context.evolves_of_bindIn hbind)

/-- A step changes neither the store nor what the worker comes to. -/
theorem Trial.Apart.step {trial : Trial} (h : trial.Apart) (s : Store) :
    (trial.step strategy guard s).1 = s ∧ (trial.step strategy guard s).2.Apart ∧
      (trial.step strategy guard s).2.outcome strategy guard s =
        trial.outcome strategy guard s := by
  cases trial with
  | ended outcome => exact ⟨rfl, trivial, rfl⟩
  | writing c rest =>
      cases rest with
      | nil =>
          refine ⟨rfl, trivial, ?_⟩
          rw [outcome, attempt_nil]
          rfl
      | cons binding rest =>
          rw [outcome, attempt_cons, Trial.step]
          cases hbind : Context.bindIn ⟨s, c⟩ binding.name binding.value with
          | error e => exact ⟨rfl, trivial, rfl⟩
          | ok scope =>
              obtain ⟨hfirst, hrest⟩ := List.forall_mem_cons.1 h
              have hstore := hfirst.bindIn hbind
              refine ⟨hstore, fun other hother => ?_, ?_⟩
              · exact (hrest other hother).of_evolves (Context.evolves_of_bindIn hbind)
              · dsimp only [outcome]
                rw [hstore]

theorem Trial.remaining_step (trial : Trial) (s : Store) :
    (trial.step strategy guard s).2.remaining ≤ trial.remaining - 1 := by
  cases trial with
  | ended outcome => exact Nat.le_refl _
  | writing c rest =>
      cases rest with
      | nil => exact Nat.le_refl _
      | cons binding rest =>
          rw [Trial.step]
          cases Context.bindIn ⟨s, c⟩ binding.name binding.value with
          | error e => exact Nat.zero_le _
          | ok scope => exact Nat.le_refl _

end Attempts

/-! ## Steps in any order -/

namespace Race

variable (strategy : Strategy) (guard : Option Guard)

/-- The workers have left the store alone and are on the way to the given outcomes. -/
structure OnCourse (s : Store) (outcomes : List (Except ExecutionError (Option Context)))
    (race : Race) : Prop where
  store : race.store = s
  apart : ∀ trial ∈ race.trials, trial.Apart
  outcomes : race.trials.map (Trial.outcome strategy guard s) = outcomes

variable {strategy guard} {s : Store} {outcomes : List (Except ExecutionError (Option Context))}
  {race : Race}

theorem onCourse_start {c : Context} {sets : List BindingSet}
    (hc : ∀ b ∈ sets, ∀ binding ∈ b.bindings, c.Unshared binding.name) :
    OnCourse strategy guard s (sets.map fun b => (attempt strategy c guard b s).1)
      (start s c sets) where
  store := rfl
  apart := by
    intro trial htrial
    obtain ⟨b, hb, rfl⟩ := List.mem_map.1 htrial
    exact hc b hb
  outcomes := by
    rw [start, List.map_map]
    rfl

theorem OnCourse.step (h : OnCourse strategy guard s outcomes race) (i : Nat) :
    OnCourse strategy guard s outcomes (race.step strategy guard i) := by
  unfold Race.step
  cases htrial : race.trials[i]? with
  | none => exact h
  | some trial =>
      obtain ⟨hi, hget⟩ := List.getElem?_eq_some_iff.1 htrial
      have hstep := (h.apart trial (hget ▸ List.getElem_mem hi)).step strategy guard s
      dsimp only
      rw [h.store]
      refine ⟨hstep.1, ?_, ?_⟩
      · intro other hother
        rcases List.mem_or_eq_of_mem_set hother with hold | rfl
        · exact h.apart other hold
        · exact hstep.2.1
      · -- the worker is still on the way to the outcome that stood in its place
        rw [List.map_set, hstep.2.2, ← h.outcomes]
        refine List.ext_getElem? fun j => ?_
        rw [List.getElem?_set]
        split
        · next hij =>
            subst hij
            rw [if_pos (by simpa using hi), List.getElem?_map, htrial]
            rfl
        · rfl

theorem OnCourse.run (h : OnCourse strategy guard s outcomes race) (order : List Nat) :
    OnCourse strategy guard s outcomes (race.run strategy guard order) := by
  induction order generalizing race with
  | nil => exact h
  | cons i rest ih => exact ih (h.step i)

/-! ### The answer -/

/-- The first outcome that is not a rejection. -/
def firstOutcome : List (Except ExecutionError (Option Context)) →
    Except ExecutionError (Option Context)
  | [] => .ok none
  | .ok none :: rest => firstOutcome rest
  | outcome :: _ => outcome

theorem OnCourse.answer (h : OnCourse strategy guard s outcomes race)
    {result : Except ExecutionError (Option Context)} (hresult : race.answer? = some result) :
    result = firstOutcome outcomes := by
  rw [← h.outcomes]
  unfold answer? at hresult
  generalize race.trials = trials at hresult
  fun_induction answerOf trials with
  | case1 => exact (Option.some.inj hresult).symm
  | case2 rest ih => exact ih hresult
  | case3 outcome rest hother =>
      obtain rfl : outcome = result := Option.some.inj hresult
      rw [List.map_cons]
      cases outcome with
      | error e => rfl
      | ok found =>
          cases found with
          | some c => rfl
          | none => exact absurd rfl hother
  | case4 => cases hresult

/-- Candidates in turn come to the first outcome that is not a rejection. -/
theorem firstAccepted_eq_firstOutcome {c : Context} {sets : List BindingSet}
    (hc : ∀ b ∈ sets, ∀ binding ∈ b.bindings, c.Unshared binding.name) :
    firstAccepted strategy c guard sets s =
      (firstOutcome (sets.map fun b => (attempt strategy c guard b s).1), s) := by
  induction sets with
  | nil => rfl
  | cons b rest ih =>
      obtain ⟨hfirst, hrest⟩ := List.forall_mem_cons.1 hc
      have hstore := attempt_store strategy guard hfirst s
      rw [firstAccepted, bind_apply, List.map_cons]
      cases hattempt : attempt strategy c guard b s with
      | mk result after =>
          rw [hattempt] at hstore
          cases hstore
          cases result with
          | error e => rfl
          | ok found =>
              cases found with
              | some c => rfl
              | none => exact ih hrest

/-! ### The end -/

/-- A worker has at most the steps left that it had, less those that it took. -/
theorem remaining_run (order : List Nat) (i : Nat) {trial : Trial}
    (htrial : (race.run strategy guard order).trials[i]? = some trial) :
    ∃ before, race.trials[i]? = some before ∧
      trial.remaining ≤ before.remaining - order.count i := by
  induction order generalizing race with
  | nil => exact ⟨trial, htrial, Nat.le_refl _⟩
  | cons j rest ih =>
      obtain ⟨middle, hmiddle, hle⟩ := ih htrial
      unfold Race.step at hmiddle
      cases hj : race.trials[j]? with
      | none =>
          rw [hj] at hmiddle
          have hne : j ≠ i := by
            rintro rfl
            rw [hj] at hmiddle
            cases hmiddle
          exact ⟨middle, hmiddle, by rw [List.count_cons_of_ne hne]; exact hle⟩
      | some other =>
          simp only [hj, List.getElem?_set] at hmiddle
          by_cases hij : j = i
          · subst hij
            obtain ⟨hlt, -⟩ := List.getElem?_eq_some_iff.1 hj
            rw [if_pos rfl, if_pos hlt] at hmiddle
            cases hmiddle
            refine ⟨other, hj, ?_⟩
            have hstep := other.remaining_step strategy guard race.store
            rw [List.count_cons_self]
            omega
          · rw [if_neg hij] at hmiddle
            exact ⟨middle, hmiddle, by rw [List.count_cons_of_ne hij]; exact hle⟩

theorem answerOf_of_ended {trials : List Trial} (h : ∀ trial ∈ trials, trial.remaining = 0) :
    (answerOf trials).isSome := by
  fun_induction answerOf trials with
  | case1 => rfl
  | case2 rest ih => exact ih fun trial htrial => h trial (List.mem_cons_of_mem _ htrial)
  | case3 => rfl
  | case4 c rest => exact absurd (h _ List.mem_cons_self) (Nat.succ_ne_zero _)

/-- The answer is there at the latest when every worker has done all it has to do. -/
theorem answer_run_of_finished {c : Context} {sets : List BindingSet} {order : List Nat}
    (h : ∀ i b, sets[i]? = some b → b.size < order.count i) :
    ((start s c sets).run strategy guard order).answer?.isSome := by
  refine answerOf_of_ended fun trial htrial => ?_
  obtain ⟨i, hi⟩ := List.mem_iff_getElem?.1 htrial
  obtain ⟨before, hbefore, hle⟩ := remaining_run order i hi
  rw [start, List.getElem?_map] at hbefore
  obtain ⟨b, hb, rfl⟩ := Option.map_eq_some_iff.1 hbefore
  have hcount := h i b hb
  simp only [Trial.remaining, BindingSet.size] at hle hcount ⊢
  omega

end Race

/-! ## How a unification ends -/

section Ends

variable (u : Unifier) (g : BeliefGraph) (v : ViewId) (query : Literal) (c : Context)
  (guard : Option Guard) (parallel : Bool) (s : Store)

/-- Whether the candidates are tried by several workers at a time. -/
def concurrent : Bool := parallel && u.pool.any fun pool => 1 < pool.threads

/-- Several workers have no mutex variable to write to: none is left in the filled query. -/
def WorkersApart : Prop :=
  u.concurrent parallel = true → ∀ x ∈ (c.fill s query).occurrences, c.Unshared x.name

/--
The ways in which a unification can end: as it does in turn, or, with several
workers, as these do in some order of their steps, once the answer is known.
-/
inductive Ends : Except ExecutionError (Option Context) × Store → Prop
  | inTurn (h : u.concurrent parallel = false) : Ends (u.unify g v query c guard parallel s)
  | onWorkers {result : Except ExecutionError (Option Context)} (order : List Nat)
      (h : u.concurrent parallel = true)
      (hanswer : (u.race order g v query c guard s).answer? = some result) :
      Ends (result, (u.race order g v query c guard s).store)

variable {u g v query c guard parallel s}

theorem unshared_of_mem_candidates (hc : ∀ x ∈ query.occurrences, c.Unshared x.name)
    {required : Nat} {b : BindingSet} (hb : b ∈ candidates s g v query required) :
    ∀ binding ∈ b.bindings, c.Unshared binding.name := by
  intro binding hbinding
  obtain ⟨l, -, hbind⟩ := exists_bind_of_mem_candidates hb
  have hname := (b.get?_isSome_iff binding.name).2 (List.mem_map_of_mem hbinding)
  obtain ⟨t, ht⟩ := Option.isSome_iff_exists.1 hname
  obtain ⟨x, hx, hsame⟩ := (Match.drawn_of_bind hbind).named ht
  exact hsame ▸ hc x hx

/-- The workers may end as soon as the one for the first candidate has been accepted. -/
theorem Ends.of_first {committed : Context} {after : Store} {trials : List Trial} (order : List Nat)
    (hconcurrent : u.concurrent parallel = true)
    (h : u.race order g v query c guard s = ⟨after, .ended (.ok (some committed)) :: trials⟩) :
    Ends u g v query c guard parallel s (.ok (some committed), after) := by
  have hanswer : (u.race order g v query c guard s).answer? = some (.ok (some committed)) := by
    rw [h]
    rfl
  have hends : Ends u g v query c guard parallel s _ := .onWorkers order hconcurrent hanswer
  rw [h] at hends
  exact hends

/-- In whatever order workers without mutex variables go on, they come to what is done in turn. -/
theorem race_of_unshared (hc : ∀ x ∈ (c.fill s query).occurrences, c.Unshared x.name)
    (order : List Nat) (parallel : Bool) :
    (u.race order g v query c guard s).store = s ∧
      ∀ result, (u.race order g v query c guard s).answer? = some result →
        u.unify g v query c guard parallel s = (result, s) := by
  have hsets : ∀ b ∈ candidates s g v (c.fill s query) (c.fill s query).vars.length,
      ∀ binding ∈ b.bindings, c.Unshared binding.name :=
    fun b hb => unshared_of_mem_candidates hc hb
  have hstart : Race.OnCourse u.strategy guard s _ _ := Race.onCourse_start hsets
  have hcourse := hstart.run order
  refine ⟨hcourse.store, fun result hresult => ?_⟩
  rw [unify_apply, Race.firstAccepted_eq_firstOutcome hsets, hcourse.answer hresult]

/-- Workers that have no mutex variable to write to leave one way for a unification to end. -/
theorem Ends.eq_unify {answer : Except ExecutionError (Option Context) × Store}
    (h : Ends u g v query c guard parallel s answer)
    (happart : u.WorkersApart query c parallel s) :
    answer = u.unify g v query c guard parallel s := by
  cases h with
  | inTurn hturn => rfl
  | onWorkers order hconcurrent hanswer =>
      obtain ⟨hstore, hagrees⟩ := race_of_unshared (happart hconcurrent) order parallel
      rw [hstore, hagrees _ hanswer]

end Ends

/--
Parallel or in turn, a unification in a context without mutex variables comes to
the same: the same committed context, none, or the same error.  The workers may
take their steps in any order: the store stays as it is, the answer is that of
the candidates in turn as soon as it is known, and it is known at the latest when
every worker is done.
-/
theorem race_agrees_with_turns (u : Unifier) (pool : Pool) (g : BeliefGraph) (v : ViewId)
    (query : Literal) (c : Context) (guard : Option Guard) (s : Store)
    (hc : ∀ x ∈ c.vars, x.isMutex = false) :
    { u with pool := some pool }.unify g v query c guard true s =
        u.unify g v query c guard false s ∧
      ∀ order : List Nat,
        (u.race order g v query c guard s).store = s ∧
        (∀ result, (u.race order g v query c guard s).answer? = some result →
          u.unify g v query c guard false s = (result, s)) ∧
        ((∀ i b, (candidates s g v (c.fill s query) (c.fill s query).vars.length)[i]? = some b →
            b.size < order.count i) →
          (u.race order g v query c guard s).answer?.isSome) := by
  have hunshared := Context.slotFree_iff_unshared.1 (Context.slotFree_of_forall_mem hc)
  refine ⟨by rw [unify_apply, unify_apply], fun order => ?_⟩
  have hrace : (u.race order g v query c guard s).store = s ∧
      ∀ result, (u.race order g v query c guard s).answer? = some result →
        u.unify g v query c guard false s = (result, s) :=
    race_of_unshared (fun x _ => hunshared x.name) order false
  exact ⟨hrace.1, hrace.2, Race.answer_run_of_finished⟩

/--
The last of three candidates is accepted before the others have begun.  The error
of the second one is the answer all the same.
-/
theorem race_agrees_with_turns_of_late_error :
    let f (v : Value) : Literal := ⟨⟨.empty, "f"⟩, [.raw v], [], false, false⟩
    let g := BeliefGraph.rooted.setHeld BeliefGraph.root ⟨false, "f"⟩
      [f .empty, f (.bool false), f (.bool true)]
    let x : Variable := .unbound ⟨["X"]⟩
    let query : Literal := ⟨⟨.empty, "f"⟩, [.var x], [], false, false⟩
    let guard : Guard := fun s c =>
      match c.value? s x.name with
      | some (.raw (.bool true)) => .ok (.certain true)
      | some (.raw (.bool false)) => .error .divisionByZero
      | _ => .ok (.certain false)
    (race ⟨.crisp, none⟩ [2, 2] g BeliefGraph.root query ⟨[x]⟩ (some guard) {}).answer? = none ∧
      unify ⟨.crisp, some (.ofThreads 3)⟩ g BeliefGraph.root query ⟨[x]⟩ (some guard) true {} =
        (.error .divisionByZero, {}) := by
  intro f g x query guard
  have hagree := race_agrees_with_turns ⟨.crisp, none⟩ (.ofThreads 3) g BeliefGraph.root query ⟨[x]⟩
    (some guard) {} (by intro y hy; cases List.mem_singleton.1 hy; rfl)
  have hrace (order : List Nat) : race ⟨.crisp, none⟩ order g BeliefGraph.root query ⟨[x]⟩
      (some guard) {} = (Race.start {} ⟨[x]⟩
        ([.empty, .bool false, .bool true].map fun v => ⟨[⟨x.name, .raw v, [0]⟩]⟩)).run
          .crisp (some guard) order := rfl
  refine ⟨?_, hagree.1.trans ((hagree.2 [2, 2, 1, 0, 1, 0]).2.1 _ ?_)⟩
  · rw [hrace]
    rfl
  · rw [hrace]
    cbv

end Unifier

end Deliberation
