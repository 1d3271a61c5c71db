import Deliberation.Plan.Library
import Deliberation.Proofs.Plan.Remainder
import Deliberation.Proofs.Table
import Deliberation.Proofs.Term.Equality

/-!
# The plan library as a list of plans

A library keeps plans in groups and their counters apart from them.  Both are
descriptions of one list: plans of which no two have the same key, each with its
counters, in the order in which they were added.  A request to the library and
the same request to the list give the same answer, and every reading of the
library can be made from the list.

The key of a plan covers the kind and the functor of its trigger, so that a plan
with the key of another one is looked for in the right group.
-/

namespace Deliberation

/-! ## The list -/

/-- Counters after one more success or failure. -/
def PlanStatistic.counted (stat : PlanStatistic) (succeeded : Bool) : PlanStatistic :=
  if succeeded then { stat with successful := stat.successful + 1 }
  else { stat with failed := stat.failed + 1 }

/-- Plans with different keys and their counters, in the order in which they were added. -/
structure Roster where
  entries : List (Plan × PlanStatistic) := []
  distinct : entries.Pairwise fun a b => a.1.key ≠ b.1.key := by exact List.Pairwise.nil

/-- What can be asked of a library. -/
inductive LibraryRequest where
  | add (p : Plan)
  | remove (t : Trigger)
  | record (p : Plan) (succeeded : Bool)

inductive LibraryAnswer where
  | added (new : Bool)
  | removed (count : Nat)
  | recorded
deriving DecidableEq

/-- Answer requests in turn. -/
def LibraryRequest.run {σ : Type} (handle : σ → LibraryRequest → LibraryAnswer × σ) (s : σ) :
    List LibraryRequest → List LibraryAnswer × σ
  | [] => ([], s)
  | request :: rest =>
      let first := handle s request
      let behind := run handle first.2 rest
      (first.1 :: behind.1, behind.2)

namespace Roster

def plans (r : Roster) : List Plan := r.entries.map Prod.fst

/-- Whether a plan with the key is in the list. -/
def holds (r : Roster) (key : PlanKey) : Bool := r.entries.any (·.1.key = key)

theorem holds_eq_false_iff {r : Roster} {key : PlanKey} :
    r.holds key = false ↔ ∀ entry ∈ r.entries, entry.1.key ≠ key := by
  simp [holds]

theorem eq_of_key (r : Roster) {entry other : Plan × PlanStatistic} (hentry : entry ∈ r.entries)
    (hother : other ∈ r.entries) (h : entry.1.key = other.1.key) : entry = other := by
  have hsymm : Std.Symm fun a b : Plan × PlanStatistic => a.1.key ≠ b.1.key :=
    ⟨fun _ _ => Ne.symm⟩
  by_contra hne
  exact r.distinct.forall hentry hother hne h

/-- Put a plan with a new key at the end, with counters at zero. -/
def insert (r : Roster) (p : Plan) (hnew : r.holds p.key = false) : Roster where
  entries := r.entries ++ [(p, {})]
  distinct := by
    refine List.pairwise_append.2 ⟨r.distinct, List.pairwise_singleton _ _, ?_⟩
    intro entry hentry other hother
    rw [List.mem_singleton.1 hother]
    exact holds_eq_false_iff.1 hnew entry hentry

/-- Drop the plans with a trigger. -/
def erase (r : Roster) (t : Trigger) : Roster where
  entries := r.entries.filter fun entry => !entry.1.trigger.same t
  distinct := r.distinct.filter _

/-- Count a success or a failure of the plan with a key. -/
def count (r : Roster) (key : PlanKey) (succeeded : Bool) : Roster where
  entries := r.entries.map fun entry =>
    (entry.1, if entry.1.key = key then entry.2.counted succeeded else entry.2)
  distinct := List.pairwise_map.2 r.distinct

/-- Answer a request.  A plan whose key is in the list is not added again. -/
def handle (r : Roster) : LibraryRequest → LibraryAnswer × Roster
  | .add p =>
      if hnew : r.holds p.key = false then (.added true, r.insert p hnew) else (.added false, r)
  | .remove t =>
      (.removed (r.entries.filter fun entry => entry.1.trigger.same t).length, r.erase t)
  | .record p succeeded => (.recorded, r.count p.key succeeded)

end Roster

namespace PlanLibrary

/-- Answer a request. -/
def handle (library : PlanLibrary) : LibraryRequest → LibraryAnswer × PlanLibrary
  | .add p => (.added (library.add p).1, (library.add p).2)
  | .remove t => (.removed (library.remove t).1, (library.remove t).2)
  | .record p succeeded => (.recorded, library.record p succeeded)

/-- Outcomes are recorded of plans only that are in the library at that moment. -/
def Admits (library : PlanLibrary) : List LibraryRequest → Prop
  | [] => True
  | request :: rest =>
      (∀ p succeeded, request = .record p succeeded → p ∈ library.plans) ∧
        Admits (library.handle request).2 rest

end PlanLibrary

/-! ## Keys -/

theorem Trigger.key_eq_iff (t u : Trigger) :
    t.key = u.key ↔ t.kind = u.kind ∧ t.literal.functor.path = u.literal.functor.path := by
  rw [key, key, TriggerKey.mk.injEq]

/-- The same event is filed under the same key. -/
theorem Trigger.key_of_identity {t u : Trigger} (hkind : t.kind = u.kind)
    (hliteral : t.literal.identity = u.literal.identity) : t.key = u.key := by
  rw [key_eq_iff, ((Literal.identity_eq_iff _ _).1 hliteral).1]
  exact ⟨hkind, rfl⟩

theorem Trigger.key_of_same {t u : Trigger} (h : t.same u = true) : t.key = u.key := by
  rw [same, Bool.and_eq_true, decide_eq_true_iff, decide_eq_true_iff] at h
  exact key_of_identity h.1 h.2

/-- Plans with one key are filed under one trigger. -/
theorem Plan.trigger_key_of_key {p q : Plan} (hp : p.Made) (hq : q.Made) (h : p.key = q.key) :
    p.trigger.key = q.trigger.key := by
  obtain ⟨heap, hp⟩ := hp
  obtain ⟨other, hq⟩ := hq
  rw [hp, hq] at h
  obtain ⟨hkind, hliteral, -⟩ := PlanKey.mk.inj h
  exact Trigger.key_of_identity hkind hliteral

/-- What is found among entries of which some keys are left out. -/
theorem Table.find_filter {κ ν : Type} [DecidableEq κ] (keep : κ → Bool) (wanted : κ)
    (entries : List (κ × ν)) :
    find wanted (entries.filter fun entry => keep entry.1) =
      if keep wanted then find wanted entries else none := by
  induction entries with
  | nil => simp [find]
  | cons entry rest ih =>
      obtain ⟨key, value⟩ := entry
      by_cases hwanted : key = wanted
      · subst hwanted
        cases hkeep : keep key <;> simp_all [find]
      · cases hkeep : keep key <;> simp_all [find]

/-! ## The library and the list -/

namespace PlanLibrary

/-- A library files the plans of a list, and has their counters and no others. -/
structure Represents (library : PlanLibrary) (r : Roster) : Prop where
  made : ∀ p ∈ r.plans, p.Made
  groups : library.groups.Files (fun p => p.trigger.key) r.plans
  counters : ∀ entry ∈ r.entries, library.statistic entry.1 = entry.2
  fresh : ∀ key, r.holds key = false → Table.find key library.statistics = none

namespace Represents

variable {library : PlanLibrary} {r : Roster}

theorem candidates_eq (h : library.Represents r) (t : Trigger) :
    library.candidates t = r.plans.filter (·.trigger.key = t.key) :=
  h.groups.group t.key

/-- Looking in the group of its trigger tells whether the key of a plan is in the list. -/
theorem any_candidates (h : library.Represents r) {p : Plan} (hp : p.Made) :
    (library.candidates p.trigger).any (·.key = p.key) = r.holds p.key := by
  rw [h.candidates_eq, List.any_filter, Roster.plans, List.any_map, Roster.holds, Bool.eq_iff_iff,
    List.any_eq_true, List.any_eq_true]
  refine exists_congr fun entry => and_congr_right fun hentry => ?_
  simp only [Function.comp_apply, Bool.and_eq_true, decide_eq_true_eq, and_iff_right_iff_imp]
  exact Plan.trigger_key_of_key (h.made _ (List.mem_map_of_mem hentry)) hp

/-! ### Requests -/

theorem add_of_new (h : library.Represents r) {p : Plan} (hp : p.Made)
    (hnew : r.holds p.key = false) :
    (library.add p).1 = true ∧ (library.add p).2.Represents (r.insert p hnew) := by
  unfold add
  dsimp only
  rw [h.any_candidates hp, hnew, if_neg Bool.false_ne_true]
  refine ⟨rfl, ?_, ?_, ?_, ?_⟩
  · intro q hq
    rw [Roster.plans, Roster.insert, List.map_append, List.mem_append] at hq
    rcases hq with hq | hq
    · exact h.made q hq
    · rw [List.mem_singleton.1 hq]
      exact hp
  · rw [Roster.plans, Roster.insert, List.map_append]
    exact h.groups.insert p
  · intro entry hentry
    change (Table.find entry.1.key (adjust p.key id library.statistics)).getD {} = entry.2
    rw [find_adjust]
    rcases List.mem_append.1 hentry with hold | hlast
    · have hne := Roster.holds_eq_false_iff.1 hnew entry hold
      rw [if_neg (Ne.symm hne)]
      exact h.counters entry hold
    · rw [List.mem_singleton.1 hlast, if_pos rfl, h.fresh p.key hnew]
      rfl
  · intro key hkey
    have hkeys := Roster.holds_eq_false_iff.1 hkey
    have hne : p.key ≠ key := hkeys (p, {}) (List.mem_append_right _ (List.mem_singleton.2 rfl))
    change Table.find key (adjust p.key id library.statistics) = none
    rw [find_adjust, if_neg hne]
    exact h.fresh key (Roster.holds_eq_false_iff.2 fun entry hentry =>
      hkeys entry (List.mem_append_left _ hentry))

theorem add (h : library.Represents r) {p : Plan} (hp : p.Made) :
    (library.handle (.add p)).1 = (r.handle (.add p)).1 ∧
      (library.handle (.add p)).2.Represents (r.handle (.add p)).2 := by
  rw [handle, Roster.handle]
  by_cases hnew : r.holds p.key = false
  · rw [dif_pos hnew]
    obtain ⟨hadded, hafter⟩ := h.add_of_new hp hnew
    exact ⟨congrArg _ hadded, hafter⟩
  · have hrefused : library.add p = (false, library) := by
      unfold PlanLibrary.add
      dsimp only
      rw [h.any_candidates hp, if_pos (by simpa using hnew)]
    rw [dif_neg hnew, hrefused]
    exact ⟨rfl, h⟩

/-- The group of a trigger has all the plans with that trigger. -/
theorem filter_candidates (h : library.Represents r) (t : Trigger) :
    (library.candidates t).filter (fun p => p.trigger.same t) =
      r.plans.filter fun p => p.trigger.same t := by
  rw [h.candidates_eq, List.filter_filter]
  refine List.filter_congr fun p _ => ?_
  rw [Bool.and_eq_left_iff_imp, decide_eq_true_iff]
  exact Trigger.key_of_same

/-- After a removal the group of the trigger has the plans that stay; the others are as before. -/
theorem files_remove (h : library.Represents r) (t : Trigger) :
    (library.remove t).2.groups.Files (fun p => p.trigger.key)
      (r.plans.filter fun p => !p.trigger.same t) := by
  have hkept : (library.candidates t).filter (fun p => !p.trigger.same t) =
      (r.plans.filter fun p => !p.trigger.same t).filter (·.trigger.key = t.key) := by
    rw [h.candidates_eq, List.filter_filter, List.filter_filter]
    exact List.filter_congr fun p _ => Bool.and_comm _ _
  have hother : ∀ key, t.key ≠ key → (library.groups.get? key).getD [] =
      (r.plans.filter fun p => !p.trigger.same t).filter (·.trigger.key = key) := by
    intro key hkey
    rw [h.groups.group, List.filter_filter]
    refine List.filter_congr fun p _ => (Bool.and_eq_left_iff_imp.2 fun hp => ?_).symm
    rw [Bool.not_eq_true', Bool.eq_false_iff]
    intro hsame
    exact hkey ((Trigger.key_of_same hsame).symm.trans (of_decide_eq_true hp))
  unfold PlanLibrary.remove
  dsimp only
  split
  · next hempty =>
      refine ⟨h.groups.sorted.erase _, fun key => ?_⟩
      rw [Table.get?_erase]
      by_cases hkey : t.key = key
      · rw [if_pos hkey, ← hkey, ← hkept, List.isEmpty_iff.1 hempty]
        rfl
      · rw [if_neg hkey]
        exact hother key hkey
  · refine ⟨h.groups.sorted.insert _ _, fun key => ?_⟩
    rw [Table.get?_insert]
    by_cases hkey : t.key = key
    · rw [if_pos hkey, ← hkey, ← hkept, Option.getD_some]
    · rw [if_neg hkey]
      exact hother key hkey

/-- After a removal the counters of the removed plans are gone, and no others. -/
theorem find_remove (h : library.Represents r) (t : Trigger) (key : PlanKey) :
    Table.find key (library.remove t).2.statistics =
      if (r.plans.any fun p => p.trigger.same t && p.key = key) then none
      else Table.find key library.statistics := by
  have hremoved : ((library.candidates t).filter fun p => p.trigger.same t).map Plan.key =
      (r.plans.filter fun p => p.trigger.same t).map Plan.key := by
    rw [h.filter_candidates]
  rw [PlanLibrary.remove, hremoved,
    Table.find_filter fun key =>
      !((r.plans.filter fun p => p.trigger.same t).map Plan.key).contains key]
  have hcontains : ((r.plans.filter fun p => p.trigger.same t).map Plan.key).contains key =
      r.plans.any fun p => p.trigger.same t && p.key = key := by
    rw [Bool.eq_iff_iff, List.contains_iff_mem, List.mem_map, List.any_eq_true]
    simp only [List.mem_filter, Bool.and_eq_true, decide_eq_true_eq, and_assoc]
  rw [hcontains]
  cases r.plans.any fun p => p.trigger.same t && p.key = key <;> rfl

theorem remove (h : library.Represents r) (t : Trigger) :
    (library.handle (.remove t)).1 = (r.handle (.remove t)).1 ∧
      (library.handle (.remove t)).2.Represents (r.handle (.remove t)).2 := by
  have hplans : (r.erase t).plans = r.plans.filter fun p => !p.trigger.same t := by
    rw [Roster.plans, Roster.erase, Roster.plans, List.filter_map]
    rfl
  rw [handle, Roster.handle]
  refine ⟨?_, ?_, ?_, ?_, ?_⟩
  · rw [PlanLibrary.remove, List.length_map, h.filter_candidates, Roster.plans, List.filter_map,
      List.length_map]
    rfl
  · intro p hp
    rw [hplans] at hp
    exact h.made p (List.mem_filter.1 hp).1
  · rw [hplans]
    exact h.files_remove t
  · intro entry hentry
    obtain ⟨hold, hstays⟩ := List.mem_filter.1 hentry
    change (Table.find entry.1.key (library.remove t).2.statistics).getD {} = entry.2
    rw [h.find_remove, if_neg]
    · exact h.counters entry hold
    · -- a removed plan with this key would be another plan of the list
      rw [List.any_eq_true]
      rintro ⟨p, hp, hsame⟩
      obtain ⟨other, hother, rfl⟩ := List.mem_map.1 hp
      rw [Bool.and_eq_true, decide_eq_true_iff] at hsame
      have heq := r.eq_of_key hother hold hsame.2
      rw [heq] at hsame
      rw [hsame.1] at hstays
      cases hstays
  · intro key hkey
    rw [h.find_remove]
    by_cases hany : (r.plans.any fun p => p.trigger.same t && p.key = key) = true
    · rw [if_pos hany]
    · rw [if_neg hany]
      refine h.fresh key (Roster.holds_eq_false_iff.2 fun entry hentry hentryKey => ?_)
      by_cases hsame : entry.1.trigger.same t = true
      · refine hany (List.any_eq_true.2 ⟨entry.1, List.mem_map_of_mem hentry, ?_⟩)
        simp [hsame, hentryKey]
      · exact Roster.holds_eq_false_iff.1 hkey entry
          (List.mem_filter.2 ⟨hentry, by simpa using hsame⟩) hentryKey

theorem record (h : library.Represents r) {p : Plan} (hp : r.holds p.key = true)
    (succeeded : Bool) :
    (library.handle (.record p succeeded)).2.Represents (r.handle (.record p succeeded)).2 := by
  have hplans : (r.count p.key succeeded).plans = r.plans := by
    rw [Roster.plans, Roster.count, List.map_map]
    rfl
  rw [handle, Roster.handle]
  refine ⟨?_, ?_, ?_, ?_⟩
  · rw [hplans]
    exact h.made
  · rw [hplans]
    exact h.groups
  · intro entry hentry
    obtain ⟨before, hbefore, rfl⟩ := List.mem_map.1 hentry
    dsimp only
    rw [statistic_record, h.counters before hbefore]
    simp only [eq_comm (a := p.key), PlanStatistic.counted]
  · intro key hkey
    have hkeys : r.holds key = false := by
      rw [Roster.holds, Roster.count, List.any_map] at hkey
      exact hkey
    have hne : p.key ≠ key := by
      rintro rfl
      rw [hp] at hkeys
      cases hkeys
    change Table.find key (adjust p.key _ library.statistics) = none
    rw [find_adjust, if_neg hne]
    exact h.fresh key hkeys

/-! ### Readings -/

theorem plans_eq (h : library.Represents r) :
    library.plans = r.plans.mergeSort (keyLE fun p => p.trigger.key) :=
  h.groups.flatten_eq_mergeSort

theorem listing_eq (h : library.Represents r) :
    library.listing = r.entries.mergeSort (keyLE fun entry => entry.1.trigger.key) := by
  have hentries : r.plans.map (fun p => (p, library.statistic p)) = r.entries := by
    rw [Roster.plans, List.map_map]
    refine (List.map_congr_left fun entry hentry => ?_).trans (List.map_id _)
    exact Prod.ext rfl (h.counters entry hentry)
  rw [listing, h.plans_eq, List.map_mergeSort (s := keyLE fun entry => entry.1.trigger.key),
    hentries]
  exact fun _ _ _ _ => rfl

theorem mem_plans_iff (h : library.Represents r) {p : Plan} : p ∈ library.plans ↔ p ∈ r.plans := by
  rw [h.plans_eq, List.mem_mergeSort]

end Represents

theorem represents_empty : empty.Represents {} where
  made _ hp := absurd hp List.not_mem_nil
  groups := ⟨Table.sorted_empty, fun _ => rfl⟩
  counters _ hentry := absurd hentry List.not_mem_nil
  fresh _ _ := rfl

theorem Represents.handle {library : PlanLibrary} {r : Roster} (h : library.Represents r)
    {request : LibraryRequest} (hmade : ∀ p, request = .add p → p.Made)
    (hrecord : ∀ p succeeded, request = .record p succeeded → p ∈ library.plans) :
    (library.handle request).1 = (r.handle request).1 ∧
      (library.handle request).2.Represents (r.handle request).2 := by
  cases request with
  | add p => exact h.add (hmade p rfl)
  | remove t => exact h.remove t
  | record p succeeded =>
      obtain ⟨entry, hentry, hp⟩ := List.mem_map.1 (h.mem_plans_iff.1 (hrecord p succeeded rfl))
      have hholds : r.holds p.key = true :=
        List.any_eq_true.2 ⟨entry, hentry, decide_eq_true (congrArg Plan.key hp)⟩
      exact ⟨rfl, h.record hholds succeeded⟩

theorem Represents.run {library : PlanLibrary} {r : Roster} (h : library.Represents r)
    {requests : List LibraryRequest} (hmade : ∀ p, .add p ∈ requests → p.Made)
    (hadmits : library.Admits requests) :
    (LibraryRequest.run PlanLibrary.handle library requests).1 =
        (LibraryRequest.run Roster.handle r requests).1 ∧
      (LibraryRequest.run PlanLibrary.handle library requests).2.Represents
        (LibraryRequest.run Roster.handle r requests).2 := by
  induction requests generalizing library r with
  | nil => exact ⟨rfl, h⟩
  | cons request rest ih =>
      obtain ⟨hfirst, hrest⟩ := hadmits
      obtain ⟨hanswer, hafter⟩ := h.handle (fun p hp => hmade p (hp ▸ List.mem_cons_self)) hfirst
      obtain ⟨hanswers, hend⟩ := ih hafter (fun p hp => hmade p (List.mem_cons_of_mem _ hp)) hrest
      exact ⟨congrArg₂ List.cons hanswer hanswers, hend⟩

/--
The library is a list of plans with different keys, each with its counters.
Whatever is added, removed and recorded in turn, the library gives the answers of
the list.  Its candidates for an event are the plans of the list with the kind
and functor of the event in their order, and its listings of plans and counters
are the list sorted by trigger key, with plans of one key in their order.
-/
theorem library_refines_roster (requests : List LibraryRequest)
    (hmade : ∀ p, .add p ∈ requests → p.Made) (hadmits : empty.Admits requests) :
    let library := LibraryRequest.run handle empty requests
    let roster := LibraryRequest.run Roster.handle {} requests
    library.1 = roster.1 ∧
    (∀ t, library.2.candidates t = roster.2.plans.filter fun p =>
      p.trigger.kind = t.kind ∧ p.trigger.literal.functor.path = t.literal.functor.path) ∧
    library.2.plans = roster.2.plans.mergeSort (keyLE fun p => p.trigger.key) ∧
    library.2.listing = roster.2.entries.mergeSort (keyLE fun entry => entry.1.trigger.key) ∧
    library.2.size = roster.2.entries.length := by
  intro library roster
  obtain ⟨hanswers, hrepresents⟩ := represents_empty.run hmade hadmits
  refine ⟨hanswers, fun t => ?_, hrepresents.plans_eq, hrepresents.listing_eq, ?_⟩
  · rw [hrepresents.candidates_eq]
    simp only [Trigger.key_eq_iff]
    rfl
  · rw [size, hrepresents.plans_eq, List.length_mergeSort, Roster.plans, List.length_map]

/-- A plan is refused while it is there; removed and added again, it is a new one. -/
theorem library_refines_roster_added_again :
    let trigger (kind : TriggerKind) : Trigger := ⟨kind, ⟨⟨.empty, "g"⟩, [], [], false, false⟩⟩
    let failed := Plan.build {} (trigger .deleteGoal) none [] []
    let plan := Plan.build {} (trigger .addGoal) none [] []
    let requests : List LibraryRequest :=
      [.add failed, .add plan, .record plan true, .add plan, .remove (trigger .addGoal), .add plan]
    let library := LibraryRequest.run handle empty requests
    library.1 = [.added true, .added true, .recorded, .added false, .removed 1, .added true] ∧
      library.2.size = 2 ∧ library.2.statistic plan = {} := by
  intro trigger failed plan requests library
  have hmade : ∀ p, .add p ∈ requests → p.Made := by
    intro p hp
    simp only [requests, List.mem_cons, LibraryRequest.add.injEq, reduceCtorEq, List.not_mem_nil,
      or_false, false_or] at hp
    rcases hp with rfl | rfl | rfl | rfl <;> exact ⟨{}, rfl⟩
  have hplans : (LibraryRequest.run handle empty [.add failed, .add plan]).2.plans =
      [plan, failed] := rfl
  have hadmits : empty.Admits requests := by
    refine ⟨?_, ?_, ?_, ?_, ?_, ?_, trivial⟩
    case refine_3 =>
      rintro p succeeded ⟨⟩
      exact hplans ▸ List.mem_cons_self
    all_goals exact fun _ _ h => nomatch h
  obtain ⟨hanswers, -, -, -, hsize⟩ := library_refines_roster requests hmade hadmits
  have hentries : (LibraryRequest.run Roster.handle {} requests).2.entries =
      [(failed, {}), (plan, {})] := rfl
  refine ⟨hanswers.trans rfl, hsize.trans rfl, ?_⟩
  refine (represents_empty.run hmade hadmits).2.counters (plan, {}) ?_
  rw [hentries]
  exact List.mem_cons_of_mem _ List.mem_cons_self

end PlanLibrary

end Deliberation
