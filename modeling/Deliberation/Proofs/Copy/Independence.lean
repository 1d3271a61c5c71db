import Deliberation.Proofs.Copy.Confinement
import Deliberation.Proofs.Copy.Views

/-!
# Copies and originals do not see each other's changes

A copy reaches new places only, and the original reaches places that were there
before, so no place is reached from both.  A change through one of them writes to
a place that it reaches.  When nothing is written that leads to the other, the two
stay apart, and all that is read through the other stays the same.

The condition on what is written cannot be dropped: a copy that is bound to a box
of the original changes that box for both.  Nor can a slot be copied that leads back
to itself: the copy follows it for as long as it is bound, and is never done.
-/

namespace Deliberation

open Relation

namespace Memory

/-- No place is reached from both sides. -/
def Apart (m : Memory) (ours theirs : List Place) : Prop :=
  ∀ p, m.Reaches ours p → ¬ m.Reaches theirs p

theorem Apart.symm {m : Memory} {ours theirs : List Place} (h : m.Apart ours theirs) :
    m.Apart theirs ours :=
  fun p htheirs hours => h p hours htheirs

theorem apart_iff {m : Memory} {ours theirs : List Place} :
    m.Apart ours theirs ↔ ∀ p ∈ ours, m.Clear (m.Reaches theirs) p := by
  constructor
  · exact fun h p hp q hway => h q ⟨p, hp, hway⟩
  · rintro h p ⟨root, hroot, hway⟩
    exact h root hroot p hway

end Memory

/-! ## Changes through a holder -/

/--
A change through a holder: a box, a variable or a view that the holder reaches is
changed.  Where the holder is a variable with a cell of its own, binding it changes
the holder.  Between changes new boxes, slots and views may be made.  What is written
holds only places that `may` allows.
-/
inductive Change (may : Memory → List Place → Prop) : Holder × Memory → Holder × Memory → Prop
  | replace {holder m target heap} (v : Value) :
      (∀ p ∈ target.places, m.Reaches holder.places p) → may m v.places →
        m.store.heap.replace target v = .ok heap →
          Change may (holder, m) (holder, { m with store := { m.store with heap } })
  | set {holder m store} {x bound : Variable} (t : Term) :
      (∀ p ∈ x.places, m.Reaches holder.places p) → may m t.places →
        x.set m.store t = .ok (store, bound) →
          Change may (holder, m) (holder, { m with store })
  | setVar {m store} {x bound : Variable} (t : Term) :
      may m t.places → x.set m.store t = .ok (store, bound) →
        Change may (.var x, m) (.var bound, { m with store })
  | setTerm {m store} {x bound : Variable} (t : Term) :
      may m t.places → x.set m.store t = .ok (store, bound) →
        Change may (.term (.var x), m) (.term (.var bound), { m with store })
  | add {holder m v generator added graph} (l : Literal) :
      m.Reaches holder.places (.view v) → may m l.places → BeliefGraph.Provided generator →
        m.graph.add m.store.heap v l generator = .ok (added, graph) →
          Change may (holder, m) (holder, { m with graph })
  | remove {holder m v} (l : Literal) :
      m.Reaches holder.places (.view v) →
        Change may (holder, m) (holder, { m with graph := (m.graph.remove m.store.heap v l).2 })
  | newBox {holder m} (v : Value) :
      may m v.places → Change may (holder, m) (holder, m.allocBox v)
  | newSlot {holder m} (t : Option Term) :
      may m (Memory.bindingPlaces t) → Change may (holder, m) (holder, m.allocSlot t)
  | newView {holder m} (name : String) :
      Change may (holder, m) (holder, m.putView { name })

namespace Memory

section Step

variable {theirs : Place → Prop} {m : Memory}

theorem confined_set {store : Store} {x bound : Variable} {t : Term}
    (hx : ∀ p ∈ x.places, m.Clear theirs p) (ht : ∀ p ∈ t.places, m.Clear theirs p)
    (h : x.set m.store t = .ok (store, bound)) :
    Confined theirs m { m with store } ∧
      ∀ p ∈ bound.places, Clear { m with store } theirs p := by
  obtain ⟨name, cell⟩ := x
  cases cell with
  | free value =>
      cases h
      exact ⟨.refl, ht⟩
  | constant value => cases h
  | mutex slot =>
      cases h
      have hwrite := (rewrites_writeSlot m slot t).confined (hx _ List.mem_cons_self) ht
      exact ⟨hwrite, fun p hp => hwrite.clear (hx p hp)⟩
  | relocate target value =>
      cases h
      exact ⟨.refl, ht⟩

/-- A change through a holder that is clear of the other side is confined, and leaves it clear. -/
theorem confined_of_change {may : Memory → List Place → Prop} {holder next : Holder}
    {after : Memory} (htheirs : ∀ {p}, theirs p → m.Live p)
    (hmay : ∀ {places}, may m places → ∀ p ∈ places, m.Clear theirs p)
    (hholder : ∀ p ∈ holder.places, m.Clear theirs p)
    (h : Change may (holder, m) (next, after)) :
    Confined theirs m after ∧ ∀ p ∈ next.places, after.Clear theirs p := by
  have hreached : ∀ {p}, m.Reaches holder.places p → m.Clear theirs p :=
    fun hp => Clear.of_reaches hholder hp
  have hstays : Confined theirs m after →
      Confined theirs m after ∧ ∀ p ∈ holder.places, after.Clear theirs p :=
    fun hconfined => ⟨hconfined, fun p hp => hconfined.clear (hholder p hp)⟩
  cases h with
  | @replace _ _ target heap v htarget hv hreplace =>
      refine hstays ?_
      cases target with
      | box b =>
          cases hreplace
          exact (rewrites_write m b v).confined (hreached (htarget _ List.mem_cons_self)) (hmay hv)
      | _ => cases hreplace
  | set t hx ht hset =>
      exact hstays (confined_set (fun p hp => hreached (hx p hp)) (hmay ht) hset).1
  | setVar t ht hset => exact confined_set hholder (hmay ht) hset
  | setTerm t ht hset => exact confined_set hholder (hmay ht) hset
  | add l hview hl hprovided hadd =>
      exact hstays (confined_of_add htheirs (shuns_of_provided hprovided) (hreached hview) (hmay hl)
        hadd)
  | remove l hview => exact hstays (confined_remove htheirs _ l (hreached hview))
  | newBox v hv => exact hstays ((allocates_box m v).confined htheirs (hmay hv)).1
  | newSlot t ht => exact hstays ((allocates_slot m t).confined htheirs (hmay ht)).1
  | newView name => exact hstays (stays_create htheirs name).confined

end Step

/-! ## Runs -/

/-- After changes through one holder: the other keeps its places, and the two are still apart. -/
structure Undisturbed (m : Memory) (other : Holder) (state : Holder × Memory) : Prop where
  confined : Confined (m.Reaches other.places) m state.2
  clear : ∀ p ∈ state.1.places, state.2.Clear (m.Reaches other.places) p

section Runs

variable {m : Memory} {one other : Holder} {state next : Holder × Memory}

theorem Undisturbed.reaches_eq (h : m.Undisturbed other state) :
    state.2.Reaches other.places = m.Reaches other.places :=
  funext fun p => propext (reaches_iff_of_agree (fun _ hp => h.confined.kept hp) p)

theorem Undisturbed.apart (h : m.Undisturbed other state) :
    state.2.Apart state.1.places other.places := by
  rw [apart_iff, h.reaches_eq]
  exact h.clear

variable (hsound : m.Sound) (hother : ∀ p ∈ other.places, m.Live p)

include hsound hother

theorem Undisturbed.step (h : m.Undisturbed other state)
    (hchange : Change (fun m places => m.Apart places other.places) state next) :
    m.Undisturbed other next := by
  -- `Apart` speaks of what the other reaches now, which is what it has reached from the start.
  have htheirs : ∀ {p}, m.Reaches other.places p → state.2.Live p :=
    fun hp => h.confined.live (hsound.live_of_reaches hp hother)
  have hmay : ∀ {places}, state.2.Apart places other.places →
      ∀ p ∈ places, state.2.Clear (m.Reaches other.places) p := by
    intro places hplaces
    rwa [apart_iff, h.reaches_eq] at hplaces
  obtain ⟨hconfined, hclear⟩ := confined_of_change htheirs hmay h.clear hchange
  exact ⟨h.confined.trans hconfined, hclear⟩

theorem Undisturbed.run (h : m.Undisturbed other state)
    (hrun : ReflTransGen (Change fun m places => m.Apart places other.places) state next) :
    m.Undisturbed other next := by
  induction hrun with
  | refl => exact h
  | tail _ hchange ih => exact ih.step hsound hother hchange

/-- What the other reaches is kept, and so is all that is read through it. -/
theorem Undisturbed.seen_eq (h : m.Undisturbed other state) (n : Nat) :
    other.seen state.2 n = other.seen m n := by
  have hsame : Same (m.Reaches other.places) m state.2 :=
    ⟨fun hp hlead => hp.tail hlead, fun hp => h.confined.kept hp⟩
  exact hsame.seen_eq hsound h.confined.live (fun p hp => ⟨reaches_of_mem hp, hother p hp⟩) n

end Runs

/--
Every run of changes through one holder that writes nothing leading to the other
leaves the content of every place that the other reaches and all that is read
through it, and the two are apart afterwards.
-/
def Independent (m : Memory) (one other : Holder) : Prop :=
  ∀ next after,
    ReflTransGen (Change fun m places => m.Apart places other.places) (one, m) (next, after) →
      (∀ p, m.Reaches other.places p → after.content p = m.content p) ∧
        (∀ n, other.seen after n = other.seen m n) ∧
        after.Apart next.places other.places

theorem Apart.independent {m : Memory} {one other : Holder}
    (h : m.Apart one.places other.places) (hsound : m.Sound)
    (hother : ∀ p ∈ other.places, m.Live p) : m.Independent one other := by
  intro next after hrun
  have hstart : m.Undisturbed other (one, m) := ⟨.refl, apart_iff.1 h⟩
  have hend := hstart.run hsound hother hrun
  exact ⟨fun p hp => hend.confined.kept hp, hend.seen_eq hsound hother, hend.apart⟩

end Memory

/-! ## Copies -/

namespace Holder

open Memory

/-- Equality of what is held; views are equal when their literals and the paths below them are. -/
def Equal (m : Memory) : Holder → Holder → Prop
  | .value v, .value w => m.store.heap.equal v w = true
  | .var x, .var y => x.name = y.name
  | .term t, .term u => t.equal m.store.heap u = true
  | .literal l, .literal k => l.equal m.store.heap k = true
  | .view v, .view w =>
      (m.graph.literals v).keys = (m.graph.literals w).keys ∧
        List.Forall₂ (List.Forall₂ fun l k => l.equal m.store.heap k = true)
          (m.graph.literals v).values (m.graph.literals w).values ∧
        (m.graph.viewsBelow v).keys = (m.graph.viewsBelow w).keys
  | _, _ => False

theorem forall₂_of_map_eq {α β : Type} {f : α → β} {as bs : List α} (h : as.map f = bs.map f) :
    List.Forall₂ (fun a b => f a = f b) as bs := by
  have hsame : List.Forall₂ (· = ·) (as.map f) (bs.map f) := by
    rw [List.forall₂_eq_eq_eq]
    exact h
  exact List.forall₂_map_left_iff.1 (List.forall₂_map_right_iff.1 hsame)

/-- Views with one listing are equal. -/
theorem equal_of_listing {m : Memory} (hboxes : m.store.heap.Acyclic) {v w : ViewId} {n : Nat}
    (h : (Holder.view v).seen m n = (Holder.view w).seen m n) :
    Equal m (.view v) (.view w) := by
  obtain ⟨halbum, hpaths⟩ := Sight.listing.inj h
  refine ⟨?_, ?_, hpaths⟩
  · have hkeys := congrArg Table.keys halbum
    rwa [BeliefGraph.album, BeliefGraph.album, Table.keys_mapValues, Table.keys_mapValues] at hkeys
  · have hvalues : (m.graph.literals v).values.map (List.map (Literal.picture m.store n)) =
        (m.graph.literals w).values.map (List.map (Literal.picture m.store n)) := by
      have htables := congrArg Table.values halbum
      rwa [BeliefGraph.album, BeliefGraph.album, Table.values_mapValues,
        Table.values_mapValues] at htables
    refine (forall₂_of_map_eq hvalues).imp fun literals others hsame => ?_
    exact (forall₂_of_map_eq hsame).imp fun l k hlk => (Literal.equal_of_picture hboxes l k hlk).2

/-- A copy that shows what the original shows is equal to it. -/
theorem equal_copy {m : Memory} {holder : Holder} {n : Nat}
    (hboxes : (holder.copy m).2.store.heap.Acyclic)
    (h : holder.seen (holder.copy m).2 n = (holder.copy m).1.seen (holder.copy m).2 n) :
    Equal (holder.copy m).2 holder (holder.copy m).1 := by
  cases holder with
  | value v => exact (hboxes.equal_iff _ _).2 (Picture.value.inj (Sight.picture.inj h)).2
  | var x =>
      obtain ⟨name, cell⟩ := x
      exact (Picture.var.inj (Sight.picture.inj h)).1
  | term t => exact (Term.equal_of_picture hboxes t _ (Sight.picture.inj h)).2
  | literal l => exact (Literal.equal_of_picture hboxes l _ (Sight.picture.inj h)).2
  | view v => exact equal_of_listing hboxes h

section Copied

variable {m : Memory} {holder copy : Holder} {after : Memory} (hsound : m.Sound)
  (hlive : ∀ p ∈ holder.places, m.Live p) (hcopied : holder.Copied m (copy, after))

include hsound hlive hcopied

/-- The original reaches old places and the copy new ones. -/
theorem Copied.apart : after.Apart copy.places holder.places := by
  intro p hcopy horiginal
  -- The induction is on the way: new places lead to new ones, and old ones still to old ones.
  have hnew : ¬ m.Live p := by
    refine hcopy.induction (P := fun p => ¬ m.Live p) (fun root hroot => ?_) fun hp hlead => ?_
    · exact (hcopied.fresh root hroot).1
    · exact (hcopied.grown.new hp hlead).1
  refine hnew (horiginal.induction hlive fun {p q} hp hlead => ?_)
  rw [Leads, hcopied.grown.kept.content hp] at hlead
  exact hsound.closed hlead

/-- The original shows in the memory with the copy what it has shown before. -/
theorem Copied.seen_original (n : Nat) : holder.seen after n = holder.seen m n := by
  have hsame : Same m.Live m after :=
    ⟨fun _ hlead => hsound.closed hlead, hcopied.grown.kept.content⟩
  exact hsame.seen_eq hsound hcopied.grown.kept.live (fun p hp => ⟨hlive p hp, hlive p hp⟩) n

end Copied

/--
A copy shares nothing with its original, where no slot that the original reaches
leads back to itself.  It is equal to the original and shows the same, however many
slots are followed.  Every place that was there keeps its content, no place is reached
from both, and changes through one of them are not seen through the other.
-/
theorem copy_shares_nothing {m : Memory} (hsound : m.Sound) {holder : Holder}
    (hlive : ∀ p ∈ holder.places, m.Live p) (hunwound : ∀ p ∈ holder.places, m.Unwound p) :
    ∃ copy after, holder.copy m = (copy, after) ∧
      Equal after holder copy ∧
      (∀ n, copy.seen after n = holder.seen after n) ∧
      (∀ p, m.Live p → after.Live p ∧ after.content p = m.content p) ∧
      after.Apart copy.places holder.places ∧
      after.Independent copy holder ∧
      after.Independent holder copy := by
  have hcopied := copied hsound hlive hunwound
  have hkept := hcopied.grown.kept
  have hseen : ∀ n, (holder.copy m).1.seen (holder.copy m).2 n = holder.seen (holder.copy m).2 n :=
    fun n => (hcopied.same n).trans (hcopied.seen_original hsound hlive n).symm
  have hapart := hcopied.apart hsound hlive
  refine ⟨_, _, rfl, ?_, hseen, fun p hp => ⟨hkept.live hp, hkept.content hp⟩, hapart, ?_, ?_⟩
  · exact equal_copy hcopied.sound.boxes (hseen 0).symm
  · exact hapart.independent hcopied.sound fun p hp => hkept.live (hlive p hp)
  · exact hapart.symm.independent hcopied.sound fun p hp => (hcopied.fresh p hp).2

/-- A literal with a box in a list, and with a mutex variable in its annotation. -/
def sampleLiteral : Literal :=
  ⟨⟨.empty, "p"⟩, [.raw (.list [.box 0])],
    [⟨⟨.empty, "q"⟩, [.var ⟨⟨["X"]⟩, .mutex 0⟩], [], false, false⟩], false, false⟩

/-- A root with a view that holds the literal; the slot is bound to the box. -/
def sample : Memory where
  graph := ⟨#[⟨"", ⟨[("a", 1)]⟩, {}⟩, ⟨"a", {}, ⟨[(⟨false, "p"⟩, [sampleLiteral])]⟩⟩]⟩
  store := ⟨⟨#[.int 1]⟩, #[some (.raw (.box 0))]⟩

/-- All the ways of one step in the sample. -/
theorem leads_sample {p q : Place} (h : sample.Leads p q) :
    (p, q) ∈ [(Place.slot 0, Place.box 0), (.view 0, .view 1), (.view 1, .box 0),
      (.view 1, .slot 0)] := by
  have hp := h.live
  cases p with
  | box b =>
      obtain rfl : b = 0 := Nat.lt_one_iff.1 hp
      cases h
  | slot i =>
      obtain rfl : i = 0 := Nat.lt_one_iff.1 hp
      have hq : q ∈ [Place.box 0] := h
      simpa using hq
  | view v =>
      obtain rfl | rfl := Nat.le_one_iff_eq_zero_or_eq_one.1 (Nat.le_of_lt_succ hp)
      · have hq : q ∈ [Place.view 1] := h
        simpa using hq
      · have hq : q ∈ [Place.box 0, Place.slot 0] := h
        simpa using hq

theorem sample_sound : sample.Sound where
  closed h := by
    have hlead := leads_sample h
    simp only [List.mem_cons, Prod.mk.injEq, List.not_mem_nil, or_false] at hlead
    obtain ⟨-, rfl⟩ | ⟨-, rfl⟩ | ⟨-, rfl⟩ | ⟨-, rfl⟩ := hlead <;> decide
  boxes := ⟨fun _ => 0, fun b c hc => by
    have hlead := leads_sample (p := .box b) (q := .box c) (List.mem_map_of_mem hc)
    simp at hlead⟩
  views := by
    have hedge : ∀ {v w}, sample.graph.Child v w → v = 0 ∧ w = 1 := by
      intro v w h
      have hlead := leads_sample (p := .view v) (q := .view w)
        (List.mem_append_left _ (List.mem_map_of_mem h))
      simpa using hlead
    refine ⟨fun h => ?_, fun v h => ?_⟩
    · rw [(hedge h).2]
      decide
    · obtain ⟨w, hfirst, -⟩ := TransGen.head'_iff.1 h
      obtain ⟨w', -, hlast⟩ := TransGen.tail'_iff.1 h
      exact absurd ((hedge hfirst).1.symm.trans (hedge hlast).2) Nat.zero_ne_one

/-- The only slot of the sample leads to a box, and the box to nothing. -/
theorem sample_unwound (p : Place) : sample.Unwound p := by
  intro i _ hround
  obtain ⟨q, hlead, hback⟩ := TransGen.head'_iff.1 hround
  obtain ⟨rfl, rfl⟩ : i = 0 ∧ q = .box 0 := by simpa using leads_sample hlead
  obtain hsame | ⟨r, hfar, -⟩ := ReflTransGen.cases_head hback
  · cases hsame
  · simpa using leads_sample hfar

/-- The root of the sample is copied with all that it reaches. -/
theorem copy_shares_nothing_sample :
    sample.Sound ∧ (∀ p ∈ (Holder.view 0).places, sample.Live p) ∧
      (∀ p ∈ (Holder.view 0).places, sample.Unwound p) ∧
      ∃ copy after, (Holder.view 0).copy sample = (copy, after) ∧
        Equal after (.view 0) copy ∧
        (∀ n, copy.seen after n = (Holder.view 0).seen after n) ∧
        (∀ p, sample.Live p → after.Live p ∧ after.content p = sample.content p) ∧
        after.Apart copy.places (Holder.view 0).places ∧
        after.Independent copy (.view 0) ∧
        after.Independent (.view 0) copy := by
  have hlive : ∀ p ∈ (Holder.view 0).places, sample.Live p := by
    intro p hp
    rw [List.mem_singleton.1 hp]
    decide
  have hunwound : ∀ p ∈ (Holder.view 0).places, sample.Unwound p := fun p _ => sample_unwound p
  exact ⟨sample_sound, hlive, hunwound, copy_shares_nothing sample_sound hlive hunwound⟩

/-- A variable bound to the box of the sample. -/
def bound : Variable := ⟨⟨["X"]⟩, .free (some (.raw (.box 0)))⟩

/--
Not every run of changes through a copy is hidden from the original: the copy is
bound to the box of the original, and the box is changed through the copy.  And not
every variable has a copy: a mutex variable that is bound to itself is followed from
its slot to its slot, and no number of slots is enough.
-/
theorem copy_not_independent_of_shared :
    (¬ ∀ (m : Memory) (holder : Holder), m.Sound → (∀ p ∈ holder.places, m.Live p) →
      (∀ p ∈ holder.places, m.Unwound p) → ∀ next after,
        ReflTransGen (Change fun _ _ => True) (holder.copy m) (next, after) →
          ∀ n, holder.seen after n = holder.seen (holder.copy m).2 n) ∧
    ∃ x store, Variable.set { slots := #[none] } x (.var x) = .ok (store, x) ∧
      x.places = [.slot 0] ∧ ∀ n, ¬ Within ⟨.rooted, store⟩ n (.slot 0) := by
  refine ⟨?_, ⟨⟨["M"]⟩, .mutex 0⟩, _, rfl, rfl, fun n => ?_⟩
  · intro h
    have hlive : ∀ p ∈ (Holder.var bound).places, sample.Live p := by
      intro p hp
      rw [List.mem_singleton.1 hp]
      decide
    have hbind : Change (fun _ _ => True) ((Holder.var bound).copy sample)
        (.var bound, ((Holder.var bound).copy sample).2) :=
      .setVar (.raw (.box 0)) trivial rfl
    have hwrite : ((Holder.var bound).copy sample).2.store.heap.replace (.box 0) (.int 2) =
        .ok ⟨#[.int 2, .int 1]⟩ := rfl
    have hreplace : Change (fun _ _ => True) (.var bound, ((Holder.var bound).copy sample).2)
        (.var bound, { sample with
          store := { sample.store with heap := ⟨#[.int 2, .int 1]⟩ } }) :=
      .replace (.int 2) (fun p hp => reaches_of_mem hp) trivial hwrite
    have hseen := h sample (.var bound) sample_sound hlive (fun p _ => sample_unwound p) _ _
      (.tail (.single hbind) hreplace) 0
    obtain ⟨-, -, hbinding⟩ := Picture.var.inj (Sight.picture.inj hseen)
    have htree : (Datum.int 2 : Tree) = .int 1 :=
      (Picture.value.inj (Option.some.inj hbinding)).2
    exact absurd (Datum.int.inj htree) (by decide)
  · induction n with
    | zero => exact id
    | succ n ih => exact fun h => ih (h.2 (.slot 0) List.mem_cons_self)

end Holder

end Deliberation
