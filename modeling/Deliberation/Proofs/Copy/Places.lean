import Deliberation.Proofs.Belief.Acyclic
import Deliberation.Proofs.Value.Unboxing

/-!
# Places and ways between them

Values, variables, terms and literals hold handles of boxes and slots, and views
hold handles of views and the handles in their literals.  Boxes, slots and views
are the places of a memory.  A place leads to the places whose handles its
content holds.

Two holders that reach no common place do not see each other's changes: a change
that writes only to places from which no way leads to those of the other, and
writes only handles of such places, keeps all that the other reaches.
-/

namespace Deliberation

open Relation

/-- Something that is known by a handle and can be changed. -/
inductive Place where
  | box (b : BoxId)
  | slot (i : SlotId)
  | view (v : ViewId)

/-! ## Handles -/

/-- The boxes that a value holds. -/
def Datum.places (v : Value) : List Place := v.marks.map .box

mutual

/-- The places that a term holds, in its own cells too. -/
def Term.places : Term → List Place
  | .raw v => v.places
  | .var x => x.places
  | .lit l => l.places

/-- The places that a literal holds, arguments before annotations. -/
def Literal.places : Literal → List Place
  | ⟨_, arguments, annotations, _, _⟩ =>
      Term.placesAll arguments ++ Literal.placesAll annotations

/-- The places that a variable holds. -/
def Variable.places : Variable → List Place
  | ⟨_, cell⟩ => cell.places

/-- The places that a cell holds; a mutex cell holds its slot. -/
def Cell.places : Cell → List Place
  | .free none => []
  | .free (some t) => t.places
  | .constant t => t.places
  | .mutex i => [.slot i]
  | .relocate _ none => []
  | .relocate _ (some t) => t.places

/-- The places that a list of terms holds. -/
def Term.placesAll : List Term → List Place
  | [] => []
  | t :: rest => t.places ++ Term.placesAll rest

/-- The places that a list of literals holds. -/
def Literal.placesAll : List Literal → List Place
  | [] => []
  | l :: rest => l.places ++ Literal.placesAll rest

end

theorem Term.placesAll_eq (ts : List Term) : Term.placesAll ts = ts.flatMap Term.places := by
  induction ts with
  | nil => rfl
  | cons t rest ih => rw [Term.placesAll, ih, List.flatMap_cons]

theorem Literal.placesAll_eq (ls : List Literal) :
    Literal.placesAll ls = ls.flatMap Literal.places := by
  induction ls with
  | nil => rfl
  | cons l rest ih => rw [Literal.placesAll, ih, List.flatMap_cons]

theorem Literal.places_eq (l : Literal) :
    l.places = l.arguments.flatMap Term.places ++ l.annotations.flatMap Literal.places := by
  obtain ⟨functor, arguments, annotations, negated, marked⟩ := l
  rw [Literal.places, Term.placesAll_eq, Literal.placesAll_eq]

@[simp] theorem Literal.places_under (path : Path) (l : Literal) :
    (l.under path).places = l.places := by
  rw [Literal.places_eq, Literal.places_eq]
  rfl

@[simp] theorem Literal.places_inView (l : Literal) : l.inView.places = l.places := by
  unfold inView
  split
  · rw [Literal.places_eq, Literal.places_eq]
  · rfl

/-- The views below a view and the places of its literals. -/
def View.places (node : View) : List Place :=
  node.children.values.map .view ++ node.buckets.values.flatten.flatMap Literal.places

/-! ## Memories -/

/-- What a place holds. -/
inductive Content where
  | value (v : Value)
  | binding (t : Option Term)
  | view (node : View)

def Content.places : Content → List Place
  | .value v => v.places
  | .binding t => t.elim [] Term.places
  | .view node => node.places

/-- The views, and the boxes and slots that their literals and all other terms live in. -/
structure Memory where
  graph : BeliefGraph
  store : Store

namespace Memory

def content (m : Memory) : Place → Content
  | .box b => .value (m.store.heap.read b)
  | .slot i => .binding (m.store.readSlot i)
  | .view v => .view (m.graph.view v)

/-- Whether a handle is one of a place that was made. -/
def Live (m : Memory) : Place → Prop
  | .box b => b < m.store.heap.size
  | .slot i => i < m.store.slots.size
  | .view v => v < m.graph.size

instance (m : Memory) : (p : Place) → Decidable (m.Live p)
  | .box b => inferInstanceAs (Decidable (b < m.store.heap.size))
  | .slot i => inferInstanceAs (Decidable (i < m.store.slots.size))
  | .view v => inferInstanceAs (Decidable (v < m.graph.size))

/-- Whether a place holds the handle of another one. -/
def Leads (m : Memory) (p q : Place) : Prop := q ∈ (m.content p).places

/-- Whether a way leads from one of some places to a place. -/
def Reaches (m : Memory) (roots : List Place) (p : Place) : Prop :=
  ∃ root ∈ roots, ReflTransGen m.Leads root p

/-- No slot on a way from a place leads back to itself. -/
def Unwound (m : Memory) (p : Place) : Prop :=
  ∀ i, ReflTransGen m.Leads p (.slot i) → ¬ TransGen m.Leads (.slot i) (.slot i)

/-- No handle dangles, no box contains itself, and no view lies below itself. -/
structure Sound (m : Memory) : Prop where
  closed : ∀ {p q}, m.Leads p q → m.Live q
  boxes : m.store.heap.Acyclic
  views : m.graph.Sound

theorem places_of_not_live {m : Memory} {p : Place} (h : ¬ m.Live p) :
    (m.content p).places = [] := by
  cases p with
  | box b =>
      change (m.store.heap.read b).places = []
      rw [Heap.read_of_size_le (Nat.le_of_not_lt h)]
      rfl
  | slot i =>
      change (m.store.readSlot i).elim [] Term.places = []
      rw [Store.readSlot_of_size_le (Nat.le_of_not_lt h)]
      rfl
  | view v =>
      change (m.graph.view v).places = []
      rw [BeliefGraph.view_of_size_le _ (Nat.le_of_not_lt h)]
      rfl

section Ways

variable {m : Memory} {roots : List Place} {p q : Place}

theorem Leads.live (h : m.Leads p q) : m.Live p := by
  by_contra hp
  rw [Leads, places_of_not_live hp] at h
  cases h

theorem reaches_of_mem (h : p ∈ roots) : m.Reaches roots p := ⟨p, h, ReflTransGen.refl⟩

theorem Reaches.tail (h : m.Reaches roots p) (hlead : m.Leads p q) : m.Reaches roots q := by
  obtain ⟨root, hroot, hway⟩ := h
  exact ⟨root, hroot, hway.tail hlead⟩

/-- What holds of some places and of all that such places lead to holds of all that they reach. -/
theorem Reaches.induction {P : Place → Prop} (h : m.Reaches roots p)
    (hroots : ∀ root ∈ roots, P root) (hstep : ∀ {p q}, P p → m.Leads p q → P q) : P p := by
  obtain ⟨root, hroot, hway⟩ := h
  induction hway with
  | refl => exact hroots root hroot
  | tail _ hlead ih => exact hstep ih hlead

theorem Unwound.step (h : m.Unwound p) (hlead : m.Leads p q) : m.Unwound q :=
  fun i hway => h i (hway.head hlead)

theorem Sound.live_of_reaches (hsound : m.Sound) (h : m.Reaches roots p)
    (hroots : ∀ root ∈ roots, m.Live root) : m.Live p :=
  h.induction hroots fun _ hlead => hsound.closed hlead

end Ways

/-- Where all that is reached keeps its content, the same is reached. -/
theorem reaches_iff_of_agree {m after : Memory} {roots : List Place}
    (hagree : ∀ p, m.Reaches roots p → after.content p = m.content p) (p : Place) :
    after.Reaches roots p ↔ m.Reaches roots p := by
  constructor
  · intro h
    refine h.induction (fun root hroot => reaches_of_mem hroot) fun {p q} hp hlead => ?_
    rw [Leads, hagree p hp] at hlead
    exact hp.tail hlead
  · intro h
    have hboth : after.Reaches roots p ∧ m.Reaches roots p := by
      refine h.induction (P := fun p => after.Reaches roots p ∧ m.Reaches roots p)
        (fun root hroot => ⟨reaches_of_mem hroot, reaches_of_mem hroot⟩) fun {p q} hp hlead => ?_
      refine ⟨hp.1.tail ?_, hp.2.tail hlead⟩
      rw [Leads, hagree p hp.2]
      exact hlead
    exact hboth.1

/-! ## Changes that stay away from some places -/

/-- No way leads from a place to those of the other side. -/
def Clear (m : Memory) (theirs : Place → Prop) (p : Place) : Prop :=
  ∀ q, ReflTransGen m.Leads p q → ¬ theirs q

/-- The other side keeps what it has, and no new way leads to it from a place that had none. -/
structure Confined (theirs : Place → Prop) (m after : Memory) : Prop where
  kept : ∀ {p}, theirs p → after.content p = m.content p
  clear : ∀ {p}, m.Clear theirs p → after.Clear theirs p
  live : ∀ {p}, m.Live p → after.Live p

section Confined

variable {theirs : Place → Prop} {m middle after : Memory} {p q : Place}

theorem Clear.not_mem (h : m.Clear theirs p) : ¬ theirs p := h p ReflTransGen.refl

theorem Clear.step (h : m.Clear theirs p) (hlead : m.Leads p q) : m.Clear theirs q :=
  fun r hway => h r (hway.head hlead)

theorem Clear.of_reaches {roots : List Place} (h : ∀ root ∈ roots, m.Clear theirs root)
    (hp : m.Reaches roots p) : m.Clear theirs p :=
  hp.induction h fun hclear hlead => hclear.step hlead

theorem Confined.refl : Confined theirs m m := ⟨fun _ => rfl, id, id⟩

theorem Confined.trans (hfirst : Confined theirs m middle)
    (hsecond : Confined theirs middle after) : Confined theirs m after where
  kept hp := (hsecond.kept hp).trans (hfirst.kept hp)
  clear hp := hsecond.clear (hfirst.clear hp)
  live hp := hsecond.live (hfirst.live hp)

/-- A place that was not made leads nowhere, and is not one of the other side. -/
theorem clear_of_not_live (htheirs : ∀ {p}, theirs p → m.Live p) (hp : ¬ m.Live p) :
    m.Clear theirs p := by
  intro q hway
  rcases ReflTransGen.cases_head hway with rfl | ⟨r, hlead, -⟩
  · exact fun h => hp (htheirs h)
  · exact absurd hlead.live hp

/-- Only clear places are changed, and only clear places are written to them. -/
theorem confined_of_rewrites (hlive : ∀ {p}, m.Live p → after.Live p)
    (hrewrites : ∀ p, after.content p = m.content p ∨
      m.Clear theirs p ∧ ∀ q ∈ (after.content p).places, m.Clear theirs q) :
    Confined theirs m after where
  kept {p} hp := (hrewrites p).resolve_right fun h => h.1.not_mem hp
  clear {p} hp := by
    -- The places that were clear lead to such places only, before and after.
    have hclosed : ∀ {q}, ReflTransGen after.Leads p q → m.Clear theirs q := by
      intro q hway
      induction hway with
      | refl => exact hp
      | @tail q r _ hlead ih =>
          rcases hrewrites q with hsame | ⟨-, hwritten⟩
          · rw [Leads, hsame] at hlead
            exact ih.step hlead
          · exact hwritten r hlead
    exact fun q hway => (hclosed hway).not_mem
  live := hlive

end Confined

end Memory

end Deliberation
