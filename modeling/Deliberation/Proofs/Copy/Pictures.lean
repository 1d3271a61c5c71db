import Deliberation.Belief.Listing
import Deliberation.Proofs.Copy.Places
import Deliberation.Proofs.Term.Equality

/-!
# What is seen through handles

The picture of a term shows all that can be read from it: functors and flags, the
names and kinds of variables with their bindings, annotations, and values with
their boxes opened.  Slots are followed to a given depth.  Terms with one picture
are equal.

A picture only depends on the contents of the places that are reached, and so do
the listings of a view.
-/

namespace Deliberation

/-- What can be seen of a term. -/
inductive Picture where
  | value (outline : Outline) (tree : Tree)
  | var (name : Path) (kind : VariableKind) (binding : Option Picture)
  | literal (functor : Symbol) (negated marked : Bool) (arguments annotations : List Picture)

mutual

/-- The picture of a term, with the pictures of slots given by `slot`. -/
def Term.pictureWith (heap : Heap) (slot : SlotId → Option Picture) : Term → Picture
  | .raw v => .value v.outline (heap.unbox v)
  | .var x => x.pictureWith heap slot
  | .lit l => l.pictureWith heap slot

def Literal.pictureWith (heap : Heap) (slot : SlotId → Option Picture) : Literal → Picture
  | ⟨functor, arguments, annotations, negated, marked⟩ =>
      .literal functor negated marked (Term.picturesWith heap slot arguments)
        (Literal.picturesWith heap slot annotations)

def Variable.pictureWith (heap : Heap) (slot : SlotId → Option Picture) : Variable → Picture
  | ⟨name, cell⟩ => .var name cell.kind (cell.pictureWith heap slot)

/-- The picture of what a cell is bound to. -/
def Cell.pictureWith (heap : Heap) (slot : SlotId → Option Picture) : Cell → Option Picture
  | .free none => none
  | .free (some t) => some (t.pictureWith heap slot)
  | .constant t => some (t.pictureWith heap slot)
  | .mutex i => slot i
  | .relocate _ none => none
  | .relocate _ (some t) => some (t.pictureWith heap slot)

def Term.picturesWith (heap : Heap) (slot : SlotId → Option Picture) : List Term → List Picture
  | [] => []
  | t :: rest => t.pictureWith heap slot :: Term.picturesWith heap slot rest

def Literal.picturesWith (heap : Heap) (slot : SlotId → Option Picture) :
    List Literal → List Picture
  | [] => []
  | l :: rest => l.pictureWith heap slot :: Literal.picturesWith heap slot rest

end

/-- The picture of what a slot is bound to, following at most `n` slots on any way. -/
def Store.slotPicture (s : Store) : Nat → SlotId → Option Picture
  | 0, _ => none
  | n + 1, i => (s.readSlot i).map (Term.pictureWith s.heap (s.slotPicture n))

def Term.picture (s : Store) (n : Nat) (t : Term) : Picture :=
  t.pictureWith s.heap (s.slotPicture n)

def Variable.picture (s : Store) (n : Nat) (x : Variable) : Picture :=
  x.pictureWith s.heap (s.slotPicture n)

def Literal.picture (s : Store) (n : Nat) (l : Literal) : Picture :=
  l.pictureWith s.heap (s.slotPicture n)

/-! ## Equality -/

section Equality

variable {heap : Heap} {slot : SlotId → Option Picture}

mutual

theorem Term.equal_of_picture (hacyclic : heap.Acyclic) :
    ∀ t u : Term, t.pictureWith heap slot = u.pictureWith heap slot →
      t.identity = u.identity ∧ t.equal heap u = true
  | .raw v, u, h => by
      cases u with
      | raw w =>
          simp only [Term.pictureWith, Picture.value.injEq] at h
          rw [Term.identity, Term.identity, h.1]
          exact ⟨rfl, (hacyclic.equal_iff v w).2 h.2⟩
      | var y => obtain ⟨⟩ := y; simp [Term.pictureWith, Variable.pictureWith] at h
      | lit m => obtain ⟨⟩ := m; simp [Term.pictureWith, Literal.pictureWith] at h
  | .var ⟨name, cell⟩, u, h => by
      cases u with
      | raw w => simp [Term.pictureWith, Variable.pictureWith] at h
      | var y =>
          obtain ⟨⟩ := y
          simp only [Term.pictureWith, Variable.pictureWith, Picture.var.injEq] at h
          rw [Term.identity, Term.identity, Term.equal, decide_eq_true_iff]
          exact ⟨congrArg IdentityKey.var h.1, h.1⟩
      | lit m =>
          obtain ⟨⟩ := m
          simp [Term.pictureWith, Variable.pictureWith, Literal.pictureWith] at h
  | .lit l, u, h => by
      cases u with
      | raw w => obtain ⟨⟩ := l; simp [Term.pictureWith, Literal.pictureWith] at h
      | var y =>
          obtain ⟨⟩ := l
          obtain ⟨⟩ := y
          simp [Term.pictureWith, Variable.pictureWith, Literal.pictureWith] at h
      | lit m => exact Literal.equal_of_picture hacyclic l m h

theorem Literal.equal_of_picture (hacyclic : heap.Acyclic) :
    ∀ l m : Literal, l.pictureWith heap slot = m.pictureWith heap slot →
      l.identity = m.identity ∧ l.equal heap m = true
  | ⟨functor, arguments, annotations, negated, marked⟩, m, h => by
      obtain ⟨functor', arguments', annotations', negated', marked'⟩ := m
      simp only [Literal.pictureWith, Picture.literal.injEq] at h
      obtain ⟨rfl, rfl, rfl, harguments, -⟩ := h
      obtain ⟨hkeys, hequal⟩ := Term.equalAll_of_pictures hacyclic arguments arguments' harguments
      rw [Literal.equal, Literal.identity, Literal.identity, hkeys, hequal]
      exact ⟨rfl, by simp⟩

theorem Term.equalAll_of_pictures (hacyclic : heap.Acyclic) :
    ∀ ts us : List Term, Term.picturesWith heap slot ts = Term.picturesWith heap slot us →
      Term.identityAll ts = Term.identityAll us ∧ Term.equalAll heap ts us = true
  | [], us, h => by
      cases us with
      | nil => exact ⟨rfl, rfl⟩
      | cons u us => cases h
  | t :: ts, us, h => by
      cases us with
      | nil => cases h
      | cons u us =>
          simp only [Term.picturesWith, List.cons.injEq] at h
          obtain ⟨hkey, hequal⟩ := Term.equal_of_picture hacyclic t u h.1
          obtain ⟨hkeys, hequals⟩ := Term.equalAll_of_pictures hacyclic ts us h.2
          rw [Term.identityAll, Term.identityAll, hkey, hkeys, Term.equalAll, hequal, hequals]
          exact ⟨rfl, rfl⟩

end

end Equality

/-! ## Places that keep their contents -/

/-- Values and slots in a region look the same from two sides. -/
structure LooksAlike (region : Place → Prop) (heap heap' : Heap)
    (slot slot' : SlotId → Option Picture) : Prop where
  value : ∀ {v : Value}, (∀ p ∈ v.places, region p) → heap'.unbox v = heap.unbox v
  slot : ∀ {i}, region (.slot i) → slot' i = slot i

section Alike

variable {region : Place → Prop} {heap heap' : Heap} {slot slot' : SlotId → Option Picture}

mutual

theorem Term.picture_congr (h : LooksAlike region heap heap' slot slot') :
    ∀ t : Term, (∀ p ∈ t.places, region p) →
      t.pictureWith heap' slot' = t.pictureWith heap slot
  | .raw v, ht => congrArg (Picture.value v.outline) (h.value ht)
  | .var x, ht => Variable.picture_congr h x ht
  | .lit l, ht => Literal.picture_congr h l ht

theorem Literal.picture_congr (h : LooksAlike region heap heap' slot slot') :
    ∀ l : Literal, (∀ p ∈ l.places, region p) →
      l.pictureWith heap' slot' = l.pictureWith heap slot
  | ⟨_, arguments, annotations, _, _⟩, hl => by
      rw [Literal.pictureWith, Literal.pictureWith,
        Term.pictures_congr h arguments fun p hp => hl p (List.mem_append_left _ hp),
        Literal.pictures_congr h annotations fun p hp => hl p (List.mem_append_right _ hp)]

theorem Variable.picture_congr (h : LooksAlike region heap heap' slot slot') :
    ∀ x : Variable, (∀ p ∈ x.places, region p) →
      x.pictureWith heap' slot' = x.pictureWith heap slot
  | ⟨_, cell⟩, hx => by
      rw [Variable.pictureWith, Variable.pictureWith, Cell.picture_congr h cell hx]

theorem Cell.picture_congr (h : LooksAlike region heap heap' slot slot') :
    ∀ cell : Cell, (∀ p ∈ cell.places, region p) →
      cell.pictureWith heap' slot' = cell.pictureWith heap slot
  | .free none, _ => rfl
  | .free (some t), hcell => congrArg some (Term.picture_congr h t hcell)
  | .constant t, hcell => congrArg some (Term.picture_congr h t hcell)
  | .mutex _, hcell => h.slot (hcell _ List.mem_cons_self)
  | .relocate _ none, _ => rfl
  | .relocate _ (some t), hcell => congrArg some (Term.picture_congr h t hcell)

theorem Term.pictures_congr (h : LooksAlike region heap heap' slot slot') :
    ∀ ts : List Term, (∀ p ∈ Term.placesAll ts, region p) →
      Term.picturesWith heap' slot' ts = Term.picturesWith heap slot ts
  | [], _ => rfl
  | t :: rest, hts =>
      congrArg₂ List.cons (Term.picture_congr h t fun p hp => hts p (List.mem_append_left _ hp))
        (Term.pictures_congr h rest fun p hp => hts p (List.mem_append_right _ hp))

theorem Literal.pictures_congr (h : LooksAlike region heap heap' slot slot') :
    ∀ ls : List Literal, (∀ p ∈ Literal.placesAll ls, region p) →
      Literal.picturesWith heap' slot' ls = Literal.picturesWith heap slot ls
  | [], _ => rfl
  | l :: rest, hls =>
      congrArg₂ List.cons (Literal.picture_congr h l fun p hp => hls p (List.mem_append_left _ hp))
        (Literal.pictures_congr h rest fun p hp => hls p (List.mem_append_right _ hp))

end

end Alike

/-- Some places that lead to one another only, and that have the same contents in two memories. -/
structure Memory.Same (region : Place → Prop) (m after : Memory) : Prop where
  closed : ∀ {p q}, region p → m.Leads p q → region q
  kept : ∀ {p}, region p → after.content p = m.content p

namespace Memory.Same

variable {region : Place → Prop} {m after : Memory} (h : Same region m after)

include h

theorem read_eq {b : BoxId} (hb : region (.box b)) :
    after.store.heap.read b = m.store.heap.read b :=
  Content.value.inj (h.kept hb)

theorem readSlot_eq {i : SlotId} (hi : region (.slot i)) :
    after.store.readSlot i = m.store.readSlot i :=
  Content.binding.inj (h.kept hi)

theorem view_eq {v : ViewId} (hv : region (.view v)) : after.graph.view v = m.graph.view v :=
  Content.view.inj (h.kept hv)

theorem unboxTo_eq (n : Nat) {v : Value} (hv : ∀ p ∈ v.places, region p) :
    after.store.heap.unboxTo n v = m.store.heap.unboxTo n v := by
  induction n generalizing v with
  | zero => rfl
  | succ n ih =>
      refine Datum.bind_congr v fun b hb => ?_
      have hbox : region (.box b) := hv _ (List.mem_map_of_mem hb)
      rw [h.read_eq hbox]
      exact ih fun p hp => h.closed hbox hp

variable (hacyclic : m.store.heap.Acyclic) (hsize : m.store.heap.size ≤ after.store.heap.size)

include hacyclic hsize

theorem unbox_eq {v : Value} (hv : ∀ p ∈ v.places, region p) :
    after.store.heap.unbox v = m.store.heap.unbox v := by
  obtain ⟨ranking⟩ := hacyclic.ranking
  have hbelow := ranking.below_size v
  refine (h.unboxTo_eq _ hv).trans (ranking.unboxTo_eq ?_ hbelow)
  exact fun b hb => (hbelow b hb).trans_le (Nat.succ_le_succ hsize)

theorem looksAlike (n : Nat) : LooksAlike region m.store.heap after.store.heap
    (m.store.slotPicture n) (after.store.slotPicture n) where
  value hv := h.unbox_eq hacyclic hsize hv
  slot := by
    induction n with
    | zero => exact fun _ => rfl
    | succ n ih =>
        intro i hi
        rw [Store.slotPicture, Store.slotPicture, h.readSlot_eq hi]
        cases hread : m.store.readSlot i with
        | none => rfl
        | some t =>
            have halike : LooksAlike region m.store.heap after.store.heap
                (m.store.slotPicture n) (after.store.slotPicture n) :=
              ⟨h.unbox_eq hacyclic hsize, ih⟩
            refine congrArg some (Term.picture_congr halike t fun p hp => h.closed hi ?_)
            change p ∈ (m.store.readSlot i).elim [] Term.places
            rw [hread]
            exact hp

end Memory.Same

/-! ## Listings of a view -/

namespace Memory.Same

variable {region : Place → Prop} {m after : Memory} (h : Same region m after)

include h

theorem child {v child : ViewId} (hv : region (.view v))
    (hchild : child ∈ (m.graph.view v).children.values) : region (.view child) :=
  h.closed hv (List.mem_append_left _ (List.mem_map_of_mem hchild))

theorem held {v : ViewId} (hv : region (.view v)) {l : Literal}
    (hl : l ∈ (m.graph.view v).buckets.values.flatten) {p : Place} (hp : p ∈ l.places) :
    region p :=
  h.closed hv (List.mem_append_right _ (List.mem_flatMap.2 ⟨l, hl, hp⟩))

theorem literalsTo_eq (n : Nat) (path : Path) {v : ViewId} (hv : region (.view v)) :
    after.graph.literalsTo n path v = m.graph.literalsTo n path v := by
  induction n generalizing path v with
  | zero => rfl
  | succ n ih =>
      rw [BeliefGraph.literalsTo, BeliefGraph.literalsTo, h.view_eq hv]
      refine congrArg _ (List.flatMap_congr fun entry hentry => ih _ ?_)
      exact h.child hv (List.mem_map_of_mem hentry)

theorem viewsTo_eq (n : Nat) (path : Path) {v : ViewId} (hv : region (.view v)) :
    after.graph.viewsTo n path v = m.graph.viewsTo n path v := by
  induction n generalizing path v with
  | zero => rfl
  | succ n ih =>
      rw [BeliefGraph.viewsTo, BeliefGraph.viewsTo, h.view_eq hv]
      refine List.flatMap_congr fun entry hentry => congrArg (· ++ _) (ih _ ?_)
      exact h.child hv (List.mem_map_of_mem hentry)

/-- The literals below a view hold places that are reached from it. -/
theorem places_literalsTo {n : Nat} {path : Path} {v : ViewId} (hv : region (.view v))
    {l : Literal} (hl : l ∈ m.graph.literalsTo n path v) {p : Place} (hp : p ∈ l.places) :
    region p := by
  induction n generalizing path v with
  | zero => cases hl
  | succ n ih =>
      rcases List.mem_append.1 hl with hown | hbelow
      · obtain ⟨literals, hliterals, hl⟩ := List.mem_flatMap.1 hown
        obtain ⟨kept, hkept, rfl⟩ := List.mem_map.1 hl
        rw [Literal.places_under] at hp
        exact h.held hv (List.mem_flatten.2 ⟨literals, hliterals, hkept⟩) hp
      · obtain ⟨entry, hentry, hl⟩ := List.mem_flatMap.1 hbelow
        exact ih (h.child hv (List.mem_map_of_mem hentry)) hl

end Memory.Same

/-! ## Holders -/

/-- Something that is copied. -/
inductive Holder where
  | value (v : Value)
  | var (x : Variable)
  | term (t : Term)
  | literal (l : Literal)
  | view (v : ViewId)

def Holder.places : Holder → List Place
  | .value v => v.places
  | .var x => x.places
  | .term t => t.places
  | .literal l => l.places
  | .view v => [.view v]

/-- What is read through a holder: a picture, or the literals and the paths below a view. -/
inductive Sight where
  | picture (picture : Picture)
  | listing (literals : Table Path (List Picture)) (views : List Path)

/-- The literals of a view by functor, each as its picture. -/
def BeliefGraph.album (g : BeliefGraph) (v : ViewId) (look : Literal → Picture) :
    Table Path (List Picture) :=
  (g.literals v).mapValues (List.map look)

/-- The functor that a picture of a literal shows. -/
def Picture.path : Picture → Path
  | .literal functor _ _ _ _ => functor.path
  | _ => .empty

theorem Literal.path_picture (s : Store) (n : Nat) (l : Literal) :
    (l.picture s n).path = l.functor.path := by
  obtain ⟨functor, arguments, annotations, negated, marked⟩ := l
  rw [Literal.picture, Literal.pictureWith, Picture.path]

/-- Append a picture to those of its functor. -/
def filePicture (t : Table Path (List Picture)) (picture : Picture) : Table Path (List Picture) :=
  t.insert picture.path ((t.get? picture.path).getD [] ++ [picture])

/-- The pictures of all literals, filed one after the other. -/
theorem BeliefGraph.album_eq (g : BeliefGraph) (v : ViewId) {look : Literal → Picture}
    (hlook : ∀ l, (look l).path = l.functor.path) :
    g.album v look = ((g.literalsFrom .empty v).map look).foldl filePicture {} := by
  have hfold : ∀ (literals : List Literal) (t : Table Path (List Literal)),
      (literals.foldl fileLiteral t).mapValues (List.map look) =
        (literals.map look).foldl filePicture (t.mapValues (List.map look)) := by
    intro literals
    induction literals with
    | nil => exact fun _ => rfl
    | cons l rest ih =>
        intro t
        have hstep : (fileLiteral t l).mapValues (List.map look) =
            filePicture (t.mapValues (List.map look)) (look l) := by
          rw [fileLiteral, filePicture, ← Table.insert_mapValues, Table.get?_mapValues, hlook,
            List.map_append]
          cases t.get? l.functor.path <;> rfl
        rw [List.foldl_cons, ih, hstep, List.map_cons, List.foldl_cons]
  exact hfold (g.literalsFrom .empty v) {}

/-- What is read through a holder when slots are followed to a depth. -/
def Holder.seen (m : Memory) (n : Nat) : Holder → Sight
  | .value v => .picture (.value v.outline (m.store.heap.unbox v))
  | .var x => .picture (x.picture m.store n)
  | .term t => .picture (t.picture m.store n)
  | .literal l => .picture (l.picture m.store n)
  | .view v => .listing (m.graph.album v (Literal.picture m.store n)) (m.graph.viewsBelow v).keys

/-- Where places stay, their numbers only grow. -/
theorem Memory.sizes_of_live {m after : Memory} (hlive : ∀ {p}, m.Live p → after.Live p) :
    m.store.heap.size ≤ after.store.heap.size ∧
      m.store.slots.size ≤ after.store.slots.size ∧ m.graph.size ≤ after.graph.size := by
  refine ⟨?_, ?_, ?_⟩
  · by_contra hsize
    exact Nat.lt_irrefl _ (hlive (p := .box after.store.heap.size) (Nat.lt_of_not_le hsize))
  · by_contra hsize
    exact Nat.lt_irrefl _ (hlive (p := .slot after.store.slots.size) (Nat.lt_of_not_le hsize))
  · by_contra hsize
    exact Nat.lt_irrefl _ (hlive (p := .view after.graph.size) (Nat.lt_of_not_le hsize))

/-- What is read through a holder only depends on the contents of the places that it reaches. -/
theorem Memory.Same.seen_eq {region : Place → Prop} {m after : Memory} (h : Same region m after)
    (hsound : m.Sound) (hlive : ∀ {p}, m.Live p → after.Live p) {holder : Holder}
    (hholder : ∀ p ∈ holder.places, region p ∧ m.Live p) (n : Nat) :
    holder.seen after n = holder.seen m n := by
  obtain ⟨hboxes, -, hviews⟩ := sizes_of_live hlive
  have halike := h.looksAlike hsound.boxes hboxes n
  have hregion : ∀ p ∈ holder.places, region p := fun p hp => (hholder p hp).1
  cases holder with
  | value v =>
      exact congrArg (fun tree => Sight.picture (.value v.outline tree)) (halike.value hregion)
  | var x => exact congrArg Sight.picture (Variable.picture_congr halike x hregion)
  | term t => exact congrArg Sight.picture (Term.picture_congr halike t hregion)
  | literal l => exact congrArg Sight.picture (Literal.picture_congr halike l hregion)
  | view v =>
      obtain ⟨hv, hmade⟩ := hholder (.view v) List.mem_cons_self
      have hliterals : after.graph.literalsFrom .empty v = m.graph.literalsFrom .empty v :=
        (h.literalsTo_eq _ .empty hv).trans (hsound.views.literalsTo_eq hmade hviews .empty)
      have hpaths : after.graph.viewsBelow v = m.graph.viewsBelow v := by
        refine congrArg Table.ofList ?_
        exact (h.viewsTo_eq _ .empty hv).trans (hsound.views.viewsTo_eq hmade hviews .empty)
      rw [Holder.seen, Holder.seen, hpaths, BeliefGraph.album_eq _ _ (Literal.path_picture _ n),
        BeliefGraph.album_eq _ _ (Literal.path_picture _ n), hliterals]
      have hpictures : (m.graph.literalsFrom .empty v).map (Literal.picture after.store n) =
          (m.graph.literalsFrom .empty v).map (Literal.picture m.store n) :=
        List.map_congr_left fun l hl =>
          Literal.picture_congr halike l fun p hp => h.places_literalsTo hv hl hp
      rw [hpictures]

end Deliberation
