import Deliberation.Proofs.Belief.Tidy

/-!
# Documents read as beliefs

A view that is made from an object lists a literal for each entry that stays, and
finds it again unless an object on the way to the entry has the empty key.  Where
all keys read back as themselves, every entry stays, and the view is the document:
one literal for each array or scalar, at the path of the keys that lead to it, and
one view for each object.
-/

namespace Deliberation

namespace Document

/-- The array or scalar that keys lead to. -/
def leafAt? (d : Document) (way : List String) : Option Document :=
  (d.walk? way).filter fun content => !content.isObject

theorem leafAt?_eq_some_iff {d content : Document} {way : List String} :
    d.leafAt? way = some content ↔ d.walk? way = some content ∧ content.isObject = false := by
  simp [leafAt?, Option.filter_eq_some_iff]

theorem leafAt?_append (d : Document) (first second : List String) :
    d.leafAt? (first ++ second) = (d.walk? first).bind (leafAt? · second) := by
  rw [leafAt?, walk?_append]
  cases d.walk? first <;> rfl

theorem leafAt?_path_of_not_isObject {d : Document} (h : d.isObject = false) (f : Symbol) :
    d.leafAt? f.path.segments = none := by
  rw [leafAt?, Symbol.path, walk?_concat_of_not_isObject h]
  rfl

theorem leafAt?_path_nil (f : Symbol) : (object []).leafAt? f.path.segments = none := by
  obtain ⟨⟨_ | ⟨first, rest⟩⟩, name⟩ := f <;> rfl

theorem leafAt?_singleton {content : Document} (h : content.isObject = false) (key : String)
    (way : List String) :
    (object [(key, content)]).leafAt? way = if way = [key] then some content else none := by
  cases way with
  | nil => rfl
  | cons first rest =>
      rw [leafAt?, walk?_object_cons]
      cases rest with
      | nil =>
          by_cases hfirst : key = first
          · rw [if_pos hfirst, if_pos (congrArg (fun key => [key]) hfirst.symm)]
            simp [walk?, h]
          · rw [if_neg hfirst, if_neg (by simpa using Ne.symm hfirst)]
            rfl
      | cons second rest =>
          have hlonger : first :: second :: rest ≠ [key] := by simp
          rw [walk?_cons_of_not_isObject h, walk?_object_nil, ite_self, if_neg hlonger]
          rfl

/-- Where keys read back as themselves, every array and every scalar stays under its key. -/
theorem Plain.survives_iff {d : Document} (h : d.Plain) {chain : List String} {key : String}
    {content : Document} {f : Symbol} :
    d.Survives chain key content f ↔
      d.leafAt? (chain ++ [key]) = some content ∧ f = ⟨.empty, key⟩ := by
  rw [leafAt?_eq_some_iff]
  constructor
  · intro hstays
    have hf := hstays.functor
    rw [Symbol.ofPath?_parse_of_isSegment (h.isSegment hstays.there)] at hf
    exact ⟨⟨hstays.there, hstays.leaf⟩, (Option.some.inj hf).symm⟩
  · rintro ⟨⟨hthere, hleaf⟩, rfl⟩
    refine ⟨hthere, hleaf, Symbol.ofPath?_parse_of_isSegment (h.isSegment hthere), ?_⟩
    rintro first inner ⟨⟩

theorem Plain.states_iff {d : Document} (h : d.Plain) {way : List String} {name : String}
    {l : Literal} :
    d.States way ⟨false, name⟩ l ↔
      ∃ content, d.leafAt? (way ++ [name]) = some content ∧
        l = BeliefGraph.leafLiteral ⟨.empty, name⟩ content := by
  constructor
  · rintro ⟨chain, key, content, f, hstays, rfl, hbucket, rfl⟩
    obtain ⟨hcontent, rfl⟩ := h.survives_iff.1 hstays
    cases hbucket
    exact ⟨content, by rwa [show chain ++ Path.empty.segments = chain from List.append_nil chain],
      rfl⟩
  · rintro ⟨content, hcontent, rfl⟩
    refine ⟨way, name, content, ⟨.empty, name⟩, h.survives_iff.2 ⟨hcontent, rfl⟩, ?_, rfl, rfl⟩
    exact (List.append_nil way).symm

/-- Keys lead on from objects only. -/
theorem exists_object_of_walk? {d content : Document} {way further : List String}
    {key : String} (h : d.walk? (way ++ key :: further) = some content) :
    ∃ inner, d.walk? way = some (.object inner) := by
  rw [walk?_append] at h
  obtain ⟨middle, hmiddle, hfurther⟩ := Option.bind_eq_some_iff.1 h
  cases middle with
  | object inner => exact ⟨inner, hmiddle⟩
  | _ => cases hfurther

theorem Plain.opens_iff {d : Document} (h : d.Plain) {way : List String} :
    d.Opens way ↔ ∃ inner, d.walk? way = some (.object inner) := by
  refine ⟨?_, Or.inl⟩
  rintro (hobject | ⟨chain, key, content, f, hstays, hway⟩)
  · exact hobject
  · obtain ⟨hcontent, rfl⟩ := h.survives_iff.1 hstays
    have hthere := (leafAt?_eq_some_iff.1 hcontent).1
    obtain ⟨behind, hbehind⟩ := hway
    rw [show chain ++ (Symbol.mk Path.empty key).view.segments = chain from
      List.append_nil chain] at hbehind
    rw [← hbehind, List.append_assoc] at hthere
    cases behind with
    | nil => exact exists_object_of_walk? hthere
    | cons first behind => exact exists_object_of_walk? hthere

end Document

namespace BeliefGraph

/-! ## One list for each functor -/

/-- A table of literals holds no empty list. -/
theorem ne_nil_of_get?_literals {g : BeliefGraph} {v : ViewId} {p : Path} {ls : List Literal}
    (h : (g.literals v).get? p = some ls) : ls ≠ [] := by
  have hfold : ∀ (listing : List Literal) (t : Table Path (List Literal)),
      (∀ {p ls}, t.get? p = some ls → ls ≠ []) →
        ∀ {p ls}, (listing.foldl fileLiteral t).get? p = some ls → ls ≠ [] := by
    intro listing
    induction listing with
    | nil => exact fun t ht => ht
    | cons l rest ih =>
        intro t ht
        refine ih _ fun {p ls} hget => ?_
        rw [fileLiteral, Table.get?_insert] at hget
        split at hget
        · cases hget
          exact List.append_ne_nil_of_right_ne_nil _ (List.cons_ne_nil _ _)
        · exact ht hget
  refine hfold _ {} (fun {p ls} hget => ?_) h
  cases hget

/-- What is listed under a functor are the listed literals that have it, if there are any. -/
theorem get?_literals_eq_some_iff {g : BeliefGraph} {v : ViewId} {p : Path} {ls : List Literal} :
    (g.literals v).get? p = some ls ↔
      ls ≠ [] ∧ ls = (g.literalsFrom .empty v).filter (·.functor.path = p) := by
  have hgroup := (g.files_literals v).group p
  constructor
  · intro hget
    rw [hget] at hgroup
    exact ⟨ne_nil_of_get?_literals hget, hgroup⟩
  · rintro ⟨hne, hls⟩
    rw [← hls] at hgroup
    cases hget : (g.literals v).get? p with
    | none =>
        rw [hget] at hgroup
        exact absurd hgroup.symm hne
    | some found =>
        rw [hget] at hgroup
        exact congrArg some hgroup

theorem get?_literals_empty (g : BeliefGraph) (v : ViewId) : (g.literals v).get? .empty = none := by
  cases hget : (g.literals v).get? .empty with
  | none => rfl
  | some ls =>
      obtain ⟨hne, hls⟩ := get?_literals_eq_some_iff.1 hget
      refine absurd (hls.trans (List.filter_eq_nil_iff.2 fun l _ => ?_)) hne
      simp [Symbol.path, Path.empty]

theorem under_leafLiteral (f : Symbol) (content : Document) :
    (leafLiteral ⟨.empty, f.name⟩ content).under f.view = leafLiteral f content :=
  congrArg (fun view => leafLiteral ⟨view, f.name⟩ content) (Path.append_empty f.view)

/-! ## Views in any graph -/

theorem sound_alone (name : String) (entries : List (String × Document)) :
    (alone name entries).Sound :=
  (Built.ofDocument name (.object entries) .empty).sound

section Made

variable {entries : List (String × Document)} (hordered : (Document.object entries).Ordered)
  (g : BeliefGraph) (name : String)

include hordered

omit g in
theorem root_lt_alone : root < (alone name entries).size :=
  (depicts_alone name hordered).tree.tree.root_lt

theorem literals_ofDocument :
    (g.ofDocument name (.object entries)).1.literals (g.ofDocument name (.object entries)).2 =
      (alone name entries).literals root := by
  rw [g.ofDocument_eq_beside]
  exact g.literals_beside (sound_alone name _) (root_lt_alone hordered name)

theorem keys_viewsBelow_ofDocument :
    ((g.ofDocument name (.object entries)).1.viewsBelow
      (g.ofDocument name (.object entries)).2).keys =
      ((alone name entries).viewsBelow root).keys := by
  rw [g.ofDocument_eq_beside]
  refine (congrArg Table.keys (g.viewsBelow_beside (sound_alone name _)
    (root_lt_alone hordered name))).trans ?_
  exact Table.keys_mapValues _ _

end Made

theorem containsLiteral_ofDocument (g : BeliefGraph) (name : String)
    (entries : List (String × Document)) (heap : Heap) (l : Literal) :
    (g.ofDocument name (.object entries)).1.containsLiteral heap
      (g.ofDocument name (.object entries)).2 l =
      (alone name entries).containsLiteral heap root l := by
  rw [g.ofDocument_eq_beside]
  exact g.containsLiteral_beside _ heap root l

/-! ## Plain documents -/

section Plain

variable {entries : List (String × Document)} (hordered : (Document.object entries).Ordered)
  (hplain : (Document.object entries).Plain) (name : String)

include hordered hplain

theorem orderly_alone : (alone name entries).Orderly :=
  every_alone View.kept_orderly name hordered (hplain.mono fun _ hkey => hkey.1)

/-- A bucket holds the literal for the entry that its name leads to, and no other. -/
theorem heldAt_alone (f : Symbol) :
    (alone name entries).heldAt f.view.segments ⟨false, f.name⟩ =
      (((Document.object entries).leafAt? f.path.segments).map
        (leafLiteral ⟨.empty, f.name⟩)).toList := by
  have hdepicts := depicts_alone name hordered
  have hmem := fun l => (hdepicts.held f.view.segments ⟨false, f.name⟩ l).trans hplain.states_iff
  have hnodup := hdepicts.tree.distinct f.view.segments ⟨false, f.name⟩
  rw [Symbol.path]
  cases hleaf : (Document.object entries).leafAt? (f.view.segments ++ [f.name]) with
  | none =>
      refine List.eq_nil_iff_forall_not_mem.2 fun l hl => ?_
      obtain ⟨content, hcontent, -⟩ := (hmem l).1 hl
      rw [hleaf] at hcontent
      cases hcontent
  | some content =>
      refine List.perm_singleton.1 ((List.perm_ext_iff_of_nodup hnodup
        (List.nodup_singleton _)).2 fun l => ?_)
      rw [hmem, hleaf, List.mem_singleton]
      constructor
      · rintro ⟨found, hfound, rfl⟩
        cases hfound
        rfl
      · rintro rfl
        exact ⟨content, rfl, rfl⟩

theorem negated_of_mem_literalsFrom_alone {l : Literal}
    (hl : l ∈ (alone name entries).literalsFrom .empty root) :
    l.negated = false := by
  have hdepicts := depicts_alone name hordered
  have horderly := orderly_alone hordered hplain name
  obtain ⟨way, bucket, kept, hkept, rfl⟩ := (mem_literalsFrom_root
    (fun v => ⟨(horderly v).children, (horderly v).buckets⟩) (sound_alone name _)
    (root_lt_alone hordered name) l).1 hl
  obtain ⟨-, content, rfl⟩ := hdepicts.tree.leaf hkept
  rfl

/-- The literals with a functor are those of one bucket. -/
theorem filter_literalsFrom_alone (f : Symbol) :
    ((alone name entries).literalsFrom .empty root).filter (·.functor.path = f.path) =
      (((Document.object entries).leafAt? f.path.segments).map (leafLiteral f)).toList := by
  have hparent : f.path.parent = f.view := congrArg Path.mk List.dropLast_concat
  have hlast : f.path.last = f.name := List.getLastD_concat
  have hmatching := (orderly_alone hordered hplain name).matching_eq
    (sound_alone name _) (root_lt_alone hordered name) false f.path
  rw [List.filter_eq_self.2 fun l hl => decide_eq_true
      (negated_of_mem_literalsFrom_alone hordered hplain name (List.mem_filter.1 hl).1),
    BeliefGraph.matching_eq, hparent, hlast, heldAt_alone hordered hplain name f] at hmatching
  rw [← hmatching]
  cases (Document.object entries).leafAt? f.path.segments with
  | none => rfl
  | some content => exact congrArg (fun l => [l]) (under_leafLiteral f content)

/-- What the view of a document lists under a functor. -/
theorem get?_literals_alone (f : Symbol) :
    ((alone name entries).literals root).get? f.path =
      ((Document.object entries).leafAt? f.path.segments).map fun content =>
        [leafLiteral f content] := by
  refine Option.ext fun ls => ?_
  rw [get?_literals_eq_some_iff, filter_literalsFrom_alone hordered hplain name f]
  cases (Document.object entries).leafAt? f.path.segments with
  | none => exact ⟨fun hls => absurd hls.2 hls.1, fun hls => nomatch hls⟩
  | some content =>
      constructor
      · rintro ⟨-, rfl⟩
        rfl
      · rintro ⟨⟩
        exact ⟨List.cons_ne_nil _ _, rfl⟩

theorem mem_keys_viewsBelow_alone (p : Path) :
    p ∈ ((alone name entries).viewsBelow root).keys ↔
      p.isEmpty = false ∧ ∃ inner, (Document.object entries).walk? p.segments =
        some (.object inner) := by
  have hdepicts := depicts_alone name hordered
  rw [Table.mem_keys_iff, (orderly_alone hordered hplain name).get?_viewsBelow
    (sound_alone name _) (root_lt_alone hordered name), below?]
  cases p.isEmpty with
  | true => simp
  | false => simp [hdepicts.views, hplain.opens_iff]

theorem get?_literals_of_made {g made : BeliefGraph} {v : ViewId} {name : String}
    (hmade : g.ofDocument name (.object entries) = (made, v)) (f : Symbol) :
    (made.literals v).get? f.path =
      ((Document.object entries).leafAt? f.path.segments).map fun content =>
        [leafLiteral f content] := by
  have hliterals := literals_ofDocument hordered g name
  rw [hmade] at hliterals
  rw [hliterals]
  exact get?_literals_alone hordered hplain name f

end Plain

/--
A document whose keys read back as themselves becomes exactly its leaves.  Under a
path the view lists one literal when the path leads from key to key to an array or a
scalar, and none otherwise; its views are at the paths that lead to objects.
-/
theorem plain_document_becomes_leaves {g made : BeliefGraph} {v : ViewId} {name : String}
    {entries : List (String × Document)} (hordered : (Document.object entries).Ordered)
    (hplain : (Document.object entries).Plain)
    (hmade : g.ofDocument name (.object entries) = (made, v)) :
    (∀ p ls, (made.literals v).get? p = some ls ↔
      ∃ f content, f.path = p ∧ (Document.object entries).walk? p.segments = some content ∧
        content.isObject = false ∧ ls = [⟨f, leafArguments content, [], false, false⟩]) ∧
      ∀ p, p ∈ (made.viewsBelow v).keys ↔
        p.isEmpty = false ∧
          ∃ inner, (Document.object entries).walk? p.segments = some (.object inner) := by
  have hget := get?_literals_of_made hordered hplain hmade
  have hviews := keys_viewsBelow_ofDocument hordered g name
  rw [hmade] at hviews
  rw [hviews]
  refine ⟨fun p ls => ?_, mem_keys_viewsBelow_alone hordered hplain name⟩
  constructor
  · intro hls
    induction p using Symbol.path_cases with
    | empty =>
        rw [get?_literals_empty] at hls
        cases hls
    | functor f =>
        rw [hget, Option.map_eq_some_iff] at hls
        obtain ⟨content, hcontent, rfl⟩ := hls
        obtain ⟨hthere, hleaf⟩ := Document.leafAt?_eq_some_iff.1 hcontent
        exact ⟨f, content, rfl, hthere, hleaf, rfl⟩
  · rintro ⟨f, content, rfl, hthere, hleaf, rfl⟩
    rw [hget, Document.leafAt?_eq_some_iff.2 ⟨hthere, hleaf⟩]
    rfl

/-- An object with an object, which holds an array and an empty object, and with a number. -/
def nested : List (String × Document) :=
  [("a", .object [("b", .array [.int 1, .bool true]), ("c", .object [])]), ("n", .int 3)]

theorem ordered_nested : (Document.object nested).Ordered := by
  have hnormal : (Document.object nested).normalize = .object nested := by rfl
  rw [← hnormal]
  exact Document.ordered_normalize _

theorem plain_nested : (Document.object nested).Plain := by
  have hinner : (Document.object [("b", .array [.int 1, .bool true]), ("c", .object [])]).Plain :=
    Document.Keyed.cons (by decide) (Document.keyed_of_not_isObject rfl)
      (Document.Keyed.cons (by decide) (Document.keyed_nil _) (Document.keyed_nil _))
  exact Document.Keyed.cons (by decide) hinner
    (Document.Keyed.cons (by decide) (Document.keyed_of_not_isObject rfl) (Document.keyed_nil _))

/-- The array becomes a literal with two arguments, and neither object becomes one. -/
theorem plain_document_becomes_leaves_nested :
    (Document.object nested).Ordered ∧ (Document.object nested).Plain ∧
      ((({} : BeliefGraph).ofDocument "d" (.object nested)).1.literals root).get? ⟨["a", "b"]⟩ =
        some [⟨⟨⟨["a"]⟩, "b"⟩, [.raw (.int 1), .raw (.bool true)], [], false, false⟩] ∧
      ((({} : BeliefGraph).ofDocument "d" (.object nested)).1.literals root).get? ⟨["a"]⟩ = none ∧
      ⟨["a", "c"]⟩ ∈
        ((({} : BeliefGraph).ofDocument "d" (.object nested)).1.viewsBelow root).keys := by
  have hmade : ({} : BeliefGraph).ofDocument "d" (.object nested) =
      ((({} : BeliefGraph).ofDocument "d" (.object nested)).1, root) := by
    rw [ofDocument_object]
    rfl
  obtain ⟨hliterals, hviews⟩ := plain_document_becomes_leaves ordered_nested plain_nested hmade
  refine ⟨ordered_nested, plain_nested, ?_, ?_, ?_⟩
  · exact (hliterals _ _).2 ⟨⟨⟨["a"]⟩, "b"⟩, .array [.int 1, .bool true], rfl, rfl, rfl, rfl⟩
  · refine Option.eq_none_iff_forall_ne_some.2 fun ls hls => ?_
    obtain ⟨f, content, -, hthere, hleaf, -⟩ := (hliterals _ _).1 hls
    cases hthere
    cases hleaf
  · exact (hviews _).2 ⟨rfl, [], rfl⟩

/-! ## All documents -/

/-- An array or a scalar is kept without a path, and has the path of its view when it is read. -/
theorem under_leafLiteral_append {f : Symbol} (hview : "" ∉ f.view.segments) (chain : List String)
    (content : Document) :
    (leafLiteral ⟨.empty, f.name⟩ content).under (.ofSegments (chain ++ f.view.segments)) =
      (leafLiteral f content).under (.ofSegments chain) := by
  have hkeep : f.view.segments.filter (· ≠ "") = f.view.segments :=
    List.filter_eq_self.2 fun segment hsegment =>
      decide_eq_true (ne_of_mem_of_not_mem hsegment hview)
  refine congrArg (fun view => leafLiteral ⟨view, f.name⟩ content) (congrArg Path.mk ?_)
  rw [Path.ofSegments, List.filter_append, hkeep]
  exact List.append_nil _

section All

variable {entries : List (String × Document)} (hordered : (Document.object entries).Ordered)
  (name : String)

include hordered

theorem mem_literalsFrom_alone (l : Literal) :
    l ∈ (alone name entries).literalsFrom .empty root ↔
      ∃ chain key content f, (Document.object entries).Survives chain key content f ∧
        l = (leafLiteral f content).under (.ofSegments chain) := by
  have hdepicts := depicts_alone name hordered
  have htidy := every_alone View.kept_tidy name hordered fun _ _ _ _ _ => trivial
  rw [mem_literalsFrom_root htidy (sound_alone name _) (root_lt_alone hordered name)]
  constructor
  · rintro ⟨way, bucket, kept, hkept, rfl⟩
    obtain ⟨chain, key, content, f, hstays, rfl, -, rfl⟩ := (hdepicts.held way bucket kept).1 hkept
    have hview := Symbol.empty_not_mem_view hstays.functor
    exact ⟨chain, key, content, f, hstays, under_leafLiteral_append hview chain content⟩
  · rintro ⟨chain, key, content, f, hstays, rfl⟩
    have hview := Symbol.empty_not_mem_view hstays.functor
    refine ⟨chain ++ f.view.segments, ⟨false, f.name⟩, leafLiteral ⟨.empty, f.name⟩ content, ?_,
      (under_leafLiteral_append hview chain content).symm⟩
    exact (hdepicts.held _ _ _).2 ⟨chain, key, content, f, hstays, rfl, rfl, rfl⟩

/-- An array or a scalar is found when it stays at the end of a way that has no empty name. -/
theorem containsLiteral_leafLiteral_iff (heap : Heap) {f : Symbol} (hname : Path.IsSegment f.name)
    (hview : "" ∉ f.view.segments) (content : Document) :
    (alone name entries).containsLiteral heap root (leafLiteral f content) = true ↔
      ∃ chain key found inner, "" ∉ chain ∧
        (Document.object entries).Survives chain key found inner ∧
        leafLiteral f content = (leafLiteral inner found).under ⟨chain⟩ := by
  have hdepicts := depicts_alone name hordered
  rw [hdepicts.tree.contains_leafLiteral hname content heap, hdepicts.held]
  constructor
  · rintro ⟨chain, key, found, inner, hstays, hway, hbucket, hsame⟩
    refine ⟨chain, key, found, inner, fun hmem => hview ?_, hstays, ?_⟩
    · rw [hway]
      exact List.mem_append_left _ hmem
    · have hfunctor : f = ⟨⟨chain⟩ ++ inner.view, inner.name⟩ := by
        obtain ⟨⟨segments⟩, last⟩ := f
        cases hbucket
        cases hway
        rfl
      have harguments : leafArguments content = leafArguments found :=
        congrArg Literal.arguments hsame
      rw [leafLiteral, harguments, hfunctor]
      rfl
  · rintro ⟨chain, key, found, inner, -, hstays, hsame⟩
    obtain ⟨rfl, harguments, -⟩ := Literal.mk.inj hsame
    refine ⟨chain, key, found, inner, hstays, rfl, rfl, ?_⟩
    exact congrArg (fun arguments => Literal.mk ⟨.empty, inner.name⟩ arguments [] false false)
      harguments

end All

/--
The view of an object lists the literals of the entries that stay.  It finds such a
literal exactly when an entry with this literal stays on a way without an empty key.
-/
theorem surviving_entries_listed {g made : BeliefGraph} {v : ViewId} {name : String}
    {entries : List (String × Document)} (hordered : (Document.object entries).Ordered)
    (hmade : g.ofDocument name (.object entries) = (made, v)) :
    (∀ l, l ∈ made.listed v ↔
      ∃ chain key content f, (Document.object entries).Survives chain key content f ∧
        l = (leafLiteral f content).under (.ofSegments chain)) ∧
      ∀ heap, ∀ l ∈ made.listed v, made.containsLiteral heap v l = true ↔
        ∃ chain key content f, "" ∉ chain ∧
          (Document.object entries).Survives chain key content f ∧
          l = (leafLiteral f content).under ⟨chain⟩ := by
  have hlisted : ∀ l, l ∈ made.listed v ↔
      ∃ chain key content f, (Document.object entries).Survives chain key content f ∧
        l = (leafLiteral f content).under (.ofSegments chain) := by
    intro l
    have hliterals := literals_ofDocument hordered g name
    rw [hmade] at hliterals
    rw [listed, hliterals, ← listed, (listed_perm _ root).mem_iff]
    exact mem_literalsFrom_alone hordered name l
  refine ⟨hlisted, fun heap l hl => ?_⟩
  obtain ⟨chain, key, content, f, hstays, rfl⟩ := (hlisted l).1 hl
  have hcontains := containsLiteral_ofDocument g name entries heap
    ((leafLiteral f content).under (.ofSegments chain))
  rw [hmade] at hcontains
  rw [hcontains]
  have hname := Symbol.isSegment_name hstays.functor
  refine containsLiteral_leafLiteral_iff hordered name heap
    (f := ⟨.ofSegments chain ++ f.view, f.name⟩) hname ?_ content
  intro hmem
  rcases List.mem_append.1 hmem with hchain | hview
  · simpa using (List.mem_filter.1 hchain).2
  · exact Symbol.empty_not_mem_view hstays.functor hview

/-- The object under `a` takes the place of the view that the key before it has opened. -/
def covered : List (String × Document) := [("/a/x", .int 1), ("a", .object [])]

/-- No functor leads to the view of the object under the empty key. -/
def unnamed : List (String × Document) := [("", .object [("x", .int 1)])]

/-- An entry with a proper functor is not listed, and a literal that is listed is not found. -/
theorem entry_lost_and_entry_hidden :
    ((Document.object covered).normalize = .object covered ∧
      (Document.object covered).walk? ["/a/x"] = some (.int 1) ∧
      Symbol.ofPath? (Path.parse "/a/x") = some ⟨⟨["a"]⟩, "x"⟩ ∧
      (({} : BeliefGraph).ofDocument "n" (.object covered)).1.listed root = []) ∧
      (Document.object unnamed).normalize = .object unnamed ∧
      (({} : BeliefGraph).ofDocument "n" (.object unnamed)).1.listed root =
        [⟨⟨.empty, "x"⟩, [.raw (.int 1)], [], false, false⟩] ∧
      (({} : BeliefGraph).ofDocument "n" (.object unnamed)).1.containsLiteral {} root
        ⟨⟨.empty, "x"⟩, [.raw (.int 1)], [], false, false⟩ = false := by
  have hunnamed : (({} : BeliefGraph).ofDocument "n" (.object unnamed)).1 =
      ((((({} : BeliefGraph).create "n").1.create "").1.addLeaf 1 "x" (.int 1)).attach
        root "" 1) := by
    rw [ofDocument_object, unnamed, addEntries_cons_object, addEntries_cons_leaf rfl,
      addEntries_nil, addEntries_nil]
    rfl
  refine ⟨⟨rfl, rfl, by decide, ?_⟩, rfl, ?_, ?_⟩
  · rw [ofDocument_object, covered, addEntries_cons_leaf rfl, addEntries_cons_object,
      addEntries_nil, addEntries_nil]
    rfl
  · rw [hunnamed]
    rfl
  · rw [hunnamed]
    rfl

/-- In one object: an entry that is hidden, one that is lost, and one that is listed and found. -/
def mixed : List (String × Document) :=
  [("", .object [("x", .int 1)]), ("/a/x", .int 1), ("a", .object [("y", .int 2)])]

theorem surviving_entries_listed_mixed :
    (Document.object mixed).Ordered ∧
      ∃ made v, ({} : BeliefGraph).ofDocument "n" (.object mixed) = (made, v) ∧
        leafLiteral ⟨.empty, "x"⟩ (.int 1) ∈ made.listed v ∧
        leafLiteral ⟨⟨["a"]⟩, "y"⟩ (.int 2) ∈ made.listed v ∧
        made.containsLiteral {} v (leafLiteral ⟨⟨["a"]⟩, "y"⟩ (.int 2)) = true := by
  have hordered : (Document.object mixed).Ordered :=
    Document.ordered_normalize (.object mixed)
  have hx : (Document.object mixed).Survives [""] "x" (.int 1) ⟨.empty, "x"⟩ :=
    ⟨rfl, rfl, by decide, fun first inner hhead => nomatch hhead⟩
  have hy : (Document.object mixed).Survives ["a"] "y" (.int 2) ⟨.empty, "y"⟩ :=
    ⟨rfl, rfl, by decide, fun first inner hhead => nomatch hhead⟩
  obtain ⟨hlisted, hfound⟩ := surviving_entries_listed hordered
    (show ({} : BeliefGraph).ofDocument "n" _ = _ from rfl)
  have hmem := (hlisted _).2 ⟨_, _, _, _, hy, rfl⟩
  refine ⟨hordered, _, _, rfl, (hlisted _).2 ⟨_, _, _, _, hx, rfl⟩, hmem, ?_⟩
  exact (hfound {} _ hmem).2 ⟨_, _, _, _, by decide, hy, rfl⟩

end BeliefGraph

end Deliberation
