import Mathlib.Data.List.Flatten
import Quell.Proofs.Document.Preserve

/-!
The edits of which a call consists, as far as they concern the tree.

A `Move` changes comments, puts a placeholder into a block, cuts a text, or puts a markup comment
among the children of an element. It keeps a regular tree regular (`Move.tree`), and it says what
stands for every node afterwards (`Move.renders`): the node itself, or the fragments of a text.
Both go from one move to any number of them.
-/
namespace Quell.Document

open Text Relation

inductive Move (doc : Document) : Document → Prop where
  | remark {id : NodeId} {slot : Slot} {cs : List Comment} : doc.Reaches id →
      Move doc (doc.update id (·.setComments slot cs))
  | fill {block : NodeId} : doc.Reaches block → doc.kind block = .block →
      Move doc (doc.addPlaceholder block).1
  | cut {doc' : Document} {p o id : NodeId} {X Y closing : List NodeId} {parts : List Text} :
      doc.Reaches p → (doc.kind p).hasMarkupChildren = true →
      doc.Tagged p o (X ++ [id] ++ Y) closing →
      doc.Recut doc' p (o :: X) id (Y ++ closing) parts → Move doc doc'
  | note {doc' : Document} {p o : NodeId} {X Y closing : List NodeId} {lead : Option Text}
      {body gap : Text} : doc.Reaches p → (doc.kind p).hasMarkupChildren = true →
      doc.Tagged p o (X ++ Y) closing →
      doc.Noted doc' p (o :: X) (Y ++ closing) lead body gap → Move doc doc'

abbrev Moves : Document → Document → Prop := ReflTransGen Move

section Shape

variable {doc doc' : Document} {p o id : NodeId} {A C X Y closing : List NodeId}

theorem RegularTree.setComments (tree : doc.RegularTree) (id : NodeId) (slot : Slot)
    (cs : List Comment) : (doc.update id (·.setComments slot cs)).RegularTree := by
  have same := @tree_setComments doc id slot cs
  exact tree.of_same (size_update ..) same
    (tree.linked.of_same (fun j => (same j).2.2.1) fun j => (same j).2.2.2)
    (reaches_of_same fun j => (same j).2.2.1).mp

theorem Recut.standsIn {parts : List Text} (recut : doc.Recut doc' p A id C parts)
    (regular : doc.Regular id) :
    doc.StandsIn doc' [id] (List.range' doc.nodes.size parts.length) := by
  intro n hn t ht
  obtain ⟨i, u, -, found, node⟩ := recut.mem_part hn
  unfold Document.span at ht
  rw [node] at ht
  obtain ⟨s, hs, rfl⟩ := Option.map_eq_some_iff.mp ht
  have room := regular.fits _ s recut.value hs
  rw [flatten_around found] at room
  simp only [bytes_append] at room
  refine ⟨id, by simp, s, hs, Nat.le_add_right _ _, ?_⟩
  show s.lo + bytes (parts.take i).flatten + bytes u ≤ s.hi
  omega

theorem RegularTree.recut {parts : List Text} (tree : doc.RegularTree) (reached : doc.Reaches p)
    (markup : (doc.kind p).hasMarkupChildren = true)
    (tagged : doc.Tagged p o (X ++ [id] ++ Y) closing)
    (recut : doc.Recut doc' p (o :: X) id (Y ++ closing) parts) : doc'.RegularTree := by
  have hold : doc.Holds p id := recut.splice.holds_of_mem (by simp)
  have inside := recut.standsIn (tree.regular id (reached.child hold))
  have text : ∀ n ∈ List.range' doc.nodes.size parts.length, ∃ t, doc'.kind n = .text t ∧
      doc'.children n = [] ∧ ∀ s, doc'.span n = some s → s.hi = s.lo + bytes t := by
    intro n hn
    obtain ⟨i, t, -, -, node⟩ := recut.mem_part hn
    unfold kind children Document.span
    rw [node]
    refine ⟨t, rfl, rfl, fun s hs => ?_⟩
    obtain ⟨r, -, rfl⟩ := Option.map_eq_some_iff.mp hs
    rfl
  have plain : ∀ n ∈ List.range' doc.nodes.size parts.length,
      doc'.kind n ≠ .openingTag ∧ doc'.kind n ≠ .closingTag := by
    intro n hn
    obtain ⟨t, kind, -⟩ := text n hn
    rw [kind]
    exact ⟨nofun, nofun⟩
  refine tree.splice recut.splice (recut.splice.shaped_here tree reached (.inr markup)
    (fun _ => ⟨_, _, _, tagged.splice tree.linked rfl recut.splice plain⟩) inside recut.sorted) ?_
  intro j ge lt
  rw [recut.size] at lt
  obtain ⟨t, kind, leaf, span⟩ := text j (List.mem_range'_1.mpr ⟨ge, lt⟩)
  refine ⟨shaped_of_leaf leaf ?_, regular_of_leaf leaf (fun s hs => ?_) fun u s hu hs => ?_⟩
  · rw [kind]
    exact ⟨nofun, nofun, rfl⟩
  · rw [span s hs]
    exact Nat.le_add_right _ _
  · unfold text? at hu
    rw [kind] at hu
    cases hu
    exact Nat.le_of_eq (span s hs).symm

theorem Noted.new_cases {lead : Option Text} {body gap : Text}
    (noted : doc.Noted doc' p A C lead body gap) {j : Nat} (ge : doc.nodes.size ≤ j)
    (lt : j < doc'.nodes.size) : j = doc.nodes.size ∨ j = doc.nodes.size + 1 ∨
      ∃ t, doc'.node j = { kind := .text t, span := none, parent := some p } := by
  rw [noted.size] at lt
  have behind := noted.behind
  cases lead with
  | none =>
    simp only [Option.toList_none, List.length_nil, Nat.add_zero] at lt behind
    have : j = doc.nodes.size ∨ j = doc.nodes.size + 1 ∨ j = doc.nodes.size + 2 := by omega
    rcases this with h | h | rfl
    · exact .inl h
    · exact .inr (.inl h)
    · exact .inr (.inr ⟨gap, behind⟩)
  | some u =>
    simp only [Option.toList_some, List.length_singleton] at lt behind
    have : j = doc.nodes.size ∨ j = doc.nodes.size + 1 ∨ j = doc.nodes.size + 2 ∨
        j = doc.nodes.size + 2 + 1 := by omega
    rcases this with h | h | rfl | rfl
    · exact .inl h
    · exact .inr (.inl h)
    · exact .inr (.inr ⟨u, noted.front u rfl⟩)
    · exact .inr (.inr ⟨gap, behind⟩)

theorem RegularTree.noted {lead : Option Text} {body gap : Text} (tree : doc.RegularTree)
    (reached : doc.Reaches p) (markup : (doc.kind p).hasMarkupChildren = true)
    (tagged : doc.Tagged p o (X ++ Y) closing)
    (noted : doc.Noted doc' p (o :: X) (Y ++ closing) lead body gap) : doc'.RegularTree := by
  have sorted : (noteIds doc.nodes.size lead).Pairwise fun a b =>
      ∀ s t, doc'.span a = some s → doc'.span b = some t → s.hi ≤ t.lo := by
    refine List.pairwise_of_forall_mem_list fun a ha b _ s t hs => ?_
    rw [noted.spanless ha] at hs
    cases hs
  have here : ∃ o items closing, doc'.Tagged p o items closing :=
    ⟨_, _, _, tagged.splice tree.linked (B := []) (by simp) noted.splice fun n => noted.plain⟩
  refine tree.splice noted.splice (noted.splice.shaped_here tree reached (.inr markup)
    (fun _ => here) (standsIn_of_spanless fun n => noted.spanless) sorted) ?_
  have slot_leaf : doc'.children (doc.nodes.size + 1) = [] := by
    unfold children
    rw [noted.slot]
  have slot_kind : doc'.kind (doc.nodes.size + 1) = .emptyHole := by unfold kind; rw [noted.slot]
  have slot_span : doc'.span (doc.nodes.size + 1) = none := by
    unfold Document.span
    rw [noted.slot]
  intro j ge lt
  rcases noted.new_cases ge lt with rfl | rfl | ⟨t, node⟩
  · have kids : doc'.children doc.nodes.size = [doc.nodes.size + 1] := by
      unfold children
      rw [noted.hole]
    have kind' : doc'.kind doc.nodes.size = .hole := by unfold kind; rw [noted.hole]
    have span' : doc'.span doc.nodes.size = none := by unfold Document.span; rw [noted.hole]
    refine ⟨⟨?_, ?_, fun _ => ⟨_, kids⟩, ?_, ?_⟩, ⟨?_, ?_, ?_, ?_⟩⟩
    · rw [kind']
      exact nofun
    · rw [kind']
      exact nofun
    · intro c s t _ hs
      rw [span'] at hs
      cases hs
    · rw [kids]
      exact List.pairwise_singleton _ _
    · rw [span']
      exact nofun
    · unfold text?
      rw [kind']
      exact nofun
    · rw [span']
      exact nofun
    · intro _ c hold
      unfold Holds at hold
      rw [kids] at hold
      rw [List.mem_singleton.mp hold, slot_span]
  · refine bare_leaf slot_leaf slot_span ?_
    rw [slot_kind]
    exact ⟨nofun, nofun, rfl⟩
  · refine bare_leaf ?_ ?_ ?_
    · unfold children
      rw [node]
    · unfold Document.span
      rw [node]
    · unfold kind
      rw [node]
      exact ⟨nofun, nofun, rfl⟩

theorem RegularTree.addPlaceholder {block : NodeId} (tree : doc.RegularTree)
    (reached : doc.Reaches block) (kind : doc.kind block = .block) :
    (doc.addPlaceholder block).1.RegularTree := by
  obtain ⟨splice, size, node⟩ :=
    addPlaceholder_spec (tree.linked.reaches_lt tree.root_lt reached)
  have leaf : (doc.addPlaceholder block).1.children doc.nodes.size = [] := by
    unfold children
    rw [node]
  have spanless : (doc.addPlaceholder block).1.span doc.nodes.size = none := by
    unfold Document.span
    rw [node]
  have kind' : (doc.addPlaceholder block).1.kind doc.nodes.size = .empty := by
    unfold Document.kind
    rw [node]
  refine tree.splice splice (splice.shaped_here tree reached (.inl kind) ?_
    (standsIn_of_spanless ?_) (List.pairwise_singleton _ _)) ?_
  · rw [kind]
    exact nofun
  · intro n hn
    rw [List.mem_singleton.mp hn, spanless]
  · intro j ge lt
    obtain rfl : j = doc.nodes.size := by omega
    refine bare_leaf leaf spanless ?_
    rw [kind']
    exact ⟨nofun, nofun, rfl⟩

theorem Move.tree (move : Move doc doc') (tree : doc.RegularTree) : doc'.RegularTree := by
  cases move with
  | remark reached => exact tree.setComments ..
  | fill reached kind => exact tree.addPlaceholder reached kind
  | cut reached markup tagged recut => exact tree.recut reached markup tagged recut
  | note reached markup tagged noted => exact tree.noted reached markup tagged noted

theorem Moves.tree (moves : Moves doc doc') (tree : doc.RegularTree) : doc'.RegularTree := by
  induction moves with
  | refl => exact tree
  | tail _ move ih => exact move.tree ih

end Shape

structure Fragments (doc doc' : Document) (id : NodeId) (fs : List NodeId) : Prop where
  value : ∃ parts : List Text, doc.text? id = some parts.flatten ∧
    fs.map doc'.text? = parts.map some
  fresh : ∀ f ∈ fs, doc.nodes.size ≤ f
  inside : doc.StandsIn doc' [id] fs

/-- What stands for each node that was reached: the node itself where it still is, and otherwise the
fragments of its text. In a child list new nodes without span may come in between, and nothing
else. -/
structure Renders (doc doc' : Document) (parts : NodeId → List NodeId) : Prop where
  content : ∀ id < doc.nodes.size, doc'.kind id = doc.kind id ∧ doc'.span id = doc.span id
  grows : doc.nodes.size ≤ doc'.nodes.size
  back : ∀ id < doc.nodes.size, doc'.Reaches id → doc.Reaches id
  kept : ∀ id, doc.Reaches id → doc'.Reaches id → parts id = [id]
  lost : ∀ id, doc.Reaches id → ¬ doc'.Reaches id → doc.Fragments doc' id (parts id)
  stands : ∀ id, doc.Reaches id → ∀ c ∈ parts id, doc'.Reaches c
  order : ∀ p, doc.Reaches p → doc'.Reaches p →
    ((doc.children p).flatMap parts).Sublist (doc'.children p)
  between : ∀ p, doc.Reaches p → doc'.Reaches p → ∀ c ∈ doc'.children p,
    c ∈ (doc.children p).flatMap parts ∨ doc.nodes.size ≤ c ∧ doc'.span c = none

section Renders

variable {doc mid doc' : Document}

/-- Where the tree is the same, every node stands for itself. -/
theorem Renders.of_same (size : doc'.nodes.size = doc.nodes.size)
    (content : ∀ j, doc'.kind j = doc.kind j ∧ doc'.span j = doc.span j)
    (children : ∀ j, doc'.children j = doc.children j) : doc.Renders doc' fun id => [id] := by
  have reach : ∀ {j}, doc'.Reaches j ↔ doc.Reaches j := reaches_of_same children
  refine ⟨fun id _ => content id, by rw [size], fun id _ => reach.mp, fun _ _ _ => rfl,
    fun id h gone => absurd (reach.mpr h) gone, fun id h c hc => ?_, fun p _ _ => ?_,
    fun p _ _ c hc => .inl ?_⟩
  · rw [List.mem_singleton.mp hc]
    exact reach.mpr h
  · rw [children, List.flatMap_singleton']
  · rw [children] at hc
    rwa [List.flatMap_singleton']

theorem flatMap_whole {B N xs : List NodeId} (out : ∀ x ∈ xs, x ∉ B) :
    xs.flatMap (fun id => if id ∈ B then N else [id]) = xs := by
  rw [List.flatMap_congr (g := fun id => [id]) fun x hx => if_neg (out x hx),
    List.flatMap_singleton']

theorem flatMap_around {A C N : List NodeId} {b : NodeId} (nodup : (A ++ [b] ++ C).Nodup) :
    (A ++ [b] ++ C).flatMap (fun id => if id ∈ [b] then N else [id]) = A ++ N ++ C := by
  have left := List.disjoint_of_nodup_append (List.nodup_append.mp nodup).1
  have right := List.disjoint_of_nodup_append nodup
  rw [List.flatMap_append, List.flatMap_append, flatMap_whole fun x hx hb => left hx hb,
    flatMap_whole fun x hx hb => right (List.mem_append_right _ hb) hx, List.flatMap_singleton,
    if_pos (List.mem_singleton_self b)]

theorem Splice.renders {p : NodeId} {A B N C : List NodeId} (splice : doc.Splice doc' p A B N C)
    (linked : doc.Linked) (root_lt : root < doc.nodes.size) (reached : doc.Reaches p)
    (place : B = [] ∧ (∀ n ∈ N, doc'.span n = none) ∨ ∃ b, B = [b] ∧ doc.Fragments doc' b N) :
    doc.Renders doc' fun id => if id ∈ B then N else [id] := by
  have inner : root ∉ B := fun hb => linked.not_below_of_holds (splice.holds_of_mem hb) reached
  have stay : ∀ {id}, doc.Reaches id → (doc'.Reaches id ↔ id ∉ B) := by
    refine fun h => ⟨fun h' hb => ?_, splice.reaches_kept linked h⟩
    exact (splice.reaches_old linked h' (linked.child_lt (splice.holds_of_mem hb))).2
      (fun e => inner (e ▸ hb)) hb
  have reached' : doc'.Reaches p := (stay reached).mpr (splice.not_mem_self linked)
  -- Around what leaves all children are whole.
  have here : (doc.children p).flatMap (fun id => if id ∈ B then N else [id]) =
      A ++ (if B = [] then [] else N) ++ C := by
    have nodup := linked.nodup p
    rw [splice.split] at nodup ⊢
    rcases place with ⟨rfl, -⟩ | ⟨b, rfl, -⟩
    · rw [flatMap_whole fun _ _ => List.not_mem_nil, if_pos rfl]
    · rw [flatMap_around nodup, if_neg (List.cons_ne_nil b [])]
  have away : ∀ {q}, q ≠ p → (doc.children q).flatMap (fun id => if id ∈ B then N else [id]) =
      doc.children q := fun ne => flatMap_whole fun x hx hb =>
    ne (linked.parent_unique hx (splice.holds_of_mem hb))
  refine ⟨fun id lt => ⟨(splice.content lt).1, (splice.content lt).2.1⟩, splice.grows,
    fun id lt h => (splice.reaches_old linked h lt).1, fun id h h' => if_neg ((stay h).mp h'), ?_, ?_,
    ?_, ?_⟩
  · intro id h gone
    have leaves : id ∈ B := by
      by_contra out
      exact gone ((stay h).mpr out)
    rw [if_pos leaves]
    rcases place with ⟨rfl, -⟩ | ⟨b, rfl, fragments⟩
    · cases leaves
    · rwa [List.mem_singleton.mp leaves]
  · intro id h c hc
    split at hc
    · refine reached'.child ?_
      unfold Holds
      rw [splice.children_here]
      simp [hc]
    · rw [List.mem_singleton.mp hc]
      exact (stay h).mpr ‹_›
  · intro q hq hq'
    by_cases same : q = p
    · subst same
      rw [here, splice.children_here]
      refine List.Sublist.append (List.Sublist.append (List.Sublist.refl A) ?_) (List.Sublist.refl C)
      split
      · exact List.nil_sublist N
      · exact List.Sublist.refl N
    · rw [away same, splice.children_rest (linked.reaches_lt root_lt hq) same]
  · intro q hq hq' c hc
    by_cases same : q = p
    · subst same
      rw [splice.children_here] at hc
      rw [here]
      rcases place with ⟨rfl, spanless⟩ | ⟨b, rfl, -⟩
      · by_cases new : c ∈ N
        · exact .inr ⟨(splice.fresh c new).1, spanless c new⟩
        · refine .inl ?_
          simp only [List.mem_append] at hc ⊢
          tauto
      · exact .inl hc
    · rw [away same]
      rw [splice.children_rest (linked.reaches_lt root_lt hq) same] at hc
      exact .inl hc

theorem texts_flatMap {g : NodeId → List NodeId} {fs : List NodeId} {ts : List Text}
    (texts : fs.map mid.text? = ts.map some)
    (each : ∀ f ∈ fs, g f = [f] ∧ doc'.text? f = mid.text? f ∨ mid.Fragments doc' f (g f)) :
    ∃ parts : List Text, parts.flatten = ts.flatten ∧
      (fs.flatMap g).map doc'.text? = parts.map some := by
  induction fs generalizing ts with
  | nil =>
    refine ⟨ts, rfl, ?_⟩
    rwa [List.flatMap_nil]
  | cons f fs ih =>
    cases ts with
    | nil => cases texts
    | cons t ts =>
      rw [List.map_cons, List.map_cons, List.cons.injEq] at texts
      obtain ⟨parts, joined, rest⟩ := ih texts.2 fun x hx => each x (by simp [hx])
      rw [List.flatMap_cons, List.map_append, rest]
      rcases each f (by simp) with ⟨whole, same⟩ | ⟨⟨pieces, value, split⟩, -, -⟩
      · refine ⟨t :: parts, by simp [joined], ?_⟩
        rw [whole, List.map_singleton, same, texts.1]
        rfl
      · cases texts.1.symm.trans value
        refine ⟨pieces ++ parts, by simp [joined], ?_⟩
        rw [split, List.map_append]

theorem StandsIn.trans {xs ys zs : List NodeId} (first : doc.StandsIn mid xs ys)
    (second : mid.StandsIn doc' ys zs) : doc.StandsIn doc' xs zs := by
  intro n hn t ht
  obtain ⟨y, hy, u, hu, lo, hi⟩ := second n hn t ht
  obtain ⟨x, hx, s, hs, lo', hi'⟩ := first y hy u hu
  exact ⟨x, hx, s, hs, Nat.le_trans lo' lo, Nat.le_trans hi hi'⟩

/-- One after the other: what stands for the nodes that stand for a node. -/
theorem Renders.trans {f g : NodeId → List NodeId} (first : doc.Renders mid f)
    (second : mid.Renders doc' g) (lt : ∀ id, doc.Reaches id → id < doc.nodes.size)
    (lt_mid : ∀ id, mid.Reaches id → id < mid.nodes.size) :
    doc.Renders doc' fun id => (f id).flatMap g := by
  have through : ∀ {id}, doc.Reaches id → doc'.Reaches id → mid.Reaches id := fun h h' =>
    second.back _ (Nat.lt_of_lt_of_le (lt _ h) first.grows) h'
  have text_mid : ∀ id < mid.nodes.size, doc'.text? id = mid.text? id := fun id h => by
    unfold text?
    rw [(second.content id h).1]
  -- A node that stands for another one stays or is cut in its turn.
  have each : ∀ {c}, mid.Reaches c →
      g c = [c] ∧ doc'.text? c = mid.text? c ∨ mid.Fragments doc' c (g c) := by
    intro c h
    by_cases h' : doc'.Reaches c
    · exact .inl ⟨second.kept c h h', text_mid c (lt_mid c h)⟩
    · exact .inr (second.lost c h h')
  have inside : ∀ {c}, mid.Reaches c → mid.StandsIn doc' [c] (g c) := by
    intro c h n hn t ht
    by_cases h' : doc'.Reaches c
    · rw [second.kept c h h'] at hn
      rw [List.mem_singleton.mp hn, (second.content c (lt_mid c h)).2] at ht
      exact ⟨c, by simp, t, ht, Nat.le_refl _, Nat.le_refl _⟩
    · exact (second.lost c h h').inside n hn t ht
  have newer : ∀ {c}, mid.Reaches c → doc.nodes.size ≤ c → ∀ d ∈ g c, doc.nodes.size ≤ d := by
    intro c h new d hd
    by_cases h' : doc'.Reaches c
    · rw [second.kept c h h'] at hd
      rwa [List.mem_singleton.mp hd]
    · exact Nat.le_trans first.grows ((second.lost c h h').fresh d hd)
  refine ⟨fun id h => ?_, Nat.le_trans first.grows second.grows, fun id h h' => ?_,
    fun id h h' => ?_, fun id h gone => ?_, fun id h c hc => ?_, fun p h h' => ?_,
    fun p h h' c hc => ?_⟩
  · obtain ⟨kind, span⟩ := first.content id h
    obtain ⟨kind', span'⟩ := second.content id (Nat.lt_of_lt_of_le h first.grows)
    exact ⟨kind'.trans kind, span'.trans span⟩
  · exact first.back id h (second.back id (Nat.lt_of_lt_of_le h first.grows) h')
  · rw [first.kept id h (through h h'), List.flatMap_singleton, second.kept id (through h h') h']
  · have stands := first.stands id h
    by_cases kept : mid.Reaches id
    · obtain ⟨kind, span⟩ := first.content id (lt id h)
      obtain ⟨⟨parts, value, split⟩, fresh, within⟩ := second.lost id kept gone
      rw [first.kept id h kept, List.flatMap_singleton]
      refine ⟨⟨parts, ?_, split⟩, fun c hc => Nat.le_trans first.grows (fresh c hc), ?_⟩
      · rw [← value]
        unfold text?
        rw [kind]
      · intro n hn t ht
        obtain ⟨b, hb, s, hs, bounds⟩ := within n hn t ht
        rw [List.mem_singleton.mp hb, span] at hs
        exact ⟨id, by simp, s, hs, bounds⟩
    · obtain ⟨⟨ts, value, split⟩, fresh, within⟩ := first.lost id h kept
      obtain ⟨parts, joined, texts⟩ := texts_flatMap split fun c hc => each (stands c hc)
      refine ⟨⟨parts, by rw [joined, value], texts⟩, fun c hc => ?_, within.trans ?_⟩
      · obtain ⟨d, hd, hcd⟩ := List.mem_flatMap.mp hc
        exact newer (stands d hd) (fresh d hd) c hcd
      · intro n hn t ht
        obtain ⟨d, hd, hnd⟩ := List.mem_flatMap.mp hn
        obtain ⟨b, hb, s, hs, bounds⟩ := inside (stands d hd) n hnd t ht
        exact ⟨d, hd, s, List.mem_singleton.mp hb ▸ hs, bounds⟩
  · obtain ⟨d, hd, hcd⟩ := List.mem_flatMap.mp hc
    exact second.stands d (first.stands id h d hd) c hcd
  · rw [← List.flatMap_assoc]
    exact ((first.order p h (through h h')).flatMap g).trans (second.order p (through h h') h')
  · rw [← List.flatMap_assoc]
    have hm := through h h'
    rcases second.between p hm h' c hc with old | ⟨new, spanless⟩
    · obtain ⟨d, hd, hcd⟩ := List.mem_flatMap.mp old
      rcases first.between p h hm d hd with mem | ⟨new, spanless⟩
      · exact .inl (List.mem_flatMap.mpr ⟨d, mem, hcd⟩)
      · have reached := hm.child hd
        refine .inr ⟨newer reached new c hcd, ?_⟩
        cases ht : doc'.span c with
        | none => rfl
        | some t =>
          obtain ⟨b, hb, s, hs, -⟩ := inside reached c hcd t ht
          rw [List.mem_singleton.mp hb, spanless] at hs
          cases hs
    · exact .inr ⟨Nat.le_trans first.grows new, spanless⟩

theorem Move.renders (move : Move doc doc') (tree : doc.RegularTree) :
    ∃ parts, doc.Renders doc' parts := by
  have linked := tree.linked
  have root_lt := tree.root_lt
  cases move with
  | remark reached =>
    have same := @tree_setComments doc
    exact ⟨_, .of_same (size_update ..) (fun j => ⟨(same j).1, (same j).2.1⟩)
      fun j => (same j).2.2.1⟩
  | fill reached kind =>
    obtain ⟨splice, -, node⟩ := addPlaceholder_spec (linked.reaches_lt root_lt reached)
    refine ⟨_, splice.renders linked root_lt reached (.inl ⟨rfl, fun n hn => ?_⟩)⟩
    rw [List.mem_singleton.mp hn]
    unfold Document.span
    rw [node]
  | @cut _ p o id X Y closing parts reached markup tagged recut =>
    have hold : doc.Holds p id := recut.splice.holds_of_mem (by simp)
    refine ⟨_, recut.splice.renders linked root_lt reached (.inr ⟨id, rfl, ⟨parts, recut.value, ?_⟩,
      fun f hf => (recut.splice.fresh f hf).1, recut.standsIn (tree.regular id (reached.child hold))⟩)⟩
    apply List.ext_getElem?
    intro i
    rw [List.getElem?_map, List.getElem?_map]
    rcases Nat.lt_or_ge i parts.length with h | h
    · have found := List.getElem?_eq_getElem h
      rw [List.getElem?_range' h, found, Option.map_some, Nat.one_mul,
        text?_of_node (recut.part i _ found) rfl]
      rfl
    · rw [List.getElem?_eq_none h, List.getElem?_eq_none (by simpa using h)]
      rfl
  | note reached markup tagged noted =>
    exact ⟨_, noted.splice.renders linked root_lt reached (.inl ⟨rfl, fun n => noted.spanless⟩)⟩

theorem Moves.renders (moves : Moves doc doc') (tree : doc.RegularTree) :
    ∃ parts, doc.Renders doc' parts := by
  induction moves with
  | refl => exact ⟨_, .of_same rfl (fun _ => ⟨rfl, rfl⟩) fun _ => rfl⟩
  | tail moves move ih =>
    obtain ⟨f, first⟩ := ih
    have tree' := Moves.tree moves tree
    obtain ⟨g, second⟩ := move.renders tree'
    exact ⟨_, first.trans second (fun _ => tree.linked.reaches_lt tree.root_lt)
      fun _ => tree'.linked.reaches_lt tree'.root_lt⟩

end Renders

end Quell.Document
