import Quell.Proofs.Document.Nested
import Quell.Proofs.Document.Splice

/-!
The shape of a document: what its kinds and spans say about its child lists.

`Shaped` is the layout of the children of a node and the order of their spans, and `Regular` what has
to hold beside it for an edit to keep it: a text is a leaf that its span has room for, and what has
no span holds nothing with one. Neither mentions a source. Both look at a node and its children
alone, so a splice keeps them away from the child list that it changes.
-/
namespace Quell

theorem NodeKind.plain_of_place {kind : NodeKind}
    (place : kind = .block ∨ kind.hasMarkupChildren = true) :
    kind ≠ .conditional ∧ kind ≠ .hole ∧ kind.text? = none := by
  rcases place with rfl | markup
  · exact ⟨nofun, nofun, rfl⟩
  · cases kind <;> simp_all [hasMarkupChildren, text?]

namespace Document

open Text Relation

structure Tagged (doc : Document) (p o : NodeId) (items closing : List NodeId) : Prop where
  split : doc.children p = o :: (items ++ closing)
  opening : doc.kind o = .openingTag
  closing : closing = [] ∨ ∃ c, closing = [c] ∧ doc.kind c = .closingTag
  items : ∀ i ∈ items, doc.kind i ≠ .openingTag ∧ doc.kind i ≠ .closingTag

namespace Tagged

variable {doc : Document} {p o : NodeId} {items closing : List NodeId}
variable (tagged : doc.Tagged p o items closing)

include tagged

/-- Where the children of an element lie between its tags. -/
theorem markupRange (markup : (doc.kind p).hasMarkupChildren = true) :
    doc.markupRange p = some (1, 1 + items.length) := by
  unfold Document.markupRange
  rw [if_pos markup]
  dsimp only
  have first : (doc.children p).head?.map doc.kind = some .openingTag := by
    rw [tagged.split]
    simp [tagged.opening]
  have last : (doc.children p).getLast?.map doc.kind = some .closingTag ↔ closing ≠ [] := by
    rw [tagged.split]
    rcases tagged.closing with rfl | ⟨c, rfl, closes⟩
    · simp only [List.append_nil, ne_eq, not_true_eq_false, iff_false]
      rcases List.eq_nil_or_concat items with rfl | ⟨xs, x, rfl⟩
      · simp [tagged.opening]
      · have := (tagged.items x (by simp)).2
        simp [List.getLast?_cons, this]
    · rw [← List.cons_append, List.getLast?_concat]
      simp [closes]
  rw [if_pos first]
  have length : (doc.children p).length = 1 + items.length + closing.length := by
    rw [tagged.split]
    simp only [List.length_cons, List.length_append]
    omega
  rcases tagged.closing with h | ⟨c, h, -⟩
  · rw [if_neg (fun e => last.mp e h), length, h]
    simp
  · rw [if_pos (last.mpr (by simp [h])), length, h]
    simp

theorem mem_items {x : NodeId} (hold : doc.Holds p x)
    (plain : doc.kind x ≠ .openingTag ∧ doc.kind x ≠ .closingTag) : x ∈ items := by
  unfold Holds at hold
  rw [tagged.split] at hold
  simp only [List.mem_cons, List.mem_append] at hold
  rcases hold with rfl | h | h
  · exact absurd tagged.opening plain.1
  · exact h
  · rcases tagged.closing with rfl | ⟨c, rfl, closes⟩
    · cases h
    · rw [List.mem_singleton.mp h] at plain
      exact absurd closes plain.2

/-- Between the tags any children may come and go that are no tags. -/
theorem splice {doc' : Document} (linked : doc.Linked) {X B Y N : List NodeId}
    (split : items = X ++ B ++ Y)
    (splice : doc.Splice doc' p (o :: X) B N (Y ++ closing))
    (plain : ∀ n ∈ N, doc'.kind n ≠ .openingTag ∧ doc'.kind n ≠ .closingTag) :
    doc'.Tagged p o (X ++ N ++ Y) closing := by
  have kind : ∀ {c}, doc.Holds p c → doc'.kind c = doc.kind c := fun hold =>
    (splice.content (linked.child_lt hold)).1
  have held : ∀ {c}, c ∈ o :: (items ++ closing) → doc.Holds p c := fun h => by
    unfold Holds
    rwa [tagged.split]
  refine ⟨?_, ?_, ?_, ?_⟩
  · rw [splice.children_here]
    simp
  · rw [kind (held (by simp)), tagged.opening]
  · rcases tagged.closing with h | ⟨c, rfl, closes⟩
    · exact .inl h
    · exact .inr ⟨c, rfl, by rw [kind (held (by simp)), closes]⟩
  · intro i hi
    by_cases new : i ∈ N
    · exact plain i new
    · have old : i ∈ items := by
        rw [split]
        simp only [List.mem_append] at hi ⊢
        tauto
      rw [kind (held (by simp [old]))]
      exact tagged.items i old

end Tagged

structure Shaped (doc : Document) (id : NodeId) : Prop where
  conditional : doc.kind id = .conditional → ∃ test consequent, ∃ alternate : Option NodeId,
    doc.children id = test :: consequent :: alternate.toList
  markup : (doc.kind id).hasMarkupChildren = true → ∃ o items closing, doc.Tagged id o items closing
  hole : doc.kind id = .hole → ∃ c, doc.children id = [c]
  nested : ∀ c s t, doc.Holds id c → doc.span id = some s → doc.span c = some t →
    s.lo ≤ t.lo ∧ t.hi ≤ s.hi
  ordered : (doc.children id).Pairwise fun a b =>
    ∀ s t, doc.span a = some s → doc.span b = some t → s.hi ≤ t.lo

/-- Spans run forwards, texts are leaves that fit into their spans, and children have no span where
their parent has none. -/
structure Regular (doc : Document) (id : NodeId) : Prop where
  forward : ∀ s, doc.span id = some s → s.lo ≤ s.hi
  leaf : ∀ t, doc.text? id = some t → doc.children id = []
  fits : ∀ t s, doc.text? id = some t → doc.span id = some s → s.lo + bytes t ≤ s.hi
  ghost : doc.span id = none → ∀ c, doc.Holds id c → doc.span c = none

structure Tree (doc : Document) : Prop where
  linked : doc.Linked
  root_lt : root < doc.nodes.size
  shaped : ∀ id, doc.Reaches id → doc.Shaped id

/-- A tree that edits keep in shape. -/
structure RegularTree (doc : Document) : Prop extends doc.Tree where
  regular : ∀ id, doc.Reaches id → doc.Regular id

section Leaf

variable {doc : Document} {id : NodeId}

theorem shaped_of_leaf (leaf : doc.children id = [])
    (kind : doc.kind id ≠ .conditional ∧ doc.kind id ≠ .hole ∧
      (doc.kind id).hasMarkupChildren = false) : doc.Shaped id := by
  refine ⟨fun h => absurd h kind.1, fun h => ?_, fun h => absurd h kind.2.1, ?_, ?_⟩
  · rw [kind.2.2] at h
    cases h
  · intro c _ _ hold
    unfold Holds at hold
    rw [leaf] at hold
    cases hold
  · rw [leaf]
    exact List.Pairwise.nil

theorem regular_of_leaf (leaf : doc.children id = [])
    (forward : ∀ s, doc.span id = some s → s.lo ≤ s.hi)
    (fits : ∀ t s, doc.text? id = some t → doc.span id = some s → s.lo + bytes t ≤ s.hi) :
    doc.Regular id := by
  refine ⟨forward, fun _ _ => leaf, fits, fun _ c hold => ?_⟩
  unfold Holds at hold
  rw [leaf] at hold
  cases hold

theorem bare_leaf (leaf : doc.children id = []) (spanless : doc.span id = none)
    (kind : doc.kind id ≠ .conditional ∧ doc.kind id ≠ .hole ∧
      (doc.kind id).hasMarkupChildren = false) : doc.Shaped id ∧ doc.Regular id := by
  refine ⟨shaped_of_leaf leaf kind, regular_of_leaf leaf ?_ ?_⟩
  · rw [spanless]
    exact nofun
  · rw [spanless]
    exact nofun

end Leaf

theorem RegularTree.nested {doc : Document} (tree : doc.RegularTree) {id : NodeId}
    (reached : doc.Reaches id) : doc.NestedAt id := by
  refine ⟨fun c t hold ht => ?_, (tree.shaped id reached).ordered⟩
  cases hs : doc.span id with
  | none =>
    rw [(tree.regular id reached).ghost hs c hold] at ht
    cases ht
  | some s => exact ⟨s, rfl, (tree.shaped id reached).nested c s t hold hs ht⟩

structure Resembles (doc doc' : Document) (id : NodeId) : Prop where
  kind : doc'.kind id = doc.kind id
  span : doc'.span id = doc.span id
  children : doc'.children id = doc.children id
  child : ∀ c, doc.Holds id c → doc'.kind c = doc.kind c ∧ doc'.span c = doc.span c

namespace Resembles

variable {doc doc' : Document} {id : NodeId} (same : doc.Resembles doc' id)

include same

theorem holds {c : NodeId} (hold : doc'.Holds id c) : doc.Holds id c := by
  unfold Holds at hold ⊢
  rwa [← same.children]

theorem shaped (shaped : doc.Shaped id) : doc'.Shaped id := by
  refine ⟨?_, ?_, ?_, ?_, ?_⟩
  · rw [same.kind, same.children]
    exact shaped.conditional
  · rw [same.kind]
    intro markup
    obtain ⟨o, items, closing, tagged⟩ := shaped.markup markup
    have kind : ∀ c ∈ o :: (items ++ closing), doc'.kind c = doc.kind c := fun c hc =>
      (same.child c (by unfold Holds; rwa [tagged.split])).1
    refine ⟨o, items, closing, ?_, ?_, ?_, ?_⟩
    · rw [same.children, tagged.split]
    · rw [kind o (by simp), tagged.opening]
    · rcases tagged.closing with h | ⟨c, rfl, closes⟩
      · exact .inl h
      · exact .inr ⟨c, rfl, by rw [kind c (by simp), closes]⟩
    · intro i hi
      rw [kind i (by simp [hi])]
      exact tagged.items i hi
  · rw [same.kind, same.children]
    exact shaped.hole
  · intro c s t hold hs ht
    have old := same.holds hold
    rw [same.span] at hs
    rw [(same.child c old).2] at ht
    exact shaped.nested c s t old hs ht
  · rw [same.children]
    refine shaped.ordered.imp_of_mem fun {a b} ha hb h s t hs ht => ?_
    rw [(same.child a ha).2] at hs
    rw [(same.child b hb).2] at ht
    exact h s t hs ht

theorem regular (regular : doc.Regular id) : doc'.Regular id := by
  have text : doc'.text? id = doc.text? id := by
    unfold text?
    rw [same.kind]
  refine ⟨?_, ?_, ?_, ?_⟩
  · rw [same.span]
    exact regular.forward
  · rw [text, same.children]
    exact regular.leaf
  · rw [text, same.span]
    exact regular.fits
  · intro spanless c hold
    have old := same.holds hold
    rw [same.span] at spanless
    rw [(same.child c old).2]
    exact regular.ghost spanless c old

end Resembles

/-- Links, kinds and spans are all that a shape depends on. -/
theorem RegularTree.of_same {doc doc' : Document} (tree : doc.RegularTree)
    (size : doc'.nodes.size = doc.nodes.size)
    (same : ∀ j, doc'.kind j = doc.kind j ∧ doc'.span j = doc.span j ∧
      doc'.children j = doc.children j ∧ doc'.parent j = doc.parent j)
    (linked : doc'.Linked) (reaches : ∀ {j}, doc'.Reaches j → doc.Reaches j) :
    doc'.RegularTree := by
  have each : ∀ j, doc.Resembles doc' j := fun j =>
    ⟨(same j).1, (same j).2.1, (same j).2.2.1, fun c _ => ⟨(same c).1, (same c).2.1⟩⟩
  exact ⟨⟨linked, by rw [size]; exact tree.root_lt,
    fun id h => (each id).shaped (tree.shaped id (reaches h))⟩,
    fun id h => (each id).regular (tree.regular id (reaches h))⟩

section Splice

variable {doc doc' : Document} {p : NodeId} {A B N C : List NodeId}

theorem Splice.resembles (splice : doc.Splice doc' p A B N C) (linked : doc.Linked) {j : NodeId}
    (lt : j < doc.nodes.size) (ne : j ≠ p) : doc.Resembles doc' j := by
  obtain ⟨kind, span, -⟩ := splice.content lt
  refine ⟨kind, span, splice.children_rest lt ne, fun c hold => ?_⟩
  obtain ⟨kind', span', -⟩ := splice.content (linked.child_lt hold)
  exact ⟨kind', span'⟩

def StandsIn (doc doc' : Document) (B N : List NodeId) : Prop :=
  ∀ n ∈ N, ∀ t, doc'.span n = some t → ∃ b ∈ B, ∃ s, doc.span b = some s ∧ s.lo ≤ t.lo ∧ t.hi ≤ s.hi

theorem standsIn_of_spanless (spanless : ∀ n ∈ N, doc'.span n = none) : StandsIn doc doc' B N := by
  intro n hn t ht
  rw [spanless n hn] at ht
  cases ht

theorem Splice.ordered_here (splice : doc.Splice doc' p A B N C) (linked : doc.Linked)
    (ordered : (doc.children p).Pairwise fun a b =>
      ∀ s t, doc.span a = some s → doc.span b = some t → s.hi ≤ t.lo)
    (within : StandsIn doc doc' B N) (sorted : N.Pairwise fun a b =>
      ∀ s t, doc'.span a = some s → doc'.span b = some t → s.hi ≤ t.lo) :
    (doc'.children p).Pairwise fun a b =>
      ∀ s t, doc'.span a = some s → doc'.span b = some t → s.hi ≤ t.lo := by
  have old : ∀ {c}, c ∈ A ++ B ++ C → doc'.span c = doc.span c := fun h =>
    (splice.content (linked.child_lt (p := p) (by unfold Holds; rwa [splice.split]))).2.1
  rw [splice.split] at ordered
  rw [splice.children_here]
  obtain ⟨left, hC, across⟩ := List.pairwise_append.mp ordered
  obtain ⟨hA, -, before⟩ := List.pairwise_append.mp left
  refine List.pairwise_append.mpr ⟨List.pairwise_append.mpr ⟨?_, sorted, ?_⟩, ?_, ?_⟩
  · refine hA.imp_of_mem fun {a b} ha hb h s t hs ht => ?_
    rw [old (by simp [ha])] at hs
    rw [old (by simp [hb])] at ht
    exact h s t hs ht
  · intro a ha n hn s t hs ht
    rw [old (by simp [ha])] at hs
    obtain ⟨b, hb, u, hu, lo, -⟩ := within n hn t ht
    have := before a ha b hb s u hs hu
    omega
  · refine hC.imp_of_mem fun {a b} ha hb h s t hs ht => ?_
    rw [old (by simp [ha])] at hs
    rw [old (by simp [hb])] at ht
    exact h s t hs ht
  · intro a ha c hc s t hs ht
    rw [old (by simp [hc])] at ht
    rcases List.mem_append.mp ha with ha | ha
    · rw [old (by simp [ha])] at hs
      exact across a (by simp [ha]) c hc s t hs ht
    · obtain ⟨b, hb, u, hu, -, hi⟩ := within a ha s hs
      have := across b (by simp [hb]) c hc u t hu ht
      omega

/-- The node whose child list a splice changes keeps its shape, if the new list has the layout of its
kind. -/
theorem Splice.shaped_here (splice : doc.Splice doc' p A B N C) (tree : doc.RegularTree)
    (reached : doc.Reaches p) (place : doc.kind p = .block ∨ (doc.kind p).hasMarkupChildren = true)
    (tagged : (doc.kind p).hasMarkupChildren = true → ∃ o items closing, doc'.Tagged p o items closing)
    (within : StandsIn doc doc' B N) (sorted : N.Pairwise fun a b =>
      ∀ s t, doc'.span a = some s → doc'.span b = some t → s.hi ≤ t.lo) :
    doc'.Shaped p ∧ doc'.Regular p := by
  have lt := tree.linked.reaches_lt tree.root_lt reached
  obtain ⟨kind, span, -⟩ := splice.content lt
  have shaped := tree.shaped p reached
  have regular := tree.regular p reached
  have other := NodeKind.plain_of_place place
  have text : doc'.text? p = none := by
    unfold text?
    rw [kind]
    exact other.2.2
  have stays : ∀ {c}, c ∈ A ++ B ++ C → doc.Holds p c := fun h => by
    unfold Holds
    rwa [splice.split]
  -- A child afterwards is one of before, or it stands in the span of one of before.
  have child : ∀ c t, doc'.Holds p c → doc'.span c = some t →
      ∃ b s, doc.Holds p b ∧ doc.span b = some s ∧ s.lo ≤ t.lo ∧ t.hi ≤ s.hi := by
    intro c t hold ht
    unfold Holds at hold
    rw [splice.children_here] at hold
    by_cases new : c ∈ N
    · obtain ⟨b, hb, s, hs, inside⟩ := within c new t ht
      exact ⟨b, s, stays (by simp [hb]), hs, inside⟩
    · have held : doc.Holds p c := stays (by
        simp only [List.mem_append] at hold ⊢
        tauto)
      rw [(splice.content (tree.linked.child_lt held)).2.1] at ht
      exact ⟨c, t, held, ht, Nat.le_refl _, Nat.le_refl _⟩
  refine ⟨⟨?_, ?_, ?_, ?_, splice.ordered_here tree.linked shaped.ordered within sorted⟩,
    ⟨?_, ?_, ?_, ?_⟩⟩
  · rw [kind]
    exact fun h => absurd h other.1
  · rw [kind]
    exact tagged
  · rw [kind]
    exact fun h => absurd h other.2.1
  · intro c s t hold hs ht
    rw [span] at hs
    obtain ⟨b, u, held, hu, lo, hi⟩ := child c t hold ht
    have := shaped.nested b s u held hs hu
    omega
  · rw [span]
    exact regular.forward
  · intro t ht
    rw [text] at ht
    cases ht
  · intro t s ht
    rw [text] at ht
    cases ht
  · intro spanless c hold
    rw [span] at spanless
    cases ht : doc'.span c with
    | none => rfl
    | some t =>
      obtain ⟨b, u, held, hu, -⟩ := child c t hold ht
      rw [regular.ghost spanless b held] at hu
      cases hu

/-- A splice keeps a tree in shape if it does so where it takes place. -/
theorem RegularTree.splice (tree : doc.RegularTree) (splice : doc.Splice doc' p A B N C)
    (here : doc'.Shaped p ∧ doc'.Regular p)
    (new : ∀ j, doc.nodes.size ≤ j → j < doc'.nodes.size → doc'.Shaped j ∧ doc'.Regular j) :
    doc'.RegularTree := by
  have linked := splice.linked' tree.linked
  have root_lt := Nat.lt_of_lt_of_le tree.root_lt splice.grows
  have each : ∀ j, doc'.Reaches j → doc'.Shaped j ∧ doc'.Regular j := by
    intro j reached
    rcases Nat.lt_or_ge j doc.nodes.size with lt | ge
    · by_cases same : j = p
      · exact same ▸ here
      · have old := (splice.reaches_old tree.linked reached lt).1
        have alike := splice.resembles tree.linked lt same
        exact ⟨alike.shaped (tree.shaped j old), alike.regular (tree.regular j old)⟩
    · exact new j ge (linked.reaches_lt root_lt reached)
  exact ⟨⟨linked, root_lt, fun id h => (each id h).1⟩, fun id h => (each id h).2⟩

end Splice

end Document
end Quell
