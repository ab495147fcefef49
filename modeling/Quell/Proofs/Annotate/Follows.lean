import Quell.Proofs.Annotate.Ways

/-!
The same edits in two documents.

A document follows another one under new names of nodes if it has all that the other has, but for
the links of a few nodes and the comments in a few slots. Edits elsewhere, made in both, keep it so,
and with that two edits that leave each other alone come to the same in either order:
`alike_of_follows`.
-/
namespace Quell

open Text Relation

namespace Node

def unlinked (n : Node) : Node := { n with parent := none, children := [] }

theorem comments_unlinked (n : Node) (slot : Slot) : n.unlinked.comments slot = n.comments slot := by
  cases slot <;> rfl

theorem serve_unlinked (n : Node) (way : Way) (rule : Text) :
    n.unlinked.serve way rule = ((n.serve way rule).1.unlinked, (n.serve way rule).2) := by
  have same : n.unlinked.directed = n.directed := by
    funext slot
    unfold directed
    rw [comments_unlinked]
  unfold serve
  rw [same]
  cases way.slots.find? n.directed with
  | some slot => cases slot <;> rfl
  | none => cases way.slot <;> rfl

end Node

namespace Document

variable {source : Text} {o : AnnotateOptions} {rule : Text}

/-- A step that leaves everything alone but links of the nodes in `E` and comments in `K`. -/
structure Spares (E : NodeId → Prop) (K : NodeId → Slot → Prop) (u v : Document) : Prop where
  eol : v.eol = u.eol
  grows : u.nodes.size ≤ v.nodes.size
  kind : ∀ j < u.nodes.size, v.kind j = u.kind j
  span : ∀ j < u.nodes.size, v.span j = u.span j
  parent : ∀ j < u.nodes.size, ¬ E j → v.parent j = u.parent j
  children : ∀ j < u.nodes.size, ¬ E j → v.children j = u.children j
  comments : ∀ j < u.nodes.size, ∀ slot, ¬ K j slot →
    (v.node j).comments slot = (u.node j).comments slot

/-- One document has what the other has under new names, but for links of the nodes in `E` and
comments in `K`. -/
structure Follows (f : NodeId → NodeId) (E : NodeId → Prop) (K : NodeId → Slot → Prop)
    (u v : Document) : Prop where
  eol : v.eol = u.eol
  inj : f.Injective
  far : ∀ i, f (u.nodes.size + i) = v.nodes.size + i
  kind : ∀ j, v.kind (f j) = u.kind j
  span : ∀ j, v.span (f j) = u.span j
  parent : ∀ j, ¬ E j → v.parent (f j) = (u.parent j).map f
  children : ∀ j, ¬ E j → v.children (f j) = (u.children j).map f
  comments : ∀ j slot, ¬ K j slot →
    List.Forall₂ Comment.Alike ((u.node j).comments slot) ((v.node (f j)).comments slot)

variable {f : NodeId → NodeId} {E : NodeId → Prop} {K : NodeId → Slot → Prop}
variable {u u' v v' : Document}

section Spares

theorem Spares.refl (E : NodeId → Prop) (K : NodeId → Slot → Prop) (u : Document) :
    u.Spares E K u :=
  ⟨rfl, Nat.le_refl _, fun _ _ => rfl, fun _ _ => rfl, fun _ _ _ => rfl, fun _ _ _ => rfl,
    fun _ _ _ _ => rfl⟩

theorem Spares.trans {w : Document} (h : u.Spares E K v) (k : v.Spares E K w) : u.Spares E K w where
  eol := k.eol.trans h.eol
  grows := Nat.le_trans h.grows k.grows
  kind j lt := (k.kind j (Nat.lt_of_lt_of_le lt h.grows)).trans (h.kind j lt)
  span j lt := (k.span j (Nat.lt_of_lt_of_le lt h.grows)).trans (h.span j lt)
  parent j lt free := (k.parent j (Nat.lt_of_lt_of_le lt h.grows) free).trans (h.parent j lt free)
  children j lt free :=
    (k.children j (Nat.lt_of_lt_of_le lt h.grows) free).trans (h.children j lt free)
  comments j lt slot free :=
    (k.comments j (Nat.lt_of_lt_of_le lt h.grows) slot free).trans (h.comments j lt slot free)

theorem Spares.mono {E' : NodeId → Prop} {K' : NodeId → Slot → Prop} (h : u.Spares E K v)
    (le : ∀ j < u.nodes.size, E j → E' j) (le' : ∀ j slot, K j slot → K' j slot) :
    u.Spares E' K' v where
  eol := h.eol
  grows := h.grows
  kind := h.kind
  span := h.span
  parent j lt free := h.parent j lt fun held => free (le j lt held)
  children j lt free := h.children j lt fun held => free (le j lt held)
  comments j lt slot free := h.comments j lt slot fun held => free (le' j slot held)

theorem Splice.spares {p : NodeId} {A B N C : List NodeId} (splice : u.Splice v p A B N C) :
    u.Spares (fun j => j = p ∨ j ∈ B) (fun _ _ => False) v where
  eol := splice.eol
  grows := splice.grows
  kind _ lt := (splice.content lt).1
  span _ lt := (splice.content lt).2.1
  parent _ lt free := splice.parent_rest lt fun held => free (.inr held)
  children _ lt free := splice.children_rest lt fun held => free (.inl held)
  comments _ lt slot _ := (splice.content lt).2.2 slot

theorem serveAt_eq {way : Way} (fair : way.Fair o) (u : Document) (id : NodeId) (rule : Text) :
    ∃ slot ∈ way.slots, ∃ cs, (u.serveAt id way rule).1 = u.update id (·.setComments slot cs) := by
  obtain ⟨slot, mem, cs, res, served⟩ := Node.serve_local fair (u.node id) rule
  refine ⟨slot, mem, cs, update_congr u id ?_⟩
  rw [served _ fun _ _ => rfl]

theorem spares_serveAt {id : NodeId} {way : Way} (fair : way.Fair o) (valid : id < u.nodes.size)
    (rule : Text) : u.Spares (fun _ => False) (fun j slot => j = id ∧ slot ∈ way.slots)
      (u.serveAt id way rule).1 := by
  obtain ⟨slot, mem, cs, same⟩ := serveAt_eq fair u id rule
  rw [same]
  have tree := fun j => @tree_setComments u id slot cs j
  refine ⟨rfl, by rw [size_update], fun j _ => (tree j).1, fun j _ => (tree j).2.1,
    fun j _ _ => (tree j).2.2.2, fun j _ _ => (tree j).2.2.1, fun j _ slot' free => ?_⟩
  rw [comments_update valid, if_neg]
  rintro ⟨rfl, rfl⟩
  exact free ⟨rfl, mem⟩

end Spares

/-- New nodes stand that much further back. -/
def shift (first width j : Nat) : Nat := if j < first then j else j + width

theorem shift_old {first width j : Nat} (lt : j < first) : shift first width j = j := if_pos lt

theorem shift_new {first width j : Nat} (le : first ≤ j) : shift first width j = j + width :=
  if_neg (Nat.not_lt_of_le le)

theorem shift_injective (first width : Nat) : (shift first width).Injective := by
  intro (i : Nat) (j : Nat) h
  unfold shift at h
  split at h <;> split at h <;> omega

theorem map_shift {first width : Nat} {ids : List NodeId} (old : ∀ j ∈ ids, j < first) :
    ids.map (shift first width) = ids :=
  (List.map_congr_left fun j hj => shift_old (old j hj)).trans (List.map_id ids)

theorem Linked.parent_lt (linked : u.Linked) {id p : NodeId} (h : u.parent id = some p) :
    p < u.nodes.size := Holds.parent_lt ((linked.agree p id).mpr h)

section Follows

theorem Follows.lt (h : u.Follows f E K v) {j : NodeId} (lt : j < u.nodes.size) :
    f j < v.nodes.size := by
  by_contra ge
  obtain ⟨i, hi⟩ := Nat.exists_eq_add_of_le (Nat.le_of_not_lt ge)
  have same : j = u.nodes.size + i := h.inj (hi.trans (h.far i).symm)
  exact absurd lt (Nat.not_lt_of_le (same ▸ Nat.le_add_right _ _))

theorem Follows.text? (h : u.Follows f E K v) (j : NodeId) : v.text? (f j) = u.text? j := by
  unfold Document.text?
  rw [h.kind]

theorem Follows.isBlankText (h : u.Follows f E K v) (j : NodeId) :
    v.isBlankText (f j) = u.isBlankText j := by
  unfold Document.isBlankText
  rw [h.text?]

/-- A step is followed by where it leads. -/
theorem Spares.follows (h : u.Spares E K v) (linked : u.Linked) {width : Nat}
    (size : v.nodes.size = u.nodes.size + width) :
    u.Follows (shift u.nodes.size width) E K v := by
  have far : ∀ i, shift u.nodes.size width (u.nodes.size + i) = v.nodes.size + i := by
    intro i
    rw [shift_new (Nat.le_add_right _ _), size]
    omega
  have past : ∀ j, u.nodes.size ≤ j →
      u.node j = { kind := .empty, span := none } ∧
        v.node (shift u.nodes.size width j) = { kind := .empty, span := none } := by
    intro j le
    obtain ⟨i, rfl⟩ := Nat.exists_eq_add_of_le le
    exact ⟨node_of_size_le u le, by rw [far]; exact node_of_size_le v (Nat.le_add_right _ _)⟩
  refine ⟨h.eol, shift_injective _ _, far, fun j => ?_, fun j => ?_, fun j free => ?_, fun j free => ?_,
    fun j slot free => ?_⟩
  · rcases Nat.lt_or_ge j u.nodes.size with lt | le
    · rw [shift_old lt, h.kind j lt]
    · unfold Document.kind
      rw [(past j le).1, (past j le).2]
  · rcases Nat.lt_or_ge j u.nodes.size with lt | le
    · rw [shift_old lt, h.span j lt]
    · unfold Document.span
      rw [(past j le).1, (past j le).2]
  · rcases Nat.lt_or_ge j u.nodes.size with lt | le
    · rw [shift_old lt, h.parent j lt free]
      cases link : u.parent j with
      | none => rfl
      | some p => exact congrArg some (shift_old (linked.parent_lt link)).symm
    · unfold Document.parent
      rw [(past j le).1, (past j le).2]
      rfl
  · rcases Nat.lt_or_ge j u.nodes.size with lt | le
    · rw [shift_old lt, h.children j lt free, map_shift fun c hc => linked.child_lt hc]
    · unfold Document.children
      rw [(past j le).1, (past j le).2]
      rfl
  · rcases Nat.lt_or_ge j u.nodes.size with lt | le
    · rw [shift_old lt, h.comments j lt slot free]
      exact Node.forall₂_refl _
    · rw [(past j le).1, (past j le).2]
      exact Node.forall₂_refl _

/-- Splices of one shape keep a document behind another. -/
theorem Follows.splice {p : NodeId} {A A' B N C C' : List NodeId} {width : Nat}
    (h : u.Follows f E K v) (left : u.Splice u' p A B N C)
    (right : v.Splice v' (f p) A' (B.map f) (N.map f) C')
    (size : u'.nodes.size = u.nodes.size + width) (size' : v'.nodes.size = v.nodes.size + width)
    (new : ∀ i < width, (u'.node (u.nodes.size + i)).Alike f (v'.node (v.nodes.size + i)))
    (around : ¬ E p → A' = A.map f ∧ C' = C.map f) : u'.Follows f E K v' := by
  have each : ∀ j, (j < u.nodes.size) ∨ (∃ i < width, j = u.nodes.size + i) ∨
      ∃ i, j = u'.nodes.size + i := by
    intro j
    rcases Nat.lt_or_ge j u.nodes.size with lt | le
    · exact .inl lt
    · obtain ⟨i, rfl⟩ := Nat.exists_eq_add_of_le le
      rcases Nat.lt_or_ge i width with lt | ge
      · exact .inr (.inl ⟨i, lt, rfl⟩)
      · refine .inr (.inr ⟨i - width, ?_⟩)
        rw [size, Nat.add_assoc, Nat.add_sub_cancel' ge]
  have far : ∀ i, f (u'.nodes.size + i) = v'.nodes.size + i := by
    intro i
    rw [size, size', Nat.add_assoc, Nat.add_assoc, h.far]
  have alike : ∀ j, ¬ j < u.nodes.size → (u'.node j).Alike f (v'.node (f j)) := by
    intro j ge
    rcases each j with lt | ⟨i, lt, rfl⟩ | ⟨i, rfl⟩
    · exact absurd lt ge
    · rw [h.far]
      exact new i lt
    · rw [far, node_of_size_le u' (Nat.le_add_right _ _), node_of_size_le v' (Nat.le_add_right _ _)]
      exact .of_fixed nofun nofun
  refine ⟨?_, h.inj, far, fun j => ?_, fun j => ?_, fun j free => ?_, fun j free => ?_,
    fun j slot free => ?_⟩
  · rw [right.eol, left.eol, h.eol]
  · by_cases lt : j < u.nodes.size
    · rw [(right.content (h.lt lt)).1, (left.content lt).1, h.kind]
    · exact (alike j lt).kind
  · by_cases lt : j < u.nodes.size
    · rw [(right.content (h.lt lt)).2.1, (left.content lt).2.1, h.span]
    · exact (alike j lt).span
  · by_cases lt : j < u.nodes.size
    · by_cases gone : j ∈ B
      · rw [right.parent_gone (List.mem_map_of_mem gone), left.parent_gone gone]
        rfl
      · have gone' : f j ∉ B.map f := by
          rw [List.mem_map_of_injective h.inj]
          exact gone
        rw [right.parent_rest (h.lt lt) gone', left.parent_rest lt gone, h.parent j free]
    · exact (alike j lt).parent
  · by_cases lt : j < u.nodes.size
    · by_cases here : j = p
      · subst here
        obtain ⟨rfl, rfl⟩ := around free
        rw [right.children_here, left.children_here, List.map_append, List.map_append]
      · rw [right.children_rest (h.lt lt) fun e => here (h.inj e), left.children_rest lt here,
          h.children j free]
    · exact (alike j lt).children
  · by_cases lt : j < u.nodes.size
    · rw [(right.content (h.lt lt)).2.2 slot, (left.content lt).2.2 slot]
      exact h.comments j slot free
    · exact (alike j lt).comments slot

theorem Follows.recut {p id : NodeId} {A A' C C' : List NodeId} {parts : List Text}
    (h : u.Follows f E K v) (left : u.Recut u' p A id C parts)
    (right : v.Recut v' (f p) A' (f id) C' parts)
    (around : ¬ E p → A' = A.map f ∧ C' = C.map f) : u'.Follows f E K v' := by
  have names : (List.range' u.nodes.size parts.length).map f =
      List.range' v.nodes.size parts.length := by
    refine List.ext_getElem (by simp) fun i lt lt' => ?_
    simp only [List.getElem_map, List.getElem_range', Nat.one_mul]
    exact h.far i
  refine h.splice left.splice ?_ left.size right.size (fun i lt => ?_) around
  · rw [names]
    exact right.splice
  · have found := List.getElem?_eq_getElem lt
    rw [left.part i _ found, right.part i _ found]
    exact ⟨rfl, by rw [h.span], rfl, rfl, fun slot => Node.forall₂_refl _⟩

theorem Follows.noted {p : NodeId} {A A' C C' : List NodeId} {lead : Option Text} {body gap : Text}
    (h : u.Follows f E K v) (left : u.Noted u' p A C lead body gap)
    (right : v.Noted v' (f p) A' C' lead body gap)
    (around : ¬ E p → A' = A.map f ∧ C' = C.map f) : u'.Follows f E K v' := by
  have zero : f u.nodes.size = v.nodes.size := h.far 0
  have one : f (u.nodes.size + 1) = v.nodes.size + 1 := h.far 1
  have names : (noteIds u.nodes.size lead).map f = noteIds v.nodes.size lead := by
    have two : f (u.nodes.size + 2) = v.nodes.size + 2 := h.far 2
    have three : f (u.nodes.size + 3) = v.nodes.size + 3 := h.far 3
    cases lead <;> simp [noteIds, zero, two, three]
  have text : ∀ (i : Nat) (t : Text),
      u'.node (u.nodes.size + i) = { kind := .text t, span := none, parent := some p } →
      v'.node (v.nodes.size + i) = { kind := .text t, span := none, parent := some (f p) } →
      (u'.node (u.nodes.size + i)).Alike f (v'.node (v.nodes.size + i)) := by
    intro i t here there
    rw [here, there]
    exact ⟨rfl, rfl, rfl, rfl, fun slot => Node.forall₂_refl _⟩
  have size : u'.nodes.size = u.nodes.size + (3 + lead.toList.length) := by
    rw [left.size, Nat.add_assoc]
  have size' : v'.nodes.size = v.nodes.size + (3 + lead.toList.length) := by
    rw [right.size, Nat.add_assoc]
  refine h.splice left.splice ?_ size size' (fun i lt => ?_) around
  · rw [names]
    exact right.splice
  · rcases i with _ | _ | _ | _ | i
    · rw [Nat.add_zero, Nat.add_zero, left.hole, right.hole]
      exact ⟨rfl, rfl, rfl, by simp [one], fun slot => Node.forall₂_refl _⟩
    · rw [left.slot, right.slot]
      exact ⟨rfl, rfl, by simp [zero], rfl, fun slot => Node.forall₂_refl _⟩
    · cases lead with
      | none => exact text 2 gap left.behind right.behind
      | some t => exact text 2 t (left.front t rfl) (right.front t rfl)
    · cases lead with
      | none => exact absurd lt (by decide)
      | some t => exact text 3 gap left.behind right.behind
    · cases lead with
      | none => exact absurd lt (by simp)
      | some t => exact absurd lt (by simp)

/-- A placeholder in a block that is empty in both. -/
theorem Follows.addPlaceholder {block : NodeId} (h : u.Follows f E K v)
    (lt : block < u.nodes.size) (empty : u.children block = []) (empty' : v.children (f block) = []) :
    (u.addPlaceholder block).1.Follows f E K (v.addPlaceholder (f block)).1 := by
  obtain ⟨left, size, new⟩ := addPlaceholder_spec lt
  obtain ⟨right, size', new'⟩ := addPlaceholder_spec (h.lt lt)
  have zero : f u.nodes.size = v.nodes.size := h.far 0
  rw [← zero] at right
  refine h.splice left right size size' (fun i one => ?_) fun _ => ?_
  · obtain rfl : i = 0 := Nat.lt_one_iff.mp one
    rw [Nat.add_zero, Nat.add_zero, new, new']
    exact ⟨rfl, rfl, rfl, rfl, fun slot => Node.forall₂_refl _⟩
  · rw [empty, empty']
    exact ⟨rfl, rfl⟩

theorem Follows.serveAt {id : NodeId} (h : u.Follows f E K v) (lt : id < u.nodes.size)
    (free : ∀ slot, ¬ K id slot) (way : Way) (name : RuleName rule) :
    (v.serveAt (f id) way rule).2 = (u.serveAt id way rule).2 ∧
      (u.serveAt id way rule).1.Follows f E K (v.serveAt (f id) way rule).1 := by
  -- The links of the node count for nothing here, and may differ.
  have bare : ((u.node id).unlinked.Alike f (v.node (f id)).unlinked) := by
    refine ⟨h.kind id, h.span id, rfl, rfl, fun slot => ?_⟩
    rw [Node.comments_unlinked, Node.comments_unlinked]
    exact h.comments id slot (free slot)
  obtain ⟨answer, served⟩ := bare.serve way name
  rw [Node.serve_unlinked, Node.serve_unlinked] at answer served
  have links := (u.node id).serve_links way rule
  have links' := (v.node (f id)).serve_links way rule
  have left := fun j => node_serveAt lt way rule j
  have right := fun j => node_serveAt (h.lt lt) way rule (f j)
  have same : ∀ j, f j = f id ↔ j = id := fun j => h.inj.eq_iff
  refine ⟨answer, h.eol, h.inj, fun i => ?_, fun j => ?_, fun j => ?_, fun j free' => ?_,
    fun j free' => ?_, fun j slot free' => ?_⟩
  · rw [size_serveAt, size_serveAt]
    exact h.far i
  · unfold Document.kind
    rw [left, right]
    by_cases here : j = id
    · rw [if_pos here, if_pos ((same j).mpr here)]
      exact served.kind
    · rw [if_neg here, if_neg (mt (same j).mp here)]
      exact h.kind j
  · unfold Document.span
    rw [left, right]
    by_cases here : j = id
    · rw [if_pos here, if_pos ((same j).mpr here)]
      exact served.span
    · rw [if_neg here, if_neg (mt (same j).mp here)]
      exact h.span j
  · unfold Document.parent
    rw [left, right]
    by_cases here : j = id
    · rw [if_pos here, if_pos ((same j).mpr here), links.2, links'.2]
      exact here ▸ h.parent j free'
    · rw [if_neg here, if_neg (mt (same j).mp here)]
      exact h.parent j free'
  · unfold Document.children
    rw [left, right]
    by_cases here : j = id
    · rw [if_pos here, if_pos ((same j).mpr here), links.1, links'.1]
      exact here ▸ h.children j free'
    · rw [if_neg here, if_neg (mt (same j).mp here)]
      exact h.children j free'
  · rw [left, right]
    by_cases here : j = id
    · rw [if_pos here, if_pos ((same j).mpr here)]
      have := served.comments slot
      rwa [Node.comments_unlinked, Node.comments_unlinked] at this
    · rw [if_neg here, if_neg (mt (same j).mp here)]
      exact h.comments j slot free'

end Follows

def segmentAll (doc : Document) (ids : List NodeId) : Except Fault Document :=
  ids.foldlM Document.segmentText doc

/-- A child is whole, or falls into parts. -/
inductive Cuts (u : Document) (q : NodeId) (A : List NodeId) (x : NodeId) (C : List NodeId) :
    Document → List NodeId → Prop where
  | whole : u.Whole x → Cuts u q A x C u [x]
  | parts {u' : Document} {t : Text} : ¬ Settled t → u.Recut u' q A x C t.segments →
      Cuts u q A x C u' (List.range' u.nodes.size t.segments.length)

section Segment

variable {q x : NodeId} {A A' C C' N N' Xs : List NodeId}

theorem segmentText_cuts (linked : u.Linked) (split : u.children q = A ++ [x] ++ C)
    (leaf : u.text? x ≠ none → u.children x = []) :
    ∃ u' N, u.segmentText x = .ok u' ∧ u.Cuts q A x C u' N := by
  by_cases whole : u.Whole x
  · exact ⟨u, [x], segmentText_settled whole, .whole whole⟩
  · obtain ⟨t, ht⟩ := not_forall.mp whole
    obtain ⟨value, loose⟩ := Classical.not_imp.mp ht
    obtain ⟨u', result, recut⟩ :=
      segmentText_recut linked split (leaf (by rw [value]; exact nofun)) value loose
    exact ⟨u', _, result, .parts loose recut⟩

theorem Cuts.children_here (cuts : u.Cuts q A x C u' N) (split : u.children q = A ++ [x] ++ C) :
    u'.children q = A ++ N ++ C := by
  cases cuts with
  | whole => exact split
  | parts _ recut => exact recut.splice.children_here

theorem Cuts.parent_here (cuts : u.Cuts q A x C u' N) : u'.parent q = u.parent q := by
  cases cuts with
  | whole => rfl
  | parts _ recut =>
    unfold Document.parent
    rw [recut.splice.here]

theorem Cuts.linked (cuts : u.Cuts q A x C u' N) (linked : u.Linked) : u'.Linked := by
  cases cuts with
  | whole => exact linked
  | parts _ recut => exact recut.splice.linked' linked

theorem Cuts.spares (cuts : u.Cuts q A x C u' N) :
    u.Spares (fun j => j = q ∨ j = x ∧ u.text? x ≠ none) (fun _ _ => False) u' := by
  cases cuts with
  | whole => exact .refl _ _ u
  | parts _ recut =>
    refine recut.splice.spares.mono (fun j _ held => held.imp_right fun mem => ?_) fun _ _ h => h
    exact ⟨List.mem_singleton.mp mem, by rw [recut.value]; exact nofun⟩

theorem Follows.cuts (h : u.Follows f E K v) (left : u.Cuts q A x C u' N)
    (right : v.Cuts (f q) A' (f x) C' v' N') (around : ¬ E q → A' = A.map f ∧ C' = C.map f) :
    N' = N.map f ∧ u'.Follows f E K v' := by
  cases left with
  | whole whole =>
    cases right with
    | whole => exact ⟨rfl, h⟩
    | parts loose recut =>
      refine absurd (whole _ ?_) loose
      rw [← h.text?, recut.value, segments_flatten]
  | parts loose recut =>
    cases right with
    | whole whole =>
      refine absurd (whole _ ?_) loose
      rw [h.text?, recut.value, segments_flatten]
    | parts loose' recut' =>
      have same := recut'.value
      rw [h.text?, recut.value, segments_flatten, segments_flatten] at same
      cases same
      refine ⟨?_, h.recut recut recut' around⟩
      refine List.ext_getElem (by simp) fun i lt lt' => ?_
      simp only [List.getElem_map, List.getElem_range', Nat.one_mul]
      exact (h.far i).symm

theorem segmentAll_concat (doc : Document) (Xs : List NodeId) (x : NodeId) :
    doc.segmentAll (Xs ++ [x]).reverse =
      doc.segmentText x >>= fun cut => cut.segmentAll Xs.reverse := by
  unfold segmentAll
  rw [List.reverse_append, List.reverse_singleton, List.singleton_append, List.foldlM_cons]

/-- The children that are still to come are the same. -/
theorem Cuts.rest (cuts : u.Cuts q A x C u' N) (linked : u.Linked) {Ys : List NodeId}
    (split : u.children q = Ys ++ [x] ++ C) {y : NodeId} (mem : y ∈ Ys) :
    u'.text? y = u.text? y ∧ u'.children y = u.children y := by
  have hold : u.Holds q y := by
    unfold Holds
    rw [split]
    simp [mem]
  have nodup := linked.nodup q
  rw [split, List.append_assoc] at nodup
  have other : y ≠ x := by
    rintro rfl
    exact List.disjoint_of_nodup_append nodup mem (by simp)
  have above : y ≠ q := fun e => linked.not_below_of_holds hold (e ▸ ReflTransGen.refl)
  have lt := linked.child_lt hold
  refine ⟨?_, cuts.spares.children y lt fun held => held.elim above fun h => other h.1⟩
  unfold Document.text?
  rw [cuts.spares.kind y lt]

theorem segmentAll_spares (linked : u.Linked) (split : u.children q = A ++ Xs ++ C)
    (leaf : ∀ x ∈ Xs, u.text? x ≠ none → u.children x = [])
    (result : u.segmentAll Xs.reverse = .ok u') :
    u.Spares (fun j => j = q ∨ j ∈ Xs ∧ u.text? j ≠ none) (fun _ _ => False) u' ∧ u'.Linked ∧
      u'.parent q = u.parent q ∧ ∃ N, u'.children q = A ++ N ++ C := by
  induction Xs using List.reverseRecOn generalizing u C with
  | nil =>
    cases result
    exact ⟨.refl _ _ _, linked, rfl, [], split⟩
  | append_singleton Xs x ih =>
    rw [← List.append_assoc] at split
    obtain ⟨cut, N, first, cuts⟩ := segmentText_cuts linked split (leaf x (by simp))
    rw [segmentAll_concat, first] at result
    have rest := fun y mem => cuts.rest linked split (List.mem_append_right A mem) (y := y)
    have here := cuts.children_here split
    rw [List.append_assoc] at here
    obtain ⟨spares, linked', above, M, last⟩ := ih (cuts.linked linked) here (fun y mem text => by
      rw [(rest y mem).2]
      exact leaf y (by simp [mem]) (by rw [← (rest y mem).1]; exact text)) result
    refine ⟨(cuts.spares.mono (fun j _ h => ?_) fun _ _ h => h).trans
      (spares.mono (fun j _ h => ?_) fun _ _ h => h), linked', above.trans cuts.parent_here,
      M ++ N, by rw [last]; simp⟩
    · exact h.imp_right fun (h : j = x ∧ _) => ⟨by simp [h.1], h.1 ▸ h.2⟩
    · exact h.imp_right fun (h : j ∈ Xs ∧ _) => ⟨by simp [h.1], by rw [← (rest j h.1).1]; exact h.2⟩

theorem Follows.segmentAll (h : u.Follows f E K v) (linked : u.Linked) (linked' : v.Linked)
    (split : u.children q = A ++ Xs ++ C) (split' : v.children (f q) = A' ++ Xs.map f ++ C')
    (leaf : ∀ x ∈ Xs, u.text? x ≠ none → u.children x = [])
    (free : ∀ x ∈ Xs, u.text? x ≠ none → ¬ E x)
    (around : ¬ E q → A' = A.map f ∧ C' = C.map f) :
    ∃ u' v' N, u.segmentAll Xs.reverse = .ok u' ∧ v.segmentAll (Xs.map f).reverse = .ok v' ∧
      u'.Follows f E K v' ∧ u'.children q = A ++ N ++ C ∧
      v'.children (f q) = A' ++ N.map f ++ C' := by
  induction Xs using List.reverseRecOn generalizing u v C C' with
  | nil => exact ⟨u, v, [], rfl, rfl, h, split, split'⟩
  | append_singleton Xs x ih =>
    rw [← List.append_assoc] at split
    rw [List.map_append, List.map_singleton, ← List.append_assoc] at split'
    have leaf_x := leaf x (by simp)
    obtain ⟨cut, N, first, cuts⟩ := segmentText_cuts linked split leaf_x
    obtain ⟨cut', N', first', cuts'⟩ := segmentText_cuts linked' split' fun text => by
      rw [h.text?] at text
      rw [h.children x (free x (by simp) text), leaf_x text]
      rfl
    have outside : ¬ E q → A' ++ Xs.map f = (A ++ Xs).map f ∧ C' = C.map f := fun out => by
      rw [(around out).1, List.map_append]
      exact ⟨rfl, (around out).2⟩
    obtain ⟨rfl, next⟩ := h.cuts cuts cuts' outside
    have rest := fun y mem => cuts.rest linked split (List.mem_append_right A mem) (y := y)
    have here := cuts.children_here split
    have here' := cuts'.children_here split'
    rw [List.append_assoc] at here here'
    obtain ⟨u', v', M, done, done', follows, last, last'⟩ :=
      ih next (cuts.linked linked) (cuts'.linked linked') here here' (fun y mem text => by
        rw [(rest y mem).2]
        exact leaf y (by simp [mem]) (by rw [← (rest y mem).1]; exact text))
        (fun y mem text => free y (by simp [mem]) (by rw [← (rest y mem).1]; exact text)) fun out => by
          rw [(around out).1, (around out).2, List.map_append]
          exact ⟨rfl, rfl⟩
    refine ⟨u', v', M ++ N, ?_, ?_, follows, by rw [last]; simp, by rw [last']; simp⟩
    · rw [segmentAll_concat, first]
      exact done
    · rw [List.map_append, List.map_singleton, segmentAll_concat, first']
      exact done'

end Segment

/-- The names of new nodes, if of two blocks of them the second is made first. -/
def exchange (first width width' j : Nat) : Nat :=
  if j < first then j
  else if j < first + width then j + width'
  else if j < first + width + width' then j - width
  else j

section Exchange

variable {n a b : Nat}

theorem exchange_front {j : Nat} (lt : j < n + a) : exchange n a b j = shift n b j := by
  unfold exchange shift
  split_ifs <;> rfl

theorem exchange_shift {j : Nat} (lt : j < n + b) : exchange n a b (shift n a j) = j := by
  unfold exchange shift
  split_ifs <;> omega

theorem exchange_far {j : Nat} (le : n + a + b ≤ j) : exchange n a b j = j := by
  unfold exchange
  split_ifs <;> omega

theorem exchange_injective (n a b : Nat) : (exchange n a b).Injective := by
  intro (i : Nat) (j : Nat) h
  unfold exchange at h
  split_ifs at h <;> omega

theorem map_exchange_front {ids : List NodeId} (lt : ∀ j ∈ ids, j < n + a) :
    ids.map (exchange n a b) = ids.map (shift n b) :=
  List.map_congr_left fun j hj => exchange_front (lt j hj)

theorem map_exchange_shift {ids : List NodeId} (lt : ∀ j ∈ ids, j < n + b) :
    (ids.map (shift n a)).map (exchange n a b) = ids := by
  rw [List.map_map]
  exact (List.map_congr_left fun j hj => exchange_shift (lt j hj)).trans (List.map_id ids)

/-- The names below a place, of the nodes of one step, and of the other. -/
theorem exchange_cases (n a b : Nat) (j : NodeId) :
    j < n + a ∨ (∃ i, n ≤ i ∧ i < n + b ∧ j = shift n a i) ∨ n + a + b ≤ j := by
  rcases Nat.lt_or_ge j (n + a) with lt | ge
  · exact .inl lt
  · rcases Nat.lt_or_ge j (n + a + b) with lt | ge'
    · refine .inr (.inl ⟨j - a, Nat.le_sub_of_add_le ge, Nat.sub_lt_left_of_lt_add ?_ ?_, ?_⟩)
      · exact Nat.le_trans (Nat.le_add_left a n) ge
      · rwa [← Nat.add_assoc, Nat.add_comm a n]
      · rw [shift_new (Nat.le_sub_of_add_le ge),
          Nat.sub_add_cancel (Nat.le_trans (Nat.le_add_left a n) ge)]
    · exact .inr (.inr ge')

end Exchange

section Swap

variable {n a b : Nat} {D : NodeId → Prop} {J : NodeId → Slot → Prop}
variable {left right both both' : Document}

/-- Links of a node that the first of two steps knows. -/
theorem Follows.links_front (one : left.Follows (shift n b) E K both')
    (two : right.Follows (shift n a) D J both) (spares : left.Spares E K both)
    (spares' : right.Spares D J both') (linked : left.Linked) (linked' : right.Linked)
    (size : left.nodes.size = n + a) (size' : right.nodes.size = n + b) (within : ∀ j, E j → j < n)
    {j : NodeId} (lt : j < n + a) (single : ¬ (E j ∧ D j)) :
    both'.parent (shift n b j) = (both.parent j).map (exchange n a b) ∧
      both'.children (shift n b j) = (both.children j).map (exchange n a b) := by
  by_cases held : E j
  · have low := within j held
    have inside : j < right.nodes.size := size' ▸ Nat.lt_of_lt_of_le low (Nat.le_add_right n b)
    have free : ¬ D j := fun h => single ⟨held, h⟩
    have parent := two.parent j free
    have children := two.children j free
    rw [shift_old low] at parent children ⊢
    rw [spares'.parent j inside free, spares'.children j inside free, parent, children]
    refine ⟨?_, (map_exchange_shift fun c hc => size' ▸ linked'.child_lt hc).symm⟩
    cases link : right.parent j with
    | none => rfl
    | some p => exact congrArg some (exchange_shift (size' ▸ linked'.parent_lt link)).symm
  · have inside : j < left.nodes.size := size ▸ lt
    rw [one.parent j held, one.children j held, spares.parent j inside held,
      spares.children j inside held, map_exchange_front fun c hc => size ▸ linked.child_lt hc]
    refine ⟨?_, rfl⟩
    cases link : left.parent j with
    | none => rfl
    | some p => exact congrArg some (exchange_front (size ▸ linked.parent_lt link)).symm

/-- Two steps that spare what the other one changes come to the same in either order, but for the
names of new nodes. Only nodes whose links both change have to be compared. -/
theorem alike_of_follows {first : Nat} (old : first ≤ n) (linked : left.Linked)
    (linked' : right.Linked) (size : left.nodes.size = n + a) (size' : right.nodes.size = n + b)
    (sizes : both.nodes.size = n + a + b) (sizes' : both'.nodes.size = n + b + a)
    (one : left.Follows (shift n b) E K both') (two : right.Follows (shift n a) D J both)
    (spares : left.Spares E K both) (spares' : right.Spares D J both')
    (links : ∀ j, (E j → j < n) ∧ (D j → j < n))
    (comments : ∀ j slot, (K j slot → j < n ∧ ¬ J j slot) ∧ (J j slot → j < n))
    (shared : ∀ j, E j → D j → both'.parent j = (both.parent j).map (exchange n a b) ∧
      both'.children j = (both.children j).map (exchange n a b)) :
    Alike first (exchange n a b) both both' := by
  have equal : both'.nodes.size = both.nodes.size := by omega
  have node : ∀ j, (both.node j).Alike (exchange n a b) (both'.node (exchange n a b j)) := by
    intro j
    rcases exchange_cases n a b j with lt | ⟨i, ge, lt, rfl⟩ | ge
    · have inside : j < left.nodes.size := size ▸ lt
      rw [exchange_front lt]
      have linking : both'.parent (shift n b j) = (both.parent j).map (exchange n a b) ∧
          both'.children (shift n b j) = (both.children j).map (exchange n a b) := by
        by_cases twice : E j ∧ D j
        · rw [shift_old ((links j).1 twice.1)]
          exact shared j twice.1 twice.2
        · exact one.links_front two spares spares' linked linked' size size'
            (fun j => (links j).1) lt twice
      refine ⟨?_, ?_, linking.1, linking.2, fun slot => ?_⟩
      · exact (one.kind j).trans (spares.kind j inside).symm
      · exact (one.span j).trans (spares.span j inside).symm
      · by_cases held : K j slot
        · obtain ⟨low, free⟩ := (comments j slot).1 held
          have there := two.comments j slot free
          rw [shift_old low] at there ⊢
          rw [spares'.comments j (size' ▸ Nat.lt_of_lt_of_le low (Nat.le_add_right n b)) slot free]
          exact Comment.forall₂_symm there
        · rw [spares.comments j inside slot held]
          exact one.comments j slot held
    · have inside : i < right.nodes.size := size' ▸ lt
      have new : ¬ D i := fun h => absurd ((links i).2 h) (Nat.not_lt_of_le ge)
      rw [exchange_shift lt]
      refine ⟨?_, ?_, ?_, ?_, fun slot => ?_⟩
      · exact (spares'.kind i inside).trans (two.kind i).symm
      · exact (spares'.span i inside).trans (two.span i).symm
      · refine (spares'.parent i inside new).trans ?_
        change _ = (both.parent _).map _
        rw [two.parent i new]
        cases link : right.parent i with
        | none => rfl
        | some p => exact congrArg some (exchange_shift (size' ▸ linked'.parent_lt link)).symm
      · refine (spares'.children i inside new).trans ?_
        change _ = (both.children _).map _
        rw [two.children i new, map_exchange_shift fun c hc => size' ▸ linked'.child_lt hc]
      · have free : ¬ J i slot := fun h => absurd ((comments i slot).2 h) (Nat.not_lt_of_le ge)
        rw [spares'.comments i inside slot free]
        exact Comment.forall₂_symm (two.comments i slot free)
    · rw [exchange_far ge, node_of_size_le both (sizes ▸ ge),
        node_of_size_le both' (by rw [equal]; exact sizes ▸ ge)]
      exact .of_fixed nofun nofun
  refine ⟨one.eol.trans spares.eol.symm, equal, fun j lt => ?_, fun j ge => exchange_far (sizes ▸ ge),
    exchange_injective n a b, node⟩
  have low : j < n := Nat.lt_of_lt_of_le lt old
  rw [exchange_front (Nat.lt_of_lt_of_le low (Nat.le_add_right n a)), shift_old low]

end Swap

end Document
end Quell
