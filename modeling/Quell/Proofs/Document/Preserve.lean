import Quell.Proofs.Document.Edits
import Quell.Proofs.Document.Sound

/-!
Edits of sound documents are sound.

One lemma says it of a change of comments and one of a splice; the second one asks for the node that
was spliced and for the new nodes, and each kind of splice answers for itself.
-/
namespace Quell

@[simp] theorem Node.comments_setComments (n : Node) (slot slot' : Slot) (cs : List Comment) :
    (n.setComments slot cs).comments slot' = if slot' = slot then cs else n.comments slot' := by
  cases slot <;> cases slot' <;> rfl

namespace Document

open Text Relation

section Comments

variable {doc : Document} {id : NodeId} {slot : Slot} {cs : List Comment}

/-- Other comments in one slot: the tree is the same. -/
theorem tree_setComments (j : NodeId) :
    (doc.update id (·.setComments slot cs)).kind j = doc.kind j ∧
    (doc.update id (·.setComments slot cs)).span j = doc.span j ∧
    (doc.update id (·.setComments slot cs)).children j = doc.children j ∧
    (doc.update id (·.setComments slot cs)).parent j = doc.parent j := by
  unfold kind span children parent
  rw [node_update]
  split
  · rename_i h
    rw [h.1]
    cases slot <;> exact ⟨rfl, rfl, rfl, rfl⟩
  · exact ⟨rfl, rfl, rfl, rfl⟩

theorem comments_update (valid : id < doc.nodes.size) (j : NodeId) (slot' : Slot) :
    ((doc.update id (·.setComments slot cs)).node j).comments slot' =
      if j = id ∧ slot' = slot then cs else (doc.node j).comments slot' := by
  rw [node_update]
  by_cases same : j = id
  · subst same
    rw [if_pos ⟨rfl, valid⟩, Node.comments_setComments]
    simp
  · rw [if_neg fun h => same h.1, if_neg fun h => same h.1]

end Comments

/-- Two documents with the same links have the same tree. -/
theorem Linked.of_same {doc doc' : Document} (linked : doc.Linked)
    (children : ∀ j, doc'.children j = doc.children j) (parent : ∀ j, doc'.parent j = doc.parent j) :
    doc'.Linked := by
  have holds : doc'.Holds = doc.Holds := by
    funext p c
    unfold Holds
    rw [children]
  refine ⟨fun p c => ?_, fun p => ?_, fun id => ?_⟩
  · rw [children, parent]
    exact linked.agree p c
  · rw [children]
    exact linked.nodup p
  · rw [holds]
    exact linked.acyclic id

theorem reaches_of_same {doc doc' : Document} (children : ∀ j, doc'.children j = doc.children j)
    {id : NodeId} : doc'.Reaches id ↔ doc.Reaches id := by
  have holds : doc'.Holds = doc.Holds := by
    funext p c
    unfold Holds
    rw [children]
  unfold Reaches Below
  rw [holds]

theorem appendComment_eq (doc : Document) (id : NodeId) (slot : Slot) (c : Comment) :
    doc.appendComment id slot c =
      doc.update id (·.setComments slot ((doc.node id).comments slot ++ [c])) :=
  doc.update_congr id rfl

theorem comments_appendComment {doc : Document} {id : NodeId} (valid : id < doc.nodes.size) (slot : Slot)
    (c : Comment) (j : NodeId) (slot' : Slot) :
    ((doc.appendComment id slot c).node j).comments slot' =
      if j = id ∧ slot' = slot then (doc.node id).comments slot ++ [c]
      else (doc.node j).comments slot' := by
  rw [appendComment_eq, comments_update valid]

theorem reaches_appendComment {doc : Document} {id j : NodeId} {slot : Slot} {c : Comment} :
    (doc.appendComment id slot c).Reaches j ↔ doc.Reaches j := by
  rw [appendComment_eq]
  exact reaches_of_same fun j => (tree_setComments j).2.2.1

/-- Comments of a node that can carry some may change, as long as no new span comes in and a markup
comment that was put in keeps a directive. -/
theorem Sound.setComments {source : Text} {doc : Document} (sound : doc.Sound source)
    {id : NodeId} (reached : doc.Reaches id) (solid : doc.text? id = none) {slot : Slot}
    {cs : List Comment} (spans : ∀ c' ∈ cs, ∀ s, c'.span = some s →
      ∃ c ∈ (doc.node id).comments slot, c.span = some s)
    (safe : doc.span id = none → doc.kind id = .empty ∨ doc.kind id = .emptyHole ∧
      slot = .inner ∧ ∃ c', cs = [c'] ∧ c'.span = none ∧
        (Directive.parse? c'.text).isSome = true) :
    (doc.update id (·.setComments slot cs)).Sound source := by
  have valid := sound.reaches_lt reached
  have tree := @tree_setComments doc id slot cs
  have comments := @comments_update doc id slot cs valid
  generalize hd : doc.update id (·.setComments slot cs) = doc' at tree comments ⊢
  have reach : ∀ {j : NodeId}, doc'.Reaches j ↔ doc.Reaches j :=
    reaches_of_same fun j => (tree j).2.2.1
  have other : ∀ j, j ≠ id → doc'.node j = doc.node j := by
    intro j ne
    rw [← hd, node_update_ne _ ne]
  have remark : ∀ j slot', ∀ c' ∈ (doc'.node j).comments slot', ∀ s, c'.span = some s →
      ∃ c ∈ (doc.node j).comments slot', c.span = some s := by
    intro j slot' c' hc' s hs
    rw [comments] at hc'
    split at hc'
    · rename_i h
      obtain ⟨rfl, rfl⟩ := h
      exact spans c' hc' s hs
    · exact ⟨c', hc', hs⟩
  have agrees : ∀ j, doc.Reaches j → doc.Agrees doc' j := by
    intro j hj
    refine ⟨by rw [← hd, eol_update], (tree j).1, (tree j).2.1, (tree j).2.2.1, remark j, ?_,
      fun c _ => ⟨(tree c).1, (tree c).2.1⟩, fun c _ _ => (tree c).2.2.1, ?_⟩
    · intro t ht slot'
      rw [other j fun e => by rw [e, solid] at ht; cases ht]
    · intro markup c hc
      -- A part of an arrangement is no node whose comments can change, but its slot may be.
      have ne : doc.span c = none → c ≠ id := by
        rintro spanless rfl
        rcases ((sound.each j hj).arranged markup).part hc spanless with h | h | h
        · rcases safe spanless with e | ⟨e, -, -⟩ <;> rw [h.kind_eq] at e <;> cases e
        · obtain ⟨_, text, -, -⟩ := h.text?_eq
          rw [text] at solid
          cases solid
        · obtain ⟨_, text, -, -, -⟩ := h.text?_eq
          rw [text] at solid
          cases solid
      refine ⟨(tree c).1, (tree c).2.1, fun h => other c (ne h), fun note => ?_⟩
      have ne := ne note.span_eq
      obtain ⟨p, e, k, node, slotnode, kspan, parses⟩ := note
      by_cases he : e = id
      · subst he
        have spanless' : doc.span e = none := by unfold span; rw [slotnode]
        have kind' : doc.kind e = .emptyHole := by unfold kind; rw [slotnode]
        rcases safe spanless' with h | ⟨-, rfl, c', rfl, cspan, cparse⟩
        · rw [kind'] at h
          cases h
        · refine ⟨p, e, c', by rw [other c ne, node], ?_, cspan, cparse⟩
          rw [← hd, node_update_self _ valid, slotnode]
          rfl
      · exact ⟨p, e, k, by rw [other c ne, node], by rw [other e he, slotnode], kspan, parses⟩
  refine ⟨sound.linked.of_same (fun j => (tree j).2.2.1) fun j => (tree j).2.2.2, ?_, ?_, ?_, ?_,
    fun j hj => (agrees j (reach.mp hj)).nodeOk (sound.each j (reach.mp hj)), ?_⟩
  · rw [← hd, size_update]
    exact sound.root_lt
  · rw [(tree root).1]
    exact sound.root_kind
  · rw [(tree root).2.1]
    exact sound.root_span
  · rw [(tree root).2.2.2]
    exact sound.root_parent
  · have known : ∀ s, doc'.RemarkAt s → doc.RemarkAt s := by
      rintro s ⟨j, slot', c', hj, hc', hs⟩
      obtain ⟨c, hc, hcs⟩ := remark j slot' c' hc' s hs
      exact ⟨j, slot', c, reach.mp hj, hc, hcs⟩
    exact fun s t hs ht => sound.apart s t (known s hs) (known t ht)

section Splice

variable {source : Text} {doc doc' : Document} {p : NodeId} {A B N C : List NodeId}

/-- A splice leaves alone what does not leave. -/
theorem Splice.keeps (splice : doc.Splice doc' p A B N C) (linked : doc.Linked)
    (spanned : doc.span p ≠ none) {c : NodeId} (lt : c < doc.nodes.size) (stays : c ∉ B) :
    doc.Keeps doc' c := by
  obtain ⟨kind, span, -⟩ := splice.content lt
  have node : doc.span c = none → doc'.node c = doc.node c := fun spanless =>
    splice.rest c lt (fun e => spanned (e ▸ spanless)) stays
  refine ⟨kind, span, node, fun note => ?_⟩
  have spanless := note.span_eq
  obtain ⟨r, e, k, hole, slot, kspan, parses⟩ := note
  have holds : doc.Holds c e := by
    unfold Holds children
    rw [hole]
    simp
  have ne : e ≠ p := fun h => spanned (by
    unfold Document.span
    rw [← h, slot])
  have stays' : e ∉ B := fun hb => by
    have := linked.parent_unique holds (splice.holds_of_mem hb)
    exact spanned (this ▸ spanless)
  exact ⟨r, e, k, by rw [node spanless, hole],
    by rw [splice.rest e (linked.child_lt holds) ne stays', slot], kspan, parses⟩

theorem Splice.agrees (splice : doc.Splice doc' p A B N C) (linked : doc.Linked)
    (spanned : doc.span p ≠ none) {q : NodeId} (lt : q < doc.nodes.size) (ne : q ≠ p) :
    doc.Agrees doc' q := by
  obtain ⟨kind, span, comments⟩ := splice.content lt
  have keeps : ∀ c, doc.Holds q c → doc.Keeps doc' c := fun c hc =>
    splice.keeps linked spanned (linked.child_lt hc) fun hb =>
      ne (linked.parent_unique hc (splice.holds_of_mem hb))
  refine ⟨splice.eol, kind, span, splice.children_rest lt ne, ?_, fun t _ => comments, ?_, ?_,
    fun _ => keeps⟩
  · intro slot c' hc' s hs
    rw [comments] at hc'
    exact ⟨c', hc', hs⟩
  · exact fun c hc => ⟨(keeps c hc).kind, (keeps c hc).span⟩
  · intro c hc spanless
    unfold children
    rw [(keeps c hc).node spanless]

/-- A splice is sound if the node with the new child list and the new nodes are. -/
theorem Sound.splice (sound : doc.Sound source) (splice : doc.Splice doc' p A B N C)
    (spanned : doc.span p ≠ none) (here : doc'.NodeOk source p)
    (new : ∀ j, doc.nodes.size ≤ j → doc'.Reaches j → doc'.NodeOk source j ∧
      ∀ slot, ∀ c ∈ (doc'.node j).comments slot, c.span = none) : doc'.Sound source := by
  have root_old := splice.content sound.root_lt
  have root_stays : root ∉ B := fun hb => sound.ne_root_of_holds (splice.holds_of_mem hb) rfl
  refine ⟨splice.linked' sound.linked, Nat.lt_of_lt_of_le sound.root_lt splice.grows, ?_, ?_, ?_,
    ?_, ?_⟩
  · rw [root_old.1]
    exact sound.root_kind
  · rw [root_old.2.1]
    exact sound.root_span
  · rw [splice.parent_rest sound.root_lt root_stays]
    exact sound.root_parent
  · intro id reached
    rcases Nat.lt_or_ge id doc.nodes.size with lt | ge
    · by_cases ne : id = p
      · exact ne ▸ here
      · exact (splice.agrees sound.linked spanned lt ne).nodeOk
          (sound.each id (splice.reaches_old sound.linked reached lt).1)
    · exact (new id ge reached).1
  · have known : ∀ s, doc'.RemarkAt s → doc.RemarkAt s := by
      rintro s ⟨j, slot, c, reached, hc, hs⟩
      rcases Nat.lt_or_ge j doc.nodes.size with lt | ge
      · rw [(splice.content lt).2.2] at hc
        exact ⟨j, slot, c, (splice.reaches_old sound.linked reached lt).1, hc, hs⟩
      · rw [(new j ge reached).2 slot c hc] at hs
        cases hs
    exact fun s t hs ht => sound.apart s t (known s hs) (known t ht)

theorem Splice.nodeOk_here (splice : doc.Splice doc' p A B N C) (linked : doc.Linked)
    (ok : doc.NodeOk source p) (markup : (doc.kind p).hasMarkupChildren = true)
    (valid : p < doc.nodes.size)
    (nested : ∀ s n t, doc.span p = some s → n ∈ N → doc'.span n = some t → s.lo ≤ t.lo ∧ t.hi ≤ s.hi)
    (ordered : (A ++ N ++ C).Pairwise fun a b =>
      ∀ s t, doc'.span a = some s → doc'.span b = some t → s.hi ≤ t.lo)
    (arranged : doc'.Arranged p) : doc'.NodeOk source p := by
  obtain ⟨kind, span, comments⟩ := splice.content valid
  constructor
  · rw [span]
    exact ok.fits
  · intro s c t hs hc ht
    rw [span] at hs
    by_cases new : c ∈ N
    · exact nested s c t hs new ht
    · have old : doc.Holds p c := by
        unfold Holds at hc ⊢
        rw [splice.children_here] at hc
        rw [splice.split]
        simp only [List.mem_append] at hc ⊢
        rcases hc with (h | h) | h
        · exact .inl (.inl h)
        · exact absurd h new
        · exact .inr h
      rw [(splice.content (linked.child_lt old)).2.1] at ht
      exact ok.nested s c t hs old ht
  · rw [splice.children_here]
    exact ordered
  · intro t ht
    rw [text?_of_markup (by rw [kind]; exact markup)] at ht
    cases ht
  · intro _ _ _ _
    rw [kind]
    exact markup
  · intro slot c hc
    rw [comments] at hc
    exact ok.remarks slot c hc
  · intro c _ _
    refine .inl ?_
    rw [kind]
    exact markup
  · exact fun _ => arranged

end Splice

theorem Sound.ghost_kind {source : Text} {doc : Document} (sound : doc.Sound source) {id : NodeId}
    (reached : doc.Reaches id) (spanless : doc.span id = none) :
    doc.kind id = .empty ∨ doc.kind id = .emptyHole ∨ doc.kind id = .hole ∨
      ∃ t, doc.text? id = some t := by
  rcases ReflTransGen.cases_tail reached with rfl | ⟨p, hp, hold⟩
  · exact absurd spanless sound.root_span
  · have ok := sound.each p hp
    rcases ok.ghosts id hold spanless with markup | ⟨-, -, kind, -⟩ | ⟨-, -, kind, -⟩
    · rcases (ok.arranged markup).part hold spanless with note | gap | lead
      · exact .inr (.inr (.inl note.kind_eq))
      · obtain ⟨indent, text, -, -⟩ := gap.text?_eq
        exact .inr (.inr (.inr ⟨_, text⟩))
      · obtain ⟨blanks, text, -, -, -⟩ := lead.text?_eq
        exact .inr (.inr (.inr ⟨_, text⟩))
    · exact .inl kind
    · exact .inr (.inl kind)

theorem nodeOk_of_leaf {source : Text} {doc : Document} {j : NodeId}
    (spanless : doc.span j = none) (leaf : doc.children j = [])
    (plain : (doc.kind j).hasMarkupChildren = false)
    (silent : ∀ slot, ∀ c ∈ (doc.node j).comments slot, c.span = none)
    (quiet : ∀ t, doc.text? j = some t → ∀ slot, (doc.node j).comments slot = []) :
    doc.NodeOk source j where
  fits s hs := by rw [spanless] at hs; cases hs
  nested s c t hs := by rw [spanless] at hs; cases hs
  ordered := by rw [leaf]; exact List.Pairwise.nil
  text t ht := ⟨leaf, quiet t ht, fun s hs => by rw [spanless] at hs; cases hs⟩
  texts c t hc := by unfold Holds at hc; rw [leaf] at hc; cases hc
  remarks slot c hc s hs := by rw [silent slot c hc] at hs; cases hs
  ghosts c hc := by unfold Holds at hc; rw [leaf] at hc; cases hc
  arranged markup := by rw [plain] at markup; cases markup

/-- A placeholder in an empty block. -/
theorem Sound.addPlaceholder {source : Text} {doc : Document} (sound : doc.Sound source)
    {block : NodeId} (reached : doc.Reaches block) (kind : doc.kind block = .block)
    (empty : doc.children block = []) : (doc.addPlaceholder block).1.Sound source := by
  have valid := sound.reaches_lt reached
  obtain ⟨splice, size, node⟩ := addPlaceholder_spec valid
  generalize (doc.addPlaceholder block).1 = doc' at splice size node ⊢
  have spanned : doc.span block ≠ none := by
    intro spanless
    rcases sound.ghost_kind reached spanless with h | h | h | ⟨t, h⟩
    · rw [kind] at h
      cases h
    · rw [kind] at h
      cases h
    · rw [kind] at h
      cases h
    · unfold text? at h
      rw [kind] at h
      cases h
  obtain ⟨kind', span', comments'⟩ := splice.content valid
  have children' : doc'.children block = [doc.nodes.size] := by
    rw [splice.children_here, empty]
    rfl
  have only : ∀ c, doc'.Holds block c → c = doc.nodes.size := by
    intro c hc
    unfold Holds at hc
    rw [children'] at hc
    exact List.mem_singleton.mp hc
  have new_span : doc'.span doc.nodes.size = none := by unfold span; rw [node]
  have new_kind : doc'.kind doc.nodes.size = .empty := by unfold Document.kind; rw [node]
  have new_leaf : doc'.children doc.nodes.size = [] := by unfold children; rw [node]
  have ok := sound.each block reached
  refine sound.splice splice spanned ?_ ?_
  · constructor
    · rw [span']
      exact ok.fits
    · intro s c t hs hc ht
      rw [only c hc, new_span] at ht
      cases ht
    · rw [children']
      exact List.pairwise_singleton _ _
    · intro t ht
      unfold text? at ht
      rw [kind', kind] at ht
      cases ht
    · intro c t hc ht
      unfold text? at ht
      rw [only c hc, new_kind] at ht
      cases ht
    · intro slot c hc
      rw [comments'] at hc
      exact ok.remarks slot c hc
    · intro c hc _
      rw [only c hc]
      exact .inr (.inl ⟨by rw [kind', kind], children', new_kind, new_leaf⟩)
    · intro markup
      rw [kind', kind] at markup
      cases markup
  · intro j new reached'
    have j_eq : j = doc.nodes.size := by
      rcases splice.reaches_new sound.linked sound.root_lt reached' new with h | ⟨q, hq, -, hold⟩
      · exact List.mem_singleton.mp h
      · have lt := Holds.parent_lt hold
        rw [size] at lt
        have q_eq : q = doc.nodes.size := Nat.le_antisymm (Nat.le_of_lt_succ lt) hq
        unfold Holds at hold
        rw [q_eq, new_leaf] at hold
        cases hold
    subst j_eq
    have silent : ∀ slot, (doc'.node doc.nodes.size).comments slot = [] := by
      intro slot
      rw [node]
      cases slot <;> rfl
    refine ⟨nodeOk_of_leaf new_span new_leaf (by rw [new_kind]; rfl) ?_ fun t _ => silent, ?_⟩
    · intro slot c hc
      rw [silent] at hc
      cases hc
    · intro slot c hc
      rw [silent] at hc
      cases hc

theorem fragmentSpan_fits {source pre part post : Text} {s : Span} (fits : s.Fits source)
    (value : slice? s.lo s.hi source = some (pre ++ part ++ post)) :
    (fragmentSpan s pre part).Fits source ∧
    slice? (fragmentSpan s pre part).lo (fragmentSpan s pre part).hi source = some part ∧
    s.lo ≤ (fragmentSpan s pre part).lo ∧ (fragmentSpan s pre part).hi ≤ s.hi := by
  have here := slice?_part value
  have front : slice? s.lo (s.lo + bytes pre) source = some pre := by
    have := slice?_part (x := []) (y := pre) (z := part ++ post) (by simpa using value)
    simpa using this
  obtain ⟨lo, hi, le⟩ := slice?_cuts here
  have long := slice?_bytes value
  simp only [bytes_append] at long
  refine ⟨⟨le, lo, hi, ?_, ?_⟩, here, Nat.le_add_right _ _, ?_⟩
  · show s.startLine + pre.breaks = _
    rw [fits.startLine]
    exact (lineOf_slice front).symm
  · show s.startLine + pre.breaks + part.breaks = _
    rw [fits.startLine, ← lineOf_slice front]
    exact (lineOf_slice here).symm
  · show s.lo + pre.bytes + part.bytes ≤ s.hi
    omega

theorem sublist_right {z : NodeId} {zs L R : List NodeId} (hz : z ∉ L)
    (h : (z :: zs).Sublist (L ++ R)) : (z :: zs).Sublist R := by
  obtain ⟨l₁, l₂, e, hl₁, hl₂⟩ := List.sublist_append_iff.mp h
  cases l₁ with
  | nil =>
    rw [e]
    exact hl₂
  | cons m ms =>
    cases e
    exact absurd (hl₁.subset (by simp)) hz

theorem sublist_last {x b z : NodeId} {init : List NodeId} (ne : b ≠ z)
    (h : [x, b].Sublist (init ++ [z])) : [x, b, z].Sublist (init ++ [z]) := by
  obtain ⟨l₁, l₂, e, hl₁, hl₂⟩ := List.sublist_append_iff.mp h
  have none : l₂ = [] := by
    rcases List.eq_nil_or_concat l₂ with h | ⟨m, c, rfl⟩
    · exact h
    · rw [List.concat_eq_append] at e hl₂
      have last : c = b := by
        have := congrArg List.getLast? e
        rw [← List.append_assoc, List.getLast?_concat] at this
        simpa using this.symm
      have : c = z := List.mem_singleton.mp (hl₂.subset (by simp))
      exact absurd (last.symm.trans this) ne
  rw [none, List.append_nil] at e
  subst e
  exact hl₁.append (List.Sublist.refl [z])

theorem sublist_before {x b y i : NodeId} {X N Z : List NodeId} (hx : x ∉ N) (hb : b ∉ N)
    (sub : [x, b, y].Sublist (X ++ N ++ Z)) : ∃ y', [x, b, y'].Sublist (X ++ i :: Z) := by
  rw [List.append_assoc, List.sublist_append_iff] at sub
  obtain ⟨l₁, l₂, split, hl₁, hl₂⟩ := sub
  match l₁, split with
  | [], split =>
    rw [List.nil_append] at split
    subst split
    exact ⟨y, ((sublist_right hx hl₂).cons i).trans (List.sublist_append_right _ _)⟩
  | [_], split =>
    cases split
    exact ⟨y, hl₁.append ((sublist_right hb hl₂).cons i)⟩
  | _ :: _ :: ms, split =>
    simp only [List.cons_append, List.cons.injEq] at split
    obtain ⟨rfl, rfl, -⟩ := split
    have front : [x, b].Sublist X := List.Sublist.trans (by simp) hl₁
    have back : [i].Sublist (i :: Z) := by simp
    exact ⟨i, front.append back⟩

section Recut

variable {source : Text} {doc doc' : Document} {p id : NodeId} {A C : List NodeId}
variable {parts : List Text} {s : Span}

/-- What a cut text gives: a text with a span inside the old one. -/
theorem Recut.fragment (recut : doc.Recut doc' p A id C parts) (ok : doc.NodeOk source id)
    (span : doc.span id = some s) {j : NodeId}
    (h : j ∈ List.range' doc.nodes.size parts.length) :
    ∃ i t, j = doc.nodes.size + i ∧ parts[i]? = some t ∧
      doc'.node j = { kind := .text t, span := some (fragmentSpan s (parts.take i).flatten t),
                      parent := some p } ∧
      (fragmentSpan s (parts.take i).flatten t).Fits source ∧
      slice? (fragmentSpan s (parts.take i).flatten t).lo
        (fragmentSpan s (parts.take i).flatten t).hi source = some t ∧
      s.lo ≤ (fragmentSpan s (parts.take i).flatten t).lo ∧
      (fragmentSpan s (parts.take i).flatten t).hi ≤ s.hi := by
  obtain ⟨i, t, rfl, found, node⟩ := recut.mem_part h
  have value := (ok.text _ recut.value).2.2 s span
  rw [flatten_around found] at value
  obtain ⟨fits, slice, lo, hi⟩ := fragmentSpan_fits (ok.fits s span) value
  refine ⟨i, t, rfl, found, ?_, fits, slice, lo, hi⟩
  rw [node, span]
  rfl

theorem Recut.nodeOk_new (recut : doc.Recut doc' p A id C parts) (ok : doc.NodeOk source id)
    (span : doc.span id = some s) {j : NodeId}
    (h : j ∈ List.range' doc.nodes.size parts.length) :
    doc'.NodeOk source j ∧ ∀ slot, (doc'.node j).comments slot = [] := by
  obtain ⟨i, t, -, -, node, fits, slice, -, -⟩ := recut.fragment ok span h
  have leaf : doc'.children j = [] := by unfold children; rw [node]
  have kind' : doc'.kind j = .text t := by unfold kind; rw [node]
  have span' : doc'.span j = some (fragmentSpan s (parts.take i).flatten t) := by
    unfold Document.span
    rw [node]
  have silent : ∀ slot, (doc'.node j).comments slot = [] := by
    intro slot
    rw [node]
    cases slot <;> rfl
  refine ⟨?_, silent⟩
  constructor
  · intro r hr
    rw [span'] at hr
    exact Option.some.inj hr ▸ fits
  · intro r c u _ hc
    unfold Holds at hc
    rw [leaf] at hc
    cases hc
  · rw [leaf]
    exact List.Pairwise.nil
  · intro u hu
    unfold text? at hu
    rw [kind'] at hu
    cases hu
    refine ⟨leaf, silent, fun r hr => ?_⟩
    rw [span'] at hr
    exact Option.some.inj hr ▸ slice
  · intro c u hc
    unfold Holds at hc
    rw [leaf] at hc
    cases hc
  · intro slot c hc
    rw [silent] at hc
    cases hc
  · intro c hc
    unfold Holds at hc
    rw [leaf] at hc
    cases hc
  · intro markup
    rw [kind'] at markup
    cases markup

/-- The children of an element after one of its texts was cut. -/
theorem Recut.arranged (recut : doc.Recut doc' p A id C parts) (sound : doc.Sound source)
    (reached : doc.Reaches p) (markup : (doc.kind p).hasMarkupChildren = true)
    (span : doc.span id = some s) (settled : ∀ t ∈ parts, Settled t) : doc'.Arranged p := by
  have ok := sound.each p reached
  have hold : doc.Holds p id := recut.splice.holds_of_mem (by simp)
  have ok_id := sound.each id (reached.child hold)
  obtain ⟨s', hs', -, -⟩ := sound.parent_span reached hold span
  have spanned : doc.span p ≠ none := by
    rw [hs']
    exact Option.some_ne_none s'
  have split : doc.children p = A ++ id :: C := by rw [recut.splice.split]; simp
  have nodup := sound.linked.nodup p
  obtain ⟨o, X, Y, tail, closing, rfl, rfl, layout, front, back, tails, tidy⟩ :=
    (ok.arranged markup).place nodup split (by rw [span]; exact Option.some_ne_none s)
      (plain_of_text recut.value)
  have new : ∀ j ∈ List.range' doc.nodes.size parts.length,
      doc'.span j ≠ none ∧ doc'.Whole j ∧
        doc'.kind j ≠ .openingTag ∧ doc'.kind j ≠ .closingTag := by
    intro j hj
    obtain ⟨i, t, -, found, node, -, -, -, -⟩ := recut.fragment ok_id span hj
    have text : doc'.text? j = some t := text?_of_node node rfl
    refine ⟨?_, ?_, plain_of_text text⟩
    · unfold Document.span
      rw [node]
      exact Option.some_ne_none _
    · intro u hu
      rw [text] at hu
      exact Option.some.inj hu ▸ settled t (List.mem_of_getElem? found)
  have children' := recut.splice.children_here
  have split_new : doc'.children p =
      o :: ((X ++ List.range' doc.nodes.size parts.length ++ Y) ++ tail ++ closing) := by
    rw [children']
    simp
  have keeps : ∀ x, x ∈ (o :: X) ++ ((Y ++ tail) ++ closing) → doc.Keeps doc' x := by
    intro x hx
    have held : doc.Holds p x := by
      unfold Holds
      rw [split]
      rcases List.mem_append.mp hx with h | h
      · exact List.mem_append_left _ h
      · exact List.mem_append_right _ (List.mem_cons_of_mem _ h)
    refine recut.splice.keeps sound.linked spanned (sound.linked.child_lt held) ?_
    intro e
    rw [split] at nodup
    have apart := List.nodup_middle.mp nodup
    exact (List.nodup_cons.mp apart).1 (List.mem_singleton.mp e ▸ hx)
  generalize List.range' doc.nodes.size parts.length = N at new split_new
  refine ⟨o, X ++ N ++ Y, tail, closing, layout.transport split_new ?_ ?_, ?_, ?_, ?_⟩
  · intro x hx
    rcases List.mem_cons.mp hx with rfl | hx
    · exact keeps x (by simp)
    · exact keeps x (by simp [hx])
  · intro i hi
    by_cases hN : i ∈ N
    · exact (new i hN).2.2
    · have old : i ∈ (o :: X) ++ ((Y ++ tail) ++ closing) := by
        simp only [List.mem_append] at hi
        rcases hi with ((h | h) | h) | h
        · simp [h]
        · exact absurd h hN
        · simp [h]
        · simp [h]
      rw [(keeps i old).kind]
      refine layout.items i ?_
      simp only [List.mem_append] at hi
      rcases hi with ((h | h) | h) | h
      · simp [h]
      · exact absurd h hN
      · simp [h]
      · simp [h]
  · have rows_new : ∀ {xs : List NodeId}, (∀ x ∈ xs, doc'.span x ≠ none) → doc'.Rows xs := by
      intro xs hxs
      induction xs with
      | nil => exact .nil
      | cons x xs ih => exact .own (hxs x (by simp)) (ih fun y hy => hxs y (by simp [hy]))
    refine Rows.append (Rows.append ?_ (rows_new fun x hx => (new x hx).1)) ?_
    · exact front.transport recut.splice.eol fun x hx => keeps x (by simp [hx])
    · exact back.transport recut.splice.eol fun x hx => keeps x (by simp [hx])
  · exact tails.transport recut.splice.eol fun x hx => keeps x (by simp [hx])
  · intro x b y sub gap
    by_cases hx : x ∈ N
    · exact (new x hx).2.1
    · have hb : b ∉ N := fun h => (new b h).1 gap.span_eq
      rw [List.append_assoc (X ++ N) Y tail] at sub
      obtain ⟨y', sub'⟩ := sublist_before (i := id) hx hb sub
      have known : ∀ z, z ∉ N → z ∈ X ++ N ++ (Y ++ tail) → doc.Keeps doc' z := by
        intro z hz mem
        simp only [List.mem_append] at mem
        rcases mem with (h | h) | h | h
        · exact keeps z (by simp [h])
        · exact absurd h hz
        · exact keeps z (by simp [h])
        · exact keeps z (by simp [h])
      refine (known x hx (sub.subset (by simp))).whole (tidy x b y' (by simpa using sub') ?_)
      exact ((known b hb (sub.subset (by simp))).gap_iff recut.splice.eol).mp gap

/-- Cutting a text into settled parts. -/
theorem Sound.recut (sound : doc.Sound source) (recut : doc.Recut doc' p A id C parts)
    (reached : doc.Reaches p) (markup : (doc.kind p).hasMarkupChildren = true)
    (span : doc.span id = some s) (settled : ∀ t ∈ parts, Settled t) : doc'.Sound source := by
  have ok := sound.each p reached
  have hold : doc.Holds p id := recut.splice.holds_of_mem (by simp)
  have ok_id := sound.each id (reached.child hold)
  obtain ⟨s', hs', inside⟩ := sound.parent_span reached hold span
  have spanned : doc.span p ≠ none := by
    rw [hs']
    exact Option.some_ne_none s'
  have old_span : ∀ c, c ∈ A ++ [id] ++ C → doc'.span c = doc.span c := by
    intro c hc
    refine (recut.splice.content (sound.linked.child_lt (p := p) ?_)).2.1
    unfold Holds
    rw [recut.splice.split]
    exact hc
  have ordered := ok.ordered
  rw [recut.splice.split] at ordered
  refine sound.splice recut.splice spanned ?_ ?_
  · refine recut.splice.nodeOk_here sound.linked ok markup hold.parent_lt ?_ ?_
      (recut.arranged sound reached markup span settled)
    · intro r n t hr hn ht
      obtain ⟨i, u, -, -, node, -, -, lo, hi⟩ := recut.fragment ok_id span hn
      unfold Document.span at ht
      rw [node] at ht
      cases ht
      rw [hs'] at hr
      cases hr
      omega
    · have frag : ∀ n ∈ List.range' doc.nodes.size parts.length, ∀ t, doc'.span n = some t →
          s.lo ≤ t.lo ∧ t.hi ≤ s.hi := by
        intro n hn t ht
        obtain ⟨i, u, -, -, node, -, -, lo, hi⟩ := recut.fragment ok_id span hn
        unfold Document.span at ht
        rw [node] at ht
        cases ht
        exact ⟨lo, hi⟩
      obtain ⟨left, hC, across⟩ := List.pairwise_append.mp ordered
      obtain ⟨hA, -, before⟩ := List.pairwise_append.mp left
      refine List.pairwise_append.mpr ⟨List.pairwise_append.mpr ⟨?_, ?_, ?_⟩, ?_, ?_⟩
      · refine hA.imp_of_mem fun {a b} ha hb h r t hr ht => ?_
        rw [old_span a (by simp [ha])] at hr
        rw [old_span b (by simp [hb])] at ht
        exact h r t hr ht
      · exact recut.sorted
      · intro a ha n hn r t hr ht
        rw [old_span a (by simp [ha])] at hr
        have := before a ha id (by simp) r s hr span
        have := (frag n hn t ht).1
        omega
      · refine hC.imp_of_mem fun {a b} ha hb h r t hr ht => ?_
        rw [old_span a (by simp [ha])] at hr
        rw [old_span b (by simp [hb])] at ht
        exact h r t hr ht
      · intro a ha c hc r t hr ht
        rw [old_span c (by simp [hc])] at ht
        rcases List.mem_append.mp ha with ha | ha
        · rw [old_span a (by simp [ha])] at hr
          exact across a (by simp [ha]) c hc r t hr ht
        · have := across id (by simp) c hc s t span ht
          have := (frag a ha r hr).2
          omega
  · intro j new reached'
    have mem : j ∈ List.range' doc.nodes.size parts.length := by
      rcases recut.splice.reaches_new sound.linked sound.root_lt reached' new with h | ⟨q, hq, -, h⟩
      · exact h
      · have lt := Holds.parent_lt h
        rw [recut.size] at lt
        obtain ⟨i, t, -, -, node, -, -, -, -⟩ :=
          recut.fragment ok_id span (List.mem_range'_1.mpr ⟨hq, lt⟩)
        unfold Holds children at h
        rw [node] at h
        cases h
    obtain ⟨good, silent⟩ := recut.nodeOk_new ok_id span mem
    refine ⟨good, fun slot c hc => ?_⟩
    rw [silent] at hc
    cases hc

end Recut

section Noted

variable {source : Text} {doc doc' : Document} {p : NodeId} {A C : List NodeId}
variable {lead : Option Text} {body gap : Text}

/-- The nodes that come with a markup comment. -/
theorem Noted.parts (noted : doc.Noted doc' p A C lead body gap)
    (parses : (Directive.parse? body).isSome = true) {indent : Text}
    (hgap : gap = doc.eol.text ++ indent) (blank : allBlank indent = true) (free : '\n' ∉ indent)
    (hlead : ∀ u ∈ lead, u ≠ [] ∧ allBlank u = true ∧ '\n' ∉ u) :
    doc'.Note doc.nodes.size ∧ doc'.Gap (doc.nodes.size + 2 + lead.toList.length) ∧
      ∀ u ∈ lead, doc'.Lead (doc.nodes.size + 2) := by
  refine ⟨⟨some p, doc.nodes.size + 1, noteOf body, noted.hole, noted.slot, rfl, parses⟩,
    ⟨some p, indent, ?_, blank, free⟩, fun u hu => ?_⟩
  · rw [noted.behind, hgap, noted.splice.eol]
  · obtain ⟨ne, blank, free⟩ := hlead u hu
    exact ⟨some p, u, noted.front u hu, ne, blank, free⟩

/-- What is reached and new is one of these nodes. -/
theorem Noted.new (noted : doc.Noted doc' p A C lead body gap) (sound : doc.Sound source)
    {j : NodeId} (fresh : doc.nodes.size ≤ j) (reached : doc'.Reaches j) :
    doc'.NodeOk source j ∧ ∀ slot, ∀ c ∈ (doc'.node j).comments slot, c.span = none := by
  have text_leaf : ∀ {t : Text}, doc'.node j = { kind := .text t, span := none, parent := some p } →
      doc'.NodeOk source j ∧ ∀ slot, ∀ c ∈ (doc'.node j).comments slot, c.span = none := by
    intro t node
    have silent : ∀ slot, (doc'.node j).comments slot = [] := by
      intro slot
      rw [node]
      cases slot <;> rfl
    have none : ∀ slot, ∀ c ∈ (doc'.node j).comments slot, c.span = none := by
      intro slot c hc
      rw [silent] at hc
      cases hc
    refine ⟨nodeOk_of_leaf ?_ ?_ ?_ none fun _ _ => silent, none⟩
    · unfold span
      rw [node]
    · unfold children
      rw [node]
    · unfold kind
      rw [node]
      rfl
  have slot_leaf : j = doc.nodes.size + 1 →
      doc'.NodeOk source j ∧ ∀ slot, ∀ c ∈ (doc'.node j).comments slot, c.span = none := by
    rintro rfl
    have none : ∀ slot, ∀ c ∈ (doc'.node (doc.nodes.size + 1)).comments slot, c.span = none := by
      intro slot c hc
      rw [noted.slot] at hc
      cases slot with
      | inner => rw [List.mem_singleton.mp hc]; rfl
      | _ => cases hc
    refine ⟨nodeOk_of_leaf ?_ ?_ ?_ none ?_, none⟩
    · unfold span
      rw [noted.slot]
    · unfold children
      rw [noted.slot]
    · unfold kind
      rw [noted.slot]
      rfl
    · intro t ht
      unfold text? kind at ht
      rw [noted.slot] at ht
      cases ht
  have hole_ok : j = doc.nodes.size →
      doc'.NodeOk source j ∧ ∀ slot, ∀ c ∈ (doc'.node j).comments slot, c.span = none := by
    rintro rfl
    have kind' : doc'.kind doc.nodes.size = .hole := by unfold kind; rw [noted.hole]
    have span' : doc'.span doc.nodes.size = none := by unfold span; rw [noted.hole]
    have kids : doc'.children doc.nodes.size = [doc.nodes.size + 1] := by
      unfold children
      rw [noted.hole]
    have only : ∀ c, doc'.Holds doc.nodes.size c → c = doc.nodes.size + 1 := by
      intro c hc
      unfold Holds at hc
      rw [kids] at hc
      exact List.mem_singleton.mp hc
    have silent : ∀ slot, (doc'.node doc.nodes.size).comments slot = [] := by
      intro slot
      rw [noted.hole]
      cases slot <;> rfl
    refine ⟨?_, fun slot c hc => by rw [silent] at hc; cases hc⟩
    constructor
    · intro s hs
      rw [span'] at hs
      cases hs
    · intro s c t hs
      rw [span'] at hs
      cases hs
    · rw [kids]
      exact List.pairwise_singleton _ _
    · intro t ht
      unfold text? at ht
      rw [kind'] at ht
      cases ht
    · intro c t hc ht
      unfold text? kind at ht
      rw [only c hc, noted.slot] at ht
      cases ht
    · intro slot c hc
      rw [silent] at hc
      cases hc
    · intro c hc _
      refine .inr (.inr ⟨kind', span', ?_, ?_⟩)
      · unfold kind
        rw [only c hc, noted.slot]
      · unfold children
        rw [only c hc, noted.slot]
    · intro markup
      rw [kind'] at markup
      cases markup
  rcases noted.splice.reaches_new sound.linked sound.root_lt reached fresh with h | ⟨q, hq, -, h⟩
  · cases lead with
    | none =>
      rcases List.mem_pair.mp h with rfl | rfl
      · exact hole_ok rfl
      · exact text_leaf noted.behind
    | some u =>
      simp only [noteIds, List.mem_cons, List.not_mem_nil, or_false] at h
      rcases h with rfl | rfl | rfl
      · exact text_leaf (noted.front u rfl)
      · exact hole_ok rfl
      · exact text_leaf noted.behind
  · -- Of the new nodes only the hole holds one.
    refine slot_leaf ?_
    have lt : q < doc'.nodes.size := Holds.parent_lt h
    rw [noted.size] at lt
    obtain ⟨k, rfl⟩ := Nat.exists_eq_add_of_le hq
    have bound : k < 3 + lead.toList.length := by omega
    unfold Holds children at h
    match k with
    | 0 =>
      rw [Nat.add_zero, noted.hole] at h
      exact List.mem_singleton.mp h
    | 1 =>
      rw [noted.slot] at h
      cases h
    | k + 2 =>
      exfalso
      cases lead with
      | none =>
        have : k = 0 := by simp only [Option.toList_none, List.length_nil] at bound; omega
        subst this
        have node := noted.behind
        simp only [Option.toList_none, List.length_nil, Nat.add_zero] at node
        rw [node] at h
        cases h
      | some u =>
        have : k = 0 ∨ k = 1 := by
          simp only [Option.toList_some, List.length_singleton] at bound
          omega
        rcases this with rfl | rfl
        · have node := noted.front u rfl
          rw [node] at h
          cases h
        · have node := noted.behind
          simp only [Option.toList_some, List.length_singleton] at node
          rw [show doc.nodes.size + (1 + 2) = doc.nodes.size + 2 + 1 by omega, node] at h
          cases h

theorem Noted.spanless (noted : doc.Noted doc' p A C lead body gap) {n : NodeId}
    (h : n ∈ noteIds doc.nodes.size lead) : doc'.span n = none := by
  have hole : doc'.span doc.nodes.size = none := by unfold span; rw [noted.hole]
  cases lead with
  | none =>
    rcases List.mem_pair.mp h with rfl | rfl
    · exact hole
    · exact congrArg Node.span noted.behind
  | some u =>
    simp only [noteIds, List.mem_cons, List.not_mem_nil, or_false] at h
    rcases h with rfl | rfl | rfl
    · unfold span
      rw [noted.front u rfl]
    · exact hole
    · exact congrArg Node.span noted.behind

theorem Sound.span_of_markup (sound : doc.Sound source) (reached : doc.Reaches p)
    (markup : (doc.kind p).hasMarkupChildren = true) : doc.span p ≠ none := by
  intro h
  rcases sound.ghost_kind reached h with h | h | h | ⟨t, h⟩
  · rw [h] at markup
    cases markup
  · rw [h] at markup
    cases markup
  · rw [h] at markup
    cases markup
  · rw [text?_of_markup markup] at h
    cases h

/-- A markup comment among the children of an element. -/
theorem Sound.noted (sound : doc.Sound source) (noted : doc.Noted doc' p A C lead body gap)
    (reached : doc.Reaches p) (markup : (doc.kind p).hasMarkupChildren = true)
    (arranged : doc'.Arranged p) : doc'.Sound source := by
  have ok := sound.each p reached
  have spanned := sound.span_of_markup reached markup
  have splice := noted.splice
  have spanless : ∀ n ∈ noteIds doc.nodes.size lead, doc'.span n = none := fun n => noted.spanless
  generalize noteIds doc.nodes.size lead = N at splice spanless
  have split : doc.children p = A ++ C := by rw [splice.split, List.append_nil]
  have old_span : ∀ c, c ∈ A ++ C → doc'.span c = doc.span c := by
    intro c hc
    refine (splice.content (sound.linked.child_lt (p := p) ?_)).2.1
    unfold Holds
    rw [split]
    exact hc
  have old := ok.ordered
  rw [split] at old
  have ordered := old.imp_of_mem (S := fun a b => ∀ s t, doc'.span a = some s →
      doc'.span b = some t → s.hi ≤ t.lo) fun {a b} ha hb h s t hs ht => by
    rw [old_span a ha] at hs
    rw [old_span b hb] at ht
    exact h s t hs ht
  refine sound.splice splice spanned ?_ fun j fresh reached' => noted.new sound fresh reached'
  refine splice.nodeOk_here sound.linked ok markup (sound.reaches_lt reached) ?_ ?_ arranged
  · intro s n t _ hn ht
    rw [spanless n hn] at ht
    cases ht
  · obtain ⟨hA, hC, across⟩ := List.pairwise_append.mp ordered
    refine List.pairwise_append.mpr ⟨List.pairwise_append.mpr ⟨hA, ?_, ?_⟩, hC, ?_⟩
    · refine List.pairwise_of_forall_mem_list fun a ha b _ s t hs => ?_
      rw [spanless a ha] at hs
      cases hs
    · intro a _ n hn s t _ ht
      rw [spanless n hn] at ht
      cases ht
    · intro a ha c hc s t hs ht
      rcases List.mem_append.mp ha with ha | ha
      · exact across a ha c hc s t hs ht
      · rw [spanless a ha] at hs
        cases hs

theorem Noted.plain (noted : doc.Noted doc' p A C lead body gap) {n : NodeId}
    (h : n ∈ noteIds doc.nodes.size lead) :
    doc'.kind n ≠ .openingTag ∧ doc'.kind n ≠ .closingTag := by
  have hole : doc'.kind doc.nodes.size = .hole := congrArg Node.kind noted.hole
  have hole_plain : doc'.kind doc.nodes.size ≠ .openingTag ∧
      doc'.kind doc.nodes.size ≠ .closingTag := by
    rw [hole]
    exact ⟨nofun, nofun⟩
  cases lead with
  | none =>
    rcases List.mem_pair.mp h with rfl | rfl
    · exact hole_plain
    · exact plain_of_text (text?_of_node noted.behind rfl)
  | some u =>
    simp only [noteIds, List.mem_cons, List.not_mem_nil, or_false] at h
    rcases h with rfl | rfl | rfl
    · exact plain_of_text (text?_of_node (noted.front u rfl) rfl)
    · exact hole_plain
    · exact plain_of_text (text?_of_node noted.behind rfl)

theorem Noted.keeps (noted : doc.Noted doc' p A C lead body gap) (sound : doc.Sound source)
    (reached : doc.Reaches p) (markup : (doc.kind p).hasMarkupChildren = true) {z : NodeId}
    (h : z ∈ A ++ C) : doc.Keeps doc' z := by
  have held : doc.Holds p z := by
    unfold Holds
    rw [noted.splice.split, List.append_nil]
    exact h
  exact noted.splice.keeps sound.linked (sound.span_of_markup reached markup)
    (sound.linked.child_lt held) (by simp)

theorem Noted.arranged_among {x : NodeId} (noted : doc.Noted doc' p A (x :: C) none body gap)
    (sound : doc.Sound source) (reached : doc.Reaches p)
    (markup : (doc.kind p).hasMarkupChildren = true) (spanned : doc.span x ≠ none)
    (plain : doc.kind x ≠ .openingTag ∧ doc.kind x ≠ .closingTag) (whole : ∀ y ∈ A, doc.Whole y)
    (note : doc'.Note doc.nodes.size) (gaps : doc'.Gap (doc.nodes.size + 2)) :
    doc'.Arranged p := by
  have split : doc.children p = A ++ x :: C := by rw [noted.splice.split, List.append_nil]
  obtain ⟨o, X, Y, tail, closing, rfl, rfl, layout, front, back, tails, tidy⟩ :=
    ((sound.each p reached).arranged markup).place (sound.linked.nodup p) split spanned plain
  have keeps : ∀ z, z ∈ (o :: X) ++ x :: ((Y ++ tail) ++ closing) → doc.Keeps doc' z := fun z =>
    noted.keeps sound reached markup
  have eol := noted.splice.eol
  have new_plain : ∀ n ∈ noteIds doc.nodes.size none, _ := fun n => noted.plain
  have children' : doc'.children p = o :: ((X ++ [doc.nodes.size, doc.nodes.size + 2] ++ x :: Y) ++
      tail ++ closing) := by
    rw [noted.splice.children_here, noteIds]
    simp
  generalize doc.nodes.size = n at note gaps new_plain children'
  refine ⟨o, X ++ [n, n + 2] ++ x :: Y, tail, closing, layout.transport children' ?_ ?_, ?_, ?_, ?_⟩
  · intro z hz
    rcases List.mem_cons.mp hz with rfl | hz
    · exact keeps z (by simp)
    · exact keeps z (by simp [hz])
  · intro i hi
    by_cases new : i ∈ [n, n + 2]
    · exact new_plain i new
    · have old : i ∈ (X ++ x :: Y) ++ tail := by
        simp only [List.mem_append, List.mem_cons] at hi new ⊢
        tauto
      rw [(keeps i (by simp only [List.mem_append, List.mem_cons] at old ⊢; tauto)).kind]
      exact layout.items i old
  · refine Rows.append (Rows.append ?_ (.pair note gaps .nil)) (.own ?_ ?_)
    · exact front.transport eol fun z hz => keeps z (by simp [hz])
    · rw [(keeps x (by simp)).span]
      exact spanned
    · exact back.transport eol fun z hz => keeps z (by simp [hz])
  · exact tails.transport eol fun z hz => keeps z (by simp [hz])
  · intro z b y sub gap'
    have mem : z ∈ (X ++ [n, n + 2] ++ x :: Y) ++ tail := sub.subset (by simp)
    by_cases hX : z ∈ X
    · exact (keeps z (by simp [hX])).whole (whole z (by simp [hX]))
    · by_cases new : z ∈ [n, n + 2]
      · rcases List.mem_pair.mp new with rfl | rfl
        · exact note.whole
        · exact gaps.whole
      · -- Here all three stand behind what was put in.
        have behind : [z, b, y].Sublist (x :: Y ++ tail) := by
          refine sublist_right (L := X ++ [n, n + 2]) ?_ (by simpa using sub)
          simp only [List.mem_append, not_or]
          exact ⟨hX, new⟩
        have known : ∀ c, c ∈ x :: Y ++ tail → doc.Keeps doc' c := fun c hc =>
          keeps c (by simp only [List.mem_append, List.mem_cons] at hc ⊢; tauto)
        refine (known z (behind.subset (by simp))).whole (tidy z b y ?_ ?_)
        · refine behind.trans ?_
          rw [List.append_assoc]
          exact List.sublist_append_right _ _
        · exact ((known b (behind.subset (by simp))).gap_iff eol).mp gap'

theorem Noted.arranged_last {o : NodeId} {items : List NodeId}
    (noted : doc.Noted doc' p (o :: items) C lead body gap) (sound : doc.Sound source)
    (reached : doc.Reaches p) (markup : (doc.kind p).hasMarkupChildren = true)
    (layout : doc.Layout p o items C) (last : ∀ y ∈ items.getLast?, doc.span y ≠ none)
    (note : doc'.Note doc.nodes.size)
    (gaps : doc'.Gap (doc.nodes.size + 2 + lead.toList.length))
    (leads : ∀ u ∈ lead, doc'.Lead (doc.nodes.size + 2)) : doc'.Arranged p := by
  obtain ⟨o', rows, tail, closing, layout', front, tails, tidy⟩ :=
    (sound.each p reached).arranged markup
  obtain ⟨rfl, rfl, rfl⟩ := layout.unique layout'
  have no_tail : tail = [] := by
    rcases tails with h | ⟨u, h, b, rfl, -, -, gap'⟩
    · exact h
    · exact absurd gap'.span_eq (last b (by simp))
  subst no_tail
  rw [List.append_nil] at *
  have keeps : ∀ z, z ∈ (o' :: rows) ++ closing → doc.Keeps doc' z := fun z =>
    noted.keeps sound reached markup
  have eol := noted.splice.eol
  have children' : doc'.children p = o' :: ((rows ++ noteIds doc.nodes.size lead) ++ closing) := by
    rw [noted.splice.children_here]
    simp
  have whole_new : ∀ z ∈ noteIds doc.nodes.size lead, doc'.Whole z := by
    intro z hz
    cases lead with
    | none =>
      rcases List.mem_pair.mp hz with rfl | rfl
      · exact note.whole
      · exact gaps.whole
    | some u =>
      simp only [noteIds, List.mem_cons, List.not_mem_nil, or_false] at hz
      rcases hz with rfl | rfl | rfl
      · exact (leads u rfl).whole
      · exact note.whole
      · exact gaps.whole
  have gap_ends : ∀ b y, [b, y].Sublist (noteIds doc.nodes.size lead) → ¬ doc'.Gap b := by
    intro b y sub gap'
    obtain ⟨indent, text, -, -⟩ := gap'.text?_eq
    have not_hole : b ≠ doc.nodes.size := by
      rintro rfl
      rw [note.text?_eq] at text
      cases text
    cases lead with
    | none =>
      cases sub with
      | cons _ h => exact absurd h.length_le (by simp)
      | cons_cons _ _ => exact not_hole rfl
    | some u =>
      have not_lead : b ≠ doc.nodes.size + 2 := by
        rintro rfl
        obtain ⟨blanks, text', -, -, free⟩ := (leads u rfl).text?_eq
        rw [text] at text'
        cases text'
        exact free (List.mem_append_left _ (by cases doc'.eol <;> simp [LineEnding.text]))
      cases sub with
      | cons _ h =>
        cases h with
        | cons _ h => exact absurd h.length_le (by simp)
        | cons_cons _ _ => exact not_hole rfl
      | cons_cons _ _ => exact not_lead rfl
  have layout_new : doc'.Layout p o' (rows ++ noteIds doc.nodes.size lead) closing := by
    refine layout.transport children' ?_ ?_
    · intro z hz
      exact keeps z (by simp only [List.mem_append, List.mem_cons] at hz ⊢; tauto)
    · intro i hi
      rcases List.mem_append.mp hi with hi | hi
      · rw [(keeps i (by simp [hi])).kind]
        exact layout.items i hi
      · exact noted.plain hi
  have rows_new : doc'.Rows rows := front.transport eol fun z hz => keeps z (by simp [hz])
  have tidy_new : doc'.Tidy (rows ++ noteIds doc.nodes.size lead) := by
    intro x b y sub gap'
    have old : ∀ z, z ∈ rows → doc.Keeps doc' z := fun z hz => keeps z (by simp [hz])
    have before : ∀ y', [x, b, y'].Sublist rows → doc'.Whole x := by
      intro y' sub'
      refine (old x (sub'.subset (by simp))).whole (tidy x b y' sub' ?_)
      exact ((old b (sub'.subset (by simp))).gap_iff eol).mp gap'
    obtain ⟨l₁, l₂, e, hl₁, hl₂⟩ := List.sublist_append_iff.mp sub
    match l₁, e with
    | [], e =>
      rw [List.nil_append] at e
      subst e
      exact whole_new x (hl₂.subset (by simp))
    | [_], e =>
      cases e
      exact absurd gap' (gap_ends b y hl₂)
    | _ :: _ :: ms, e =>
      simp only [List.cons_append, List.cons.injEq] at e
      obtain ⟨rfl, rfl, -⟩ := e
      have pair : [x, b].Sublist rows := List.Sublist.trans (by simp) hl₁
      rcases List.eq_nil_or_concat rows with rfl | ⟨init, z, rfl⟩
      · exact absurd pair.length_le (by simp)
      · -- The last child has a span, so the break is in front of it.
        rw [List.concat_eq_append] at pair last before old
        have ne : b ≠ z := by
          rintro rfl
          refine last b (by simp) ?_
          rw [← (old b (by simp)).span]
          exact gap'.span_eq
        exact before z (sublist_last ne pair)
  cases lead with
  | none =>
    refine ⟨o', rows ++ noteIds doc.nodes.size none, [], closing, ?_, ?_, .inl rfl, ?_⟩
    · rwa [List.append_nil]
    · exact rows_new.append (.pair note gaps .nil)
    · rwa [List.append_nil]
  | some u =>
    exact ⟨o', rows, noteIds doc.nodes.size (some u), closing, layout_new, rows_new,
      .inr ⟨_, _, _, rfl, leads u rfl, note, gaps⟩, tidy_new⟩

end Noted

end Document
end Quell
