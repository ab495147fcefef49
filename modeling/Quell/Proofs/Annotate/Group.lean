import Quell.Proofs.Annotate.Merge
import Quell.Proofs.Document.Locate
import Quell.Proofs.Document.Preserve

/-!
The siblings that share a line with a target.

Segmentation cuts the texts of an element, the target apart, until all of them are settled. Then the
siblings in front of the target fall in two: the group on its line, all of it with spans, and what
stands on lines above.
-/
namespace Quell.Document

open Text Relation

def Slit (p keep : NodeId) (doc doc' : Document) : Prop :=
  ∃ A id C t s, id ≠ keep ∧ doc.span id = some s ∧ doc.text? id = some t ∧ ¬ Settled t ∧
    doc.Recut doc' p A id C t.segments

def Slits (p keep : NodeId) : Document → Document → Prop := ReflTransGen (Slit p keep)

section Slit

variable {source : Text} {doc doc' : Document} {p keep : NodeId}

theorem Slit.sound (slit : Slit p keep doc doc') (sound : doc.Sound source)
    (reached : doc.Reaches p) (markup : (doc.kind p).hasMarkupChildren = true) :
    doc'.Sound source := by
  obtain ⟨A, id, C, t, s, -, span, -, -, recut⟩ := slit
  exact sound.recut recut reached markup span fun u hu => settled_of_mem_segments hu

/-- What is not cut stays where it is. -/
theorem Recut.stays {A C : List NodeId} {id : NodeId} {parts : List Text} {s : Span}
    (recut : doc.Recut doc' p A id C parts) (sound : doc.Sound source) (reached : doc.Reaches p)
    (span : doc.span id = some s) {x : NodeId} (hold : doc.Holds p x) (ne : x ≠ id) :
    doc'.Holds p x ∧ doc.Keeps doc' x := by
  have held : doc.Holds p id := recut.splice.holds_of_mem (by simp)
  obtain ⟨u, hu, -, -⟩ := sound.parent_span reached held span
  have lt := sound.linked.child_lt hold
  refine ⟨(recut.splice.holds_old sound.linked hold.parent_lt lt).mpr ⟨hold, by simpa using ne⟩, ?_⟩
  exact recut.splice.keeps sound.linked (by rw [hu]; exact Option.some_ne_none u) lt
    (by simpa using ne)

theorem Recut.reaches {A C : List NodeId} {id : NodeId} {parts : List Text}
    (recut : doc.Recut doc' p A id C parts) (sound : doc.Sound source) (reached : doc.Reaches p) :
    doc'.Reaches p ∧ doc'.kind p = doc.kind p := by
  have hold : doc.Holds p id := recut.splice.holds_of_mem (by simp)
  have ne : p ≠ id := fun e => sound.linked.not_below_of_holds hold (e ▸ ReflTransGen.refl)
  exact ⟨recut.splice.reaches_kept sound.linked reached (by simpa using ne),
    (recut.splice.content hold.parent_lt).1⟩

theorem Slit.context (slit : Slit p keep doc doc') (sound : doc.Sound source)
    (reached : doc.Reaches p) :
    doc'.Reaches p ∧ doc'.kind p = doc.kind p ∧ (doc.Holds p keep → doc'.Holds p keep ∧
      doc.Keeps doc' keep) := by
  obtain ⟨A, id, C, t, s, ne, span, -, -, recut⟩ := slit
  obtain ⟨reached', kind'⟩ := recut.reaches sound reached
  exact ⟨reached', kind', fun h => recut.stays sound reached span h ne.symm⟩

theorem Slits.spec (slits : Slits p keep doc doc') (sound : doc.Sound source)
    (reached : doc.Reaches p) (markup : (doc.kind p).hasMarkupChildren = true) :
    doc'.Sound source ∧ doc'.Reaches p ∧ doc'.kind p = doc.kind p ∧
      (doc.Holds p keep → doc'.Holds p keep ∧ doc'.kind keep = doc.kind keep ∧
        doc'.span keep = doc.span keep) := by
  induction slits with
  | refl => exact ⟨sound, reached, rfl, fun h => ⟨h, rfl, rfl⟩⟩
  | tail _ slit ih =>
    obtain ⟨sound', reached', kind', keep'⟩ := ih
    obtain ⟨reached'', kind'', keep''⟩ := slit.context sound' reached'
    refine ⟨slit.sound sound' reached' (by rw [kind', markup]), reached'', kind''.trans kind', ?_⟩
    intro h
    obtain ⟨h', kind, span⟩ := keep' h
    obtain ⟨h'', keeps⟩ := keep'' h'
    exact ⟨h'', keeps.kind.trans kind, keeps.span.trans span⟩

theorem Slits.span_eq (slits : Slits p keep doc doc') : doc'.span p = doc.span p := by
  induction slits with
  | refl => rfl
  | tail _ slit ih =>
    obtain ⟨A, id, C, t, s, -, -, -, -, recut⟩ := slit
    unfold span at ih ⊢
    rw [recut.splice.here]
    exact ih

theorem Sound.loose_child (sound : doc.Sound source) (reached : doc.Reaches p)
    (markup : (doc.kind p).hasMarkupChildren = true) {id : NodeId} (hold : doc.Holds p id)
    (loose : ¬ doc.Whole id) :
    ∃ t s, doc.text? id = some t ∧ ¬ Settled t ∧ doc.span id = some s := by
  obtain ⟨t, ht⟩ := not_forall.mp loose
  obtain ⟨value, loose'⟩ := Classical.not_imp.mp ht
  cases hs : doc.span id with
  | some s => exact ⟨t, s, value, loose', rfl⟩
  | none =>
    rcases ((sound.each p reached).arranged markup).part hold hs with h | h | h
    · exact absurd h.whole loose
    · exact absurd h.whole loose
    · exact absurd h.whole loose

theorem segmentText_step (sound : doc.Sound source) (reached : doc.Reaches p)
    (markup : (doc.kind p).hasMarkupChildren = true) {id : NodeId} (hold : doc.Holds p id)
    (ne : id ≠ keep) :
    doc.segmentText id = .ok doc ∧ doc.Whole id ∨
    ∃ doc', doc.segmentText id = .ok doc' ∧ Slit p keep doc doc' ∧
      (∀ x, doc'.Holds p x → doc.Holds p x ∧ x ≠ id ∨ doc'.Whole x) ∧
      ∀ x, doc.Holds p x → x ≠ id → doc'.Holds p x ∧ doc.Keeps doc' x := by
  by_cases whole : doc.Whole id
  · exact .inl ⟨segmentText_settled whole, whole⟩
  · obtain ⟨t, s, value, loose, span⟩ := sound.loose_child reached markup hold whole
    obtain ⟨A, C, split⟩ := List.append_of_mem hold
    have ok := sound.each id (reached.child hold)
    obtain ⟨doc', result, recut⟩ := segmentText_recut sound.linked (p := p) (A := A) (C := C)
      (by rw [split]; simp) (ok.text t value).1 value loose
    refine .inr ⟨doc', result, ⟨A, id, C, t, s, ne, span, value, loose, recut⟩, ?_,
      fun x hx other => recut.stays sound reached span hx other⟩
    intro x hx
    rcases Nat.lt_or_ge x doc.nodes.size with lt | ge
    · have old := (recut.splice.holds_old sound.linked hold.parent_lt lt).mp hx
      exact .inl ⟨old.1, by simpa using old.2⟩
    · have new := ((recut.splice.holds_new sound.linked hold.parent_lt ge).mp hx).2
      obtain ⟨i, u, -, found, node, -, -, -, -⟩ := recut.fragment ok span new
      refine .inr fun v hv => ?_
      rw [text?_of_node node rfl] at hv
      exact Option.some.inj hv ▸ settled_of_mem_segments (List.mem_of_getElem? found)

theorem segmentAll_ok (sound : doc.Sound source) (reached : doc.Reaches p)
    (markup : (doc.kind p).hasMarkupChildren = true) (todo : List NodeId) (nodup : todo.Nodup)
    (held : ∀ x ∈ todo, doc.Holds p x)
    (done : ∀ x, doc.Holds p x → x ∈ todo ∨ x = keep ∨ doc.Whole x) :
    ∃ doc', todo.foldlM (fun d child => if child = keep then .ok d else d.segmentText child) doc =
        .ok doc' ∧ Slits p keep doc doc' ∧ ∀ x, doc'.Holds p x → x = keep ∨ doc'.Whole x := by
  induction todo generalizing doc with
  | nil =>
    refine ⟨doc, rfl, ReflTransGen.refl, fun x hx => ?_⟩
    rcases done x hx with h | h
    · cases h
    · exact h
  | cons id todo ih =>
    obtain ⟨notin, nodup'⟩ := List.nodup_cons.mp nodup
    have hold := held id (by simp)
    rw [List.foldlM_cons]
    by_cases kept : id = keep
    · rw [if_pos kept]
      refine ih sound reached markup nodup' (fun x hx => held x (by simp [hx])) fun x hx => ?_
      rcases done x hx with h | h
      · rcases List.mem_cons.mp h with rfl | h
        · exact .inr (.inl kept)
        · exact .inl h
      · exact .inr h
    · rw [if_neg kept]
      rcases segmentText_step sound reached markup hold kept with
        ⟨same, whole⟩ | ⟨doc', cut, slit, fresh, stays⟩
      · rw [same]
        refine ih sound reached markup nodup' (fun x hx => held x (by simp [hx])) fun x hx => ?_
        rcases done x hx with h | h
        · rcases List.mem_cons.mp h with rfl | h
          · exact .inr (.inr whole)
          · exact .inl h
        · exact .inr h
      · obtain ⟨reached', kind', -⟩ := slit.context sound reached
        have apart : ∀ x ∈ todo, x ≠ id := fun x hx e => notin (e ▸ hx)
        obtain ⟨doc'', rest, slits, all⟩ := ih (slit.sound sound reached markup) reached'
          (by rw [kind', markup]) nodup'
          (fun x hx => (stays x (held x (by simp [hx])) (apart x hx)).1) fun x hx => by
            rcases fresh x hx with ⟨old, ne⟩ | whole
            · rcases done x old with h | h | h
              · rcases List.mem_cons.mp h with e | h
                · exact absurd e ne
                · exact .inl h
              · exact .inr (.inl h)
              · exact .inr (.inr ((stays x old ne).2.whole h))
            · exact .inr (.inr whole)
        refine ⟨doc'', ?_, ReflTransGen.head slit slits, all⟩
        rw [cut]
        exact rest

theorem take_drop_behind (o : NodeId) (xs ys : List NodeId) :
    ((o :: (xs ++ ys)).take (1 + xs.length)).drop 1 = xs := by
  rw [Nat.add_comm, List.take_succ_cons, List.take_left]
  rfl

theorem segmentChildren_ok (keep : NodeId) (sound : doc.Sound source) (reached : doc.Reaches p)
    (markup : (doc.kind p).hasMarkupChildren = true) :
    ∃ doc', doc.segmentChildren p keep = .ok doc' ∧ Slits p keep doc doc' ∧
      ∀ x, doc'.Holds p x → x = keep ∨ doc'.Whole x := by
  obtain ⟨o, body, tail, closing, layout, -, -, -⟩ := (sound.each p reached).arranged markup
  generalize body ++ tail = items at layout
  have between : ((doc.children p).take (1 + items.length)).drop 1 = items := by
    rw [layout.split, take_drop_behind]
  have tag_whole : ∀ x, doc.kind x = .openingTag ∨ doc.kind x = .closingTag → doc.Whole x := by
    rintro x kind t ht
    unfold text? at ht
    rcases kind with h | h <;> rw [h] at ht <;> cases ht
  unfold segmentChildren
  rw [layout.markupRange markup]
  dsimp only
  rw [between]
  refine segmentAll_ok sound reached markup items.reverse ?_ ?_ ?_
  · have nodup := sound.linked.nodup p
    rw [layout.split] at nodup
    have := (List.nodup_cons.mp nodup).2
    exact List.nodup_reverse.mpr (List.nodup_append.mp this).1
  · exact fun x hx => layout.mem_children (List.mem_reverse.mp hx)
  · intro x hx
    unfold Holds at hx
    rw [layout.split] at hx
    simp only [List.mem_cons, List.mem_append] at hx
    rcases hx with rfl | h | h
    · exact .inr (.inr (tag_whole x (.inl layout.opening.1)))
    · exact .inl (List.mem_reverse.mpr h)
    · rcases layout.closing with rfl | ⟨c, rfl, closes, -⟩
      · cases h
      · exact .inr (.inr (tag_whole x (.inr (List.mem_singleton.mp h ▸ closes))))

end Slit

def OnLine (doc : Document) (line : Nat) (x : NodeId) : Prop :=
  doc.span x ≠ none ∧ ((∃ t, doc.text? x = some t ∧ '\n' ∉ t) ∨
    (doc.text? x = none ∧ ∃ s, doc.span x = some s ∧ s.startLine = line))

theorem Keeps.onLine {doc doc' : Document} {x : NodeId} {line : Nat} (keeps : doc.Keeps doc' x)
    (on : doc.OnLine line x) : doc'.OnLine line x := by
  unfold OnLine at on ⊢
  rw [keeps.span, keeps.text?_eq]
  exact on

def EndsAbove (doc : Document) (line : Nat) (x : NodeId) : Prop :=
  (∃ t, doc.text? x = some t ∧ '\n' ∈ t) ∨
    (doc.text? x = none ∧ ∃ s, doc.span x = some s ∧ s.startLine ≠ line)

theorem Gap.breaks {doc : Document} {b : NodeId} (gap : doc.Gap b) :
    ∃ t, doc.text? b = some t ∧ '\n' ∈ t ∧ allBlank t = true := by
  obtain ⟨indent, text, blank, -⟩ := gap.text?_eq
  refine ⟨_, text, List.mem_append_left _ ?_, ?_⟩
  · cases doc.eol <;> simp [LineEnding.text]
  · rw [allBlank_append, LineEnding.allBlank_text, blank]
    rfl

structure Group (doc : Document) (line : Nat) (X₁ X₂ : List NodeId) : Prop where
  on : ∀ x ∈ X₂, doc.OnLine line x
  above : ∀ b ∈ X₁.getLast?, doc.EndsAbove line b

theorem Group.stop {doc : Document} {line : Nat} {X : List NodeId} {b : NodeId}
    (h : doc.EndsAbove line b) : doc.Group line (X ++ [b]) [] :=
  ⟨by simp, by simpa using h⟩

theorem Group.grow {doc : Document} {line : Nat} {X₁ X₂ : List NodeId} {b : NodeId}
    (group : doc.Group line X₁ X₂) (h : doc.OnLine line b) : doc.Group line X₁ (X₂ ++ [b]) := by
  refine ⟨fun x hx => ?_, group.above⟩
  rcases List.mem_append.mp hx with hx | hx
  · exact group.on x hx
  · exact List.mem_singleton.mp hx ▸ h

theorem groupStart_spec {doc : Document} (line : Nat) {X : List NodeId} (rows : doc.Rows X) :
    ∃ X₁ X₂, X = X₁ ++ X₂ ∧ doc.Group line X₁ X₂ ∧
      doc.groupStart line X.reverse (1 + X.length) (1 + X.length) = 1 + X₁.length := by
  induction X using List.reverseRecOn with
  | nil => exact ⟨[], [], rfl, ⟨by simp, by simp⟩, rfl⟩
  | append_singleton X b ih =>
    have step : (X ++ [b]).reverse = b :: X.reverse := by simp
    have len : 1 + (X ++ [b]).length - 1 = 1 + X.length := by
      rw [List.length_append, List.length_singleton]
      omega
    rcases rows.ends with ⟨spanned, front⟩ | ⟨ys, h, -, -, gap, -⟩
    · obtain ⟨X₁, X₂, rfl, group, result⟩ := ih front
      cases value : doc.text? b with
      | some t =>
        by_cases breaks : '\n' ∈ t
        · refine ⟨_, [], (List.append_nil _).symm, .stop (.inl ⟨t, value, breaks⟩), ?_⟩
          rw [step, groupStart, value]
          dsimp only
          rw [if_pos (by simpa using breaks)]
        · refine ⟨X₁, X₂ ++ [b], by simp, group.grow ⟨spanned, .inl ⟨t, value, breaks⟩⟩, ?_⟩
          rw [step, groupStart, value]
          dsimp only
          rw [if_neg (by simpa using breaks), len, result]
      | none =>
        obtain ⟨s, hs⟩ := Option.ne_none_iff_exists'.mp spanned
        by_cases same : s.startLine = line
        · refine ⟨X₁, X₂ ++ [b], by simp, group.grow ⟨spanned, .inr ⟨value, s, hs, same⟩⟩, ?_⟩
          rw [step, groupStart, value, hs]
          dsimp only
          rw [if_neg (by simpa using same), len, result]
        · refine ⟨_, [], (List.append_nil _).symm, .stop (.inr ⟨value, s, hs, same⟩), ?_⟩
          rw [step, groupStart, value, hs]
          dsimp only
          rw [if_pos (by simpa using same)]
    · obtain ⟨t, text, breaks, -⟩ := gap.breaks
      refine ⟨_, [], (List.append_nil _).symm, .stop (.inl ⟨t, text, breaks⟩), ?_⟩
      rw [step, groupStart, text]
      dsimp only
      rw [if_pos (by simpa using breaks)]

def nearestSlot (doc : Document) (X : List NodeId) : Option NodeId :=
  (X.reverse.find? (!doc.isBlankText ·)).bind doc.commentSlot

theorem commentSlot_holds {doc : Document} {h e : NodeId} (found : doc.commentSlot h = some e) :
    doc.Holds h e ∧ doc.kind e = .emptyHole := by
  unfold commentSlot at found
  split at found
  · rename_i inner rest _ kids
    split at found
    · rename_i kind
      cases found
      exact ⟨by unfold Holds; rw [kids]; simp, kind⟩
    · cases found
  · cases found

theorem nearestSlot_holds {doc : Document} {X : List NodeId} {e : NodeId}
    (found : doc.nearestSlot X = some e) : ∃ h ∈ X, doc.Holds h e ∧ doc.kind e = .emptyHole := by
  obtain ⟨h, search, slot⟩ := Option.bind_eq_some_iff.mp found
  have mem := List.mem_of_find?_eq_some search
  exact ⟨h, List.mem_reverse.mp mem, commentSlot_holds slot⟩

theorem nearestSlot_blank {doc : Document} {X : List NodeId} {b : NodeId}
    (blank : doc.isBlankText b = true) : doc.nearestSlot (X ++ [b]) = doc.nearestSlot X := by
  unfold nearestSlot
  rw [List.reverse_append, List.reverse_singleton, List.singleton_append, List.find?_cons]
  simp [blank]

theorem Gap.isBlankText {doc : Document} {b : NodeId} (gap : doc.Gap b) :
    doc.isBlankText b = true := by
  obtain ⟨t, text, -, blank⟩ := gap.breaks
  unfold Document.isBlankText
  rw [text]
  exact blank

theorem nearestSlot_note {doc : Document} {X : List NodeId} {h b : NodeId} (note : doc.Note h)
    (gap : doc.Gap b) : ∃ e c, doc.nearestSlot (X ++ [h, b]) = some e ∧
      (doc.node e).comments .inner = [c] ∧ (Directive.parse? c.text).isSome = true := by
  have solid : doc.isBlankText h = false := by
    unfold isBlankText
    rw [note.text?_eq]
  have kind := note.kind_eq
  obtain ⟨p, e, c, hole, slot, -, parses⟩ := note
  have kids : doc.children h = [e] := by unfold children; rw [hole]
  have kind' : doc.kind e = .emptyHole := by unfold Document.kind; rw [slot]
  refine ⟨e, c, ?_, by rw [slot]; rfl, parses⟩
  rw [show X ++ [h, b] = X ++ [h] ++ [b] by simp, nearestSlot_blank gap.isBlankText]
  unfold nearestSlot
  rw [List.reverse_append, List.reverse_singleton, List.singleton_append, List.find?_cons]
  simp only [solid, Bool.not_false, Option.bind_some]
  unfold commentSlot
  rw [kind, kids]
  simp [kind']

theorem mergeBefore_eq {doc : Document} {p o : NodeId} {X R closing : List NodeId}
    (layout : doc.Layout p o (X ++ R) closing) (markup : (doc.kind p).hasMarkupChildren = true)
    (rule : Text) :
    doc.mergeBefore p (1 + X.length) rule =
      match doc.nearestSlot X with
      | some e => doc.mergeInto e .inner rule
      | none => (doc, .notADirective) := by
  have low : min (1 + X.length) (1 + (X ++ R).length) = 1 + X.length := by
    rw [List.length_append]
    omega
  unfold mergeBefore
  rw [layout.markupRange markup]
  dsimp only
  rw [low, layout.split, List.append_assoc, take_drop_behind]
  unfold nearestSlot
  cases X.reverse.find? (!doc.isBlankText ·) with
  | none => rfl
  | some h =>
    cases slot : doc.commentSlot h with
    | none => simp only [Option.bind_some, slot]
    | some e => simp only [Option.bind_some, slot]

end Quell.Document
