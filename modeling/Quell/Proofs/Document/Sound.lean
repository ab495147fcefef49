import Quell.Annotate
import Quell.Proofs.Document.Shape
import Quell.Proofs.Text.Offsets
import Quell.Proofs.Text.Segments

/-!
Sound documents.

`NodeOk` says what holds of a reached node over its source, and `Sound` that it holds of all of
them. A document as it is read has spans everywhere; the nodes without span that annotating adds
have one of three shapes: an empty statement alone in a block, a markup comment with the text behind
it among the children of an element, and the slot in such a comment.
-/
namespace Quell.Document

open Text Relation

structure Layout (doc : Document) (p o : NodeId) (items closing : List NodeId) : Prop where
  split : doc.children p = o :: (items ++ closing)
  opening : doc.kind o = .openingTag ∧ doc.span o ≠ none
  closing : closing = [] ∨ ∃ c, closing = [c] ∧ doc.kind c = .closingTag ∧ doc.span c ≠ none
  items : ∀ i ∈ items, doc.kind i ≠ .openingTag ∧ doc.kind i ≠ .closingTag

def Note (doc : Document) (h : NodeId) : Prop :=
  ∃ p e c, doc.node h = { kind := .hole, span := none, parent := p, children := [e] } ∧
    doc.node e = { kind := .emptyHole, span := none, parent := some h, inner := [c] } ∧
    c.span = none ∧ (Directive.parse? c.text).isSome = true

def Gap (doc : Document) (b : NodeId) : Prop :=
  ∃ p indent, doc.node b = { kind := .text (doc.eol.text ++ indent), span := none, parent := p } ∧
    allBlank indent = true ∧ '\n' ∉ indent

def Lead (doc : Document) (u : NodeId) : Prop :=
  ∃ p blanks, doc.node u = { kind := .text blanks, span := none, parent := p } ∧
    blanks ≠ [] ∧ allBlank blanks = true ∧ '\n' ∉ blanks

inductive Rows (doc : Document) : List NodeId → Prop where
  | nil : Rows doc []
  | own {x : NodeId} {xs : List NodeId} : doc.span x ≠ none → Rows doc xs → Rows doc (x :: xs)
  | pair {h b : NodeId} {xs : List NodeId} :
      Note doc h → Gap doc b → Rows doc xs → Rows doc (h :: b :: xs)

def Tail (doc : Document) (xs : List NodeId) : Prop :=
  xs = [] ∨ ∃ u h b, xs = [u, h, b] ∧ Lead doc u ∧ Note doc h ∧ Gap doc b

def Whole (doc : Document) (id : NodeId) : Prop := ∀ t, doc.text? id = some t → Settled t

def Tidy (doc : Document) (items : List NodeId) : Prop :=
  ∀ x b y, [x, b, y].Sublist items → Gap doc b → doc.Whole x

def Arranged (doc : Document) (p : NodeId) : Prop :=
  ∃ o body tail closing, doc.Layout p o (body ++ tail) closing ∧ doc.Rows body ∧ doc.Tail tail ∧
    doc.Tidy (body ++ tail)

def Ghost (doc : Document) (p c : NodeId) : Prop :=
  (doc.kind p).hasMarkupChildren = true ∨
  (doc.kind p = .block ∧ doc.children p = [c] ∧ doc.kind c = .empty ∧ doc.children c = []) ∨
  (doc.kind p = .hole ∧ doc.span p = none ∧ doc.kind c = .emptyHole ∧ doc.children c = [])

structure NodeOk (source : Text) (doc : Document) (id : NodeId) : Prop where
  fits : ∀ s, doc.span id = some s → s.Fits source
  nested : ∀ s c t, doc.span id = some s → doc.Holds id c → doc.span c = some t →
    s.lo ≤ t.lo ∧ t.hi ≤ s.hi
  ordered : (doc.children id).Pairwise fun a b =>
    ∀ s t, doc.span a = some s → doc.span b = some t → s.hi ≤ t.lo
  text : ∀ t, doc.text? id = some t → doc.children id = [] ∧
    (∀ slot, (doc.node id).comments slot = []) ∧
    ∀ s, doc.span id = some s → slice? s.lo s.hi source = some t
  texts : ∀ c t, doc.Holds id c → doc.text? c = some t → (doc.kind id).hasMarkupChildren = true
  remarks : ∀ slot, ∀ c ∈ (doc.node id).comments slot, ∀ s, c.span = some s → s.Fits source
  ghosts : ∀ c, doc.Holds id c → doc.span c = none → doc.Ghost id c
  arranged : (doc.kind id).hasMarkupChildren = true → doc.Arranged id

def RemarkAt (doc : Document) (s : Span) : Prop :=
  ∃ id slot c, doc.Reaches id ∧ c ∈ (doc.node id).comments slot ∧ c.span = some s

structure Sound (source : Text) (doc : Document) : Prop where
  linked : doc.Linked
  root_lt : root < doc.nodes.size
  root_kind : doc.kind root = .program
  root_span : doc.span root ≠ none
  root_parent : doc.parent root = none
  each : ∀ id, doc.Reaches id → doc.NodeOk source id
  /-- Two comments have the same span or none of their bytes in common. -/
  apart : ∀ s t, doc.RemarkAt s → doc.RemarkAt t → s = t ∨ s.hi ≤ t.lo ∨ t.hi ≤ s.lo

theorem Sound.ne_root_of_parent {source : Text} {doc : Document} (sound : doc.Sound source)
    {id p : NodeId} (link : doc.parent id = some p) : id ≠ root := by
  rintro rfl
  rw [sound.root_parent] at link
  cases link

theorem Sound.ne_root_of_holds {source : Text} {doc : Document} (sound : doc.Sound source)
    {p c : NodeId} (hold : doc.Holds p c) : c ≠ root :=
  sound.ne_root_of_parent ((sound.linked.agree p c).mp hold)

theorem Note.span_eq {doc : Document} {h : NodeId} (note : doc.Note h) : doc.span h = none := by
  obtain ⟨p, e, c, node, -, -, -⟩ := note
  unfold span
  rw [node]

theorem Note.text?_eq {doc : Document} {h : NodeId} (note : doc.Note h) : doc.text? h = none := by
  obtain ⟨p, e, c, node, -, -, -⟩ := note
  unfold text? kind
  rw [node]
  rfl

theorem Note.kind_eq {doc : Document} {h : NodeId} (note : doc.Note h) : doc.kind h = .hole := by
  obtain ⟨p, e, c, node, -, -, -⟩ := note
  unfold kind
  rw [node]

theorem Gap.span_eq {doc : Document} {b : NodeId} (gap : doc.Gap b) : doc.span b = none := by
  obtain ⟨p, indent, node, -, -⟩ := gap
  unfold span
  rw [node]

theorem Gap.text?_eq {doc : Document} {b : NodeId} (gap : doc.Gap b) :
    ∃ indent, doc.text? b = some (doc.eol.text ++ indent) ∧ allBlank indent = true ∧
      '\n' ∉ indent := by
  obtain ⟨p, indent, node, blank, free⟩ := gap
  refine ⟨indent, ?_, blank, free⟩
  unfold text? kind
  rw [node]
  rfl

theorem Lead.span_eq {doc : Document} {u : NodeId} (lead : doc.Lead u) : doc.span u = none := by
  obtain ⟨p, blanks, node, -, -, -⟩ := lead
  unfold span
  rw [node]

theorem Lead.text?_eq {doc : Document} {u : NodeId} (lead : doc.Lead u) :
    ∃ blanks, doc.text? u = some blanks ∧ blanks ≠ [] ∧ allBlank blanks = true ∧
      '\n' ∉ blanks := by
  obtain ⟨p, blanks, node, ne, blank, free⟩ := lead
  refine ⟨blanks, ?_, ne, blank, free⟩
  unfold text? kind
  rw [node]
  rfl

theorem LineEnding.startsWithBreak_text (eol : LineEnding) (t : Text) :
    startsWithBreak (eol.text ++ t) = true := by
  cases eol <;> rfl

theorem LineEnding.allBlank_text (eol : LineEnding) : allBlank eol.text = true := by
  cases eol <;> decide

/-- What was put in is not cut. -/
theorem Gap.whole {doc : Document} {b : NodeId} (gap : doc.Gap b) : doc.Whole b := by
  obtain ⟨indent, text, blank, -⟩ := gap.text?_eq
  intro t ht
  rw [text] at ht
  cases ht
  refine .inl ?_
  rw [LineEnding.startsWithBreak_text, allBlank_append, LineEnding.allBlank_text, blank]
  rfl

theorem Lead.whole {doc : Document} {u : NodeId} (lead : doc.Lead u) : doc.Whole u := by
  obtain ⟨blanks, text, ne, blank, free⟩ := lead.text?_eq
  intro t ht
  rw [text] at ht
  cases ht
  exact Fragment.settled (.inr (.inr ⟨ne, free, .inl blank⟩))

theorem Note.whole {doc : Document} {h : NodeId} (note : doc.Note h) : doc.Whole h := by
  intro t ht
  rw [note.text?_eq] at ht
  cases ht

theorem Rows.append {doc : Document} {xs ys : List NodeId} (hx : doc.Rows xs) (hy : doc.Rows ys) :
    doc.Rows (xs ++ ys) := by
  induction hx with
  | nil => exact hy
  | own spanned _ ih => exact .own spanned ih
  | pair note gap _ ih => exact .pair note gap ih

/-- In front of a child with span rows come to an end. -/
theorem Rows.split {doc : Document} {xs ys : List NodeId} {y : NodeId}
    (rows : doc.Rows (xs ++ y :: ys)) (spanned : doc.span y ≠ none) :
    doc.Rows xs ∧ doc.Rows ys := by
  generalize e : xs ++ y :: ys = zs at rows
  induction rows generalizing xs with
  | nil => simp at e
  | @own z zs hz rest ih =>
    cases xs with
    | nil =>
      cases e
      exact ⟨.nil, rest⟩
    | cons x xs =>
      cases e
      obtain ⟨front, back⟩ := ih rfl
      exact ⟨.own hz front, back⟩
  | @pair h b zs note gap rest ih =>
    cases xs with
    | nil =>
      cases e
      exact absurd note.span_eq spanned
    | cons x xs =>
      cases xs with
      | nil =>
        cases e
        exact absurd gap.span_eq spanned
      | cons x' xs =>
        cases e
        obtain ⟨front, back⟩ := ih rfl
        exact ⟨.pair note gap front, back⟩

/-- Rows end in a child with span or in a pair. -/
theorem Rows.ends {doc : Document} {xs : List NodeId} {b : NodeId} (rows : doc.Rows (xs ++ [b])) :
    doc.span b ≠ none ∧ doc.Rows xs ∨
    ∃ ys h, xs = ys ++ [h] ∧ doc.Note h ∧ doc.Gap b ∧ doc.Rows ys := by
  generalize e : xs ++ [b] = zs at rows
  induction rows generalizing xs with
  | nil => simp at e
  | @own z zs hz rest ih =>
    cases xs with
    | nil =>
      cases e
      exact .inl ⟨hz, .nil⟩
    | cons x xs =>
      cases e
      rcases ih rfl with ⟨spanned, front⟩ | ⟨ys, h, rfl, note, gap, front⟩
      · exact .inl ⟨spanned, .own hz front⟩
      · exact .inr ⟨z :: ys, h, rfl, note, gap, .own hz front⟩
  | @pair h b' zs note gap rest ih =>
    match xs, e with
    | [], e => cases e
    | [_], e =>
      cases e
      exact .inr ⟨[], h, rfl, note, gap, .nil⟩
    | _ :: _ :: xs, e =>
      cases e
      rcases ih rfl with ⟨spanned, front⟩ | ⟨ys, h', rfl, note', gap', front⟩
      · exact .inl ⟨spanned, .pair note gap front⟩
      · exact .inr ⟨h :: b' :: ys, h', rfl, note', gap', .pair note gap front⟩

/-- Each child in rows has a span or is part of a pair. -/
theorem Rows.mem {doc : Document} {xs : List NodeId} (rows : doc.Rows xs) {x : NodeId}
    (h : x ∈ xs) : doc.span x ≠ none ∨ doc.Note x ∨ doc.Gap x := by
  induction rows with
  | nil => cases h
  | own spanned _ ih =>
    rcases List.mem_cons.mp h with rfl | h
    · exact .inl spanned
    · exact ih h
  | pair note gap _ ih =>
    simp only [List.mem_cons] at h
    rcases h with rfl | rfl | h
    · exact .inr (.inl note)
    · exact .inr (.inr gap)
    · exact ih h

theorem Tail.mem {doc : Document} {xs : List NodeId} (tail : doc.Tail xs) {x : NodeId}
    (h : x ∈ xs) : doc.Lead x ∨ doc.Note x ∨ doc.Gap x := by
  rcases tail with rfl | ⟨u, n, b, rfl, lead, note, gap⟩
  · cases h
  · simp only [List.mem_cons, List.not_mem_nil, or_false] at h
    rcases h with rfl | rfl | rfl
    · exact .inl lead
    · exact .inr (.inl note)
    · exact .inr (.inr gap)

theorem Layout.tagged {doc : Document} {p o : NodeId} {items closing : List NodeId}
    (layout : doc.Layout p o items closing) : doc.Tagged p o items closing :=
  ⟨layout.split, layout.opening.1,
    layout.closing.imp_right fun ⟨c, only, closes, _⟩ => ⟨c, only, closes⟩, layout.items⟩

theorem Layout.markupRange {doc : Document} {p o : NodeId} {items closing : List NodeId}
    (layout : doc.Layout p o items closing) (markup : (doc.kind p).hasMarkupChildren = true) :
    doc.markupRange p = some (1, 1 + items.length) :=
  layout.tagged.markupRange markup

theorem Layout.opening_eq {doc : Document} {p o x : NodeId} {items closing : List NodeId}
    (layout : doc.Layout p o items closing) (hold : doc.Holds p x)
    (kind : doc.kind x = .openingTag) : x = o := by
  unfold Holds at hold
  rw [layout.split] at hold
  simp only [List.mem_cons, List.mem_append] at hold
  rcases hold with h | h | h
  · exact h
  · exact absurd kind (layout.items x h).1
  · rcases layout.closing with rfl | ⟨c, rfl, closes, -⟩
    · cases h
    · rw [List.mem_singleton.mp h, closes] at kind
      cases kind

theorem Layout.mem_children {doc : Document} {p o x : NodeId} {items closing : List NodeId}
    (layout : doc.Layout p o items closing) (h : x ∈ items) : doc.Holds p x := by
  unfold Holds
  rw [layout.split]
  simp [h]

/-- A layout is read off the child list. -/
theorem Layout.unique {doc : Document} {p o o' : NodeId} {items items' closing closing' : List NodeId}
    (layout : doc.Layout p o items closing) (layout' : doc.Layout p o' items' closing') :
    o' = o ∧ items' = items ∧ closing' = closing := by
  have e := layout.split.symm.trans layout'.split
  simp only [List.cons.injEq] at e
  obtain ⟨rfl, e⟩ := e
  have closes : ∀ {xs ys : List NodeId}, (∀ i ∈ xs, doc.kind i ≠ .openingTag ∧
      doc.kind i ≠ .closingTag) → ∀ c, doc.kind c = .closingTag → xs ≠ ys ++ [c] := by
    rintro xs ys plain c hc rfl
    exact (plain c (by simp)).2 hc
  rcases layout.closing with rfl | ⟨c, rfl, hc, -⟩
  · rcases layout'.closing with rfl | ⟨c', rfl, hc', -⟩
    · simp only [List.append_nil] at e
      exact ⟨rfl, e.symm, rfl⟩
    · rw [List.append_nil] at e
      exact absurd e (closes layout.items c' hc')
  · rcases layout'.closing with rfl | ⟨c', rfl, hc', -⟩
    · rw [List.append_nil] at e
      exact absurd e.symm (closes layout'.items c hc)
    · obtain ⟨same, same'⟩ := List.append_inj' e rfl
      exact ⟨rfl, same.symm, same'.symm⟩

theorem text?_of_markup {doc : Document} {p : NodeId}
    (markup : (doc.kind p).hasMarkupChildren = true) : doc.text? p = none := by
  unfold text?
  cases h : doc.kind p with
  | text t =>
    rw [h] at markup
    cases markup
  | _ => rfl

theorem plain_of_text {doc : Document} {id : NodeId} {t : Text} (h : doc.text? id = some t) :
    doc.kind id ≠ .openingTag ∧ doc.kind id ≠ .closingTag := by
  unfold text? at h
  constructor
  · intro e
    rw [e] at h
    cases h
  · intro e
    rw [e] at h
    cases h

/-- A child of an element that has no span was put in. -/
theorem Arranged.part {doc : Document} {p c : NodeId} (arranged : doc.Arranged p)
    (h : doc.Holds p c) (spanless : doc.span c = none) : doc.Note c ∨ doc.Gap c ∨ doc.Lead c := by
  obtain ⟨o, body, tail, closing, layout, rows, tails, -⟩ := arranged
  unfold Holds at h
  rw [layout.split] at h
  simp only [List.mem_cons, List.mem_append] at h
  rcases h with rfl | (hb | ht) | hcl
  · exact absurd spanless layout.opening.2
  · rcases rows.mem hb with h | h | h
    · exact absurd spanless h
    · exact .inl h
    · exact .inr (.inl h)
  · rcases tails.mem ht with h | h | h
    · exact .inr (.inr h)
    · exact .inl h
    · exact .inr (.inl h)
  · rcases layout.closing with rfl | ⟨k, rfl, -, hk⟩
    · cases hcl
    · exact absurd (List.mem_singleton.mp hcl ▸ spanless) hk

theorem split_unique {x : NodeId} {A C A' C' : List NodeId} (nodup : (A ++ x :: C).Nodup)
    (e : A ++ x :: C = A' ++ x :: C') : A = A' ∧ C = C' := by
  have free : ∀ {X Y : List NodeId}, (X ++ x :: Y).Nodup → x ∉ X := fun nodup h =>
    List.disjoint_of_nodup_append nodup h (by simp)
  have same : A.length = A'.length := by
    have index : ∀ {X : List NodeId} (Y : List NodeId), x ∉ X →
        (X ++ x :: Y).idxOf x = X.length := by
      intro X Y notin
      rw [List.idxOf_append_of_notMem notin, List.idxOf_cons_self, Nat.add_zero]
    rw [← index C (free nodup), e, index C' (free (e ▸ nodup))]
  obtain ⟨front, back⟩ := List.append_inj e same
  exact ⟨front, (List.cons.inj back).2⟩

/-- Where a child with span stands in an arrangement. -/
theorem Arranged.place {doc : Document} {p x : NodeId} {A C : List NodeId}
    (arranged : doc.Arranged p) (nodup : (doc.children p).Nodup)
    (split : doc.children p = A ++ x :: C) (spanned : doc.span x ≠ none)
    (plain : doc.kind x ≠ .openingTag ∧ doc.kind x ≠ .closingTag) :
    ∃ o X Y tail closing, A = o :: X ∧ C = (Y ++ tail) ++ closing ∧
      doc.Layout p o ((X ++ x :: Y) ++ tail) closing ∧ doc.Rows X ∧ doc.Rows Y ∧ doc.Tail tail ∧
      doc.Tidy ((X ++ x :: Y) ++ tail) := by
  obtain ⟨o, body, tail, closing, layout, rows, tails, tidy⟩ := arranged
  have mem : x ∈ o :: ((body ++ tail) ++ closing) := by
    rw [← layout.split, split]
    simp
  have inside : x ∈ body := by
    simp only [List.mem_cons, List.mem_append] at mem
    rcases mem with rfl | (hb | ht) | hc
    · exact absurd layout.opening.1 plain.1
    · exact hb
    · rcases tails.mem ht with h | h | h
      · exact absurd h.span_eq spanned
      · exact absurd h.span_eq spanned
      · exact absurd h.span_eq spanned
    · rcases layout.closing with rfl | ⟨c, rfl, closes, -⟩
      · cases hc
      · rw [List.mem_singleton.mp hc] at plain
        exact absurd closes plain.2
  obtain ⟨X, Y, rfl⟩ := List.append_of_mem inside
  obtain ⟨front, back⟩ := rows.split spanned
  have e : A ++ x :: C = (o :: X) ++ x :: ((Y ++ tail) ++ closing) := by
    rw [← split, layout.split]
    simp
  rw [split] at nodup
  obtain ⟨rfl, rfl⟩ := split_unique nodup e
  exact ⟨o, X, Y, tail, closing, rfl, rfl, layout, front, back, tails, tidy⟩

structure Keeps (doc doc' : Document) (c : NodeId) : Prop where
  kind : doc'.kind c = doc.kind c
  span : doc'.span c = doc.span c
  node : doc.span c = none → doc'.node c = doc.node c
  note : doc.Note c → doc'.Note c

namespace Keeps

variable {doc doc' : Document} {c : NodeId} (keeps : doc.Keeps doc' c)

include keeps

theorem text?_eq : doc'.text? c = doc.text? c := by
  unfold text?
  rw [keeps.kind]

theorem whole (h : doc.Whole c) : doc'.Whole c := by
  intro t ht
  rw [keeps.text?_eq] at ht
  exact h t ht

theorem gap_iff (eol : doc'.eol = doc.eol) : doc'.Gap c ↔ doc.Gap c := by
  constructor
  · intro gap
    have spanless : doc.span c = none := keeps.span ▸ gap.span_eq
    unfold Gap at gap ⊢
    rwa [keeps.node spanless, eol] at gap
  · intro gap
    unfold Gap
    rw [keeps.node gap.span_eq, eol]
    exact gap

theorem lead (h : doc.Lead c) : doc'.Lead c := by
  unfold Lead
  rw [keeps.node h.span_eq]
  exact h

end Keeps

theorem Rows.transport {doc doc' : Document} (eol : doc'.eol = doc.eol) {xs : List NodeId}
    (rows : doc.Rows xs) (keeps : ∀ x ∈ xs, doc.Keeps doc' x) : doc'.Rows xs := by
  induction rows with
  | nil => exact .nil
  | @own x xs spanned _ ih =>
    refine .own ?_ (ih fun y hy => keeps y (by simp [hy]))
    rw [(keeps x (by simp)).span]
    exact spanned
  | @pair h b xs note gap _ ih =>
    refine .pair ?_ ?_ (ih fun y hy => keeps y (by simp [hy]))
    · exact (keeps h (by simp)).note note
    · exact ((keeps b (by simp)).gap_iff eol).mpr gap

theorem Tail.transport {doc doc' : Document} (eol : doc'.eol = doc.eol) {xs : List NodeId}
    (tail : doc.Tail xs) (keeps : ∀ x ∈ xs, doc.Keeps doc' x) : doc'.Tail xs := by
  rcases tail with rfl | ⟨u, h, b, rfl, lead, note, gap⟩
  · exact .inl rfl
  · refine .inr ⟨u, h, b, rfl, (keeps u (by simp)).lead lead, ?_, ?_⟩
    · exact (keeps h (by simp)).note note
    · exact ((keeps b (by simp)).gap_iff eol).mpr gap

theorem Tidy.transport {doc doc' : Document} (eol : doc'.eol = doc.eol) {xs : List NodeId}
    (tidy : doc.Tidy xs) (keeps : ∀ x ∈ xs, doc.Keeps doc' x) : doc'.Tidy xs := by
  intro x b y sub gap
  refine (keeps x (sub.subset (by simp))).whole ?_
  exact tidy x b y sub (((keeps b (sub.subset (by simp))).gap_iff eol).mp gap)

theorem Layout.transport {doc doc' : Document} {p o : NodeId} {items items' closing : List NodeId}
    (layout : doc.Layout p o items closing) (split : doc'.children p = o :: (items' ++ closing))
    (keeps : ∀ x ∈ o :: closing, doc.Keeps doc' x)
    (plain : ∀ i ∈ items', doc'.kind i ≠ .openingTag ∧ doc'.kind i ≠ .closingTag) :
    doc'.Layout p o items' closing := by
  refine ⟨split, ?_, ?_, plain⟩
  · have := keeps o (by simp)
    rw [this.kind, this.span]
    exact layout.opening
  · rcases layout.closing with rfl | ⟨c, rfl, closes⟩
    · exact .inl rfl
    · have := keeps c (by simp)
      refine .inr ⟨c, rfl, ?_⟩
      rw [this.kind, this.span]
      exact closes

structure Agrees (doc doc' : Document) (id : NodeId) : Prop where
  eol : doc'.eol = doc.eol
  kind : doc'.kind id = doc.kind id
  span : doc'.span id = doc.span id
  children : doc'.children id = doc.children id
  remarks : ∀ slot, ∀ c' ∈ (doc'.node id).comments slot, ∀ s, c'.span = some s →
    ∃ c ∈ (doc.node id).comments slot, c.span = some s
  quiet : ∀ t, doc.text? id = some t → ∀ slot,
    (doc'.node id).comments slot = (doc.node id).comments slot
  child : ∀ c, doc.Holds id c → doc'.kind c = doc.kind c ∧ doc'.span c = doc.span c
  ghost : ∀ c, doc.Holds id c → doc.span c = none → doc'.children c = doc.children c
  keeps : (doc.kind id).hasMarkupChildren = true → ∀ c, doc.Holds id c → doc.Keeps doc' c

namespace Agrees

variable {doc doc' : Document} {id : NodeId} (same : doc.Agrees doc' id)

include same

theorem text?_eq : doc'.text? id = doc.text? id := by
  unfold text?
  rw [same.kind]

theorem holds {c : NodeId} : doc'.Holds id c ↔ doc.Holds id c := by
  unfold Holds
  rw [same.children]

theorem text?_child {c : NodeId} (h : doc.Holds id c) : doc'.text? c = doc.text? c := by
  unfold text?
  rw [(same.child c h).1]

theorem arranged (markup : (doc.kind id).hasMarkupChildren = true) (h : doc.Arranged id) :
    doc'.Arranged id := by
  obtain ⟨o, body, tail, closing, layout, rows, tails, tidy⟩ := h
  have keeps : ∀ x, x ∈ o :: ((body ++ tail) ++ closing) → doc.Keeps doc' x := by
    intro x hx
    refine same.keeps markup x ?_
    unfold Holds
    rw [layout.split]
    exact hx
  refine ⟨o, body, tail, closing, layout.transport ?_ ?_ ?_, ?_, ?_, ?_⟩
  · rw [same.children, layout.split]
  · intro x hx
    rcases List.mem_cons.mp hx with rfl | hx
    · exact keeps x (by simp)
    · exact keeps x (by simp [hx])
  · intro i hi
    rw [(keeps i (List.mem_cons_of_mem _ (List.mem_append_left _ hi))).kind]
    exact layout.items i hi
  · exact rows.transport same.eol fun x hx => keeps x (by simp [hx])
  · exact tails.transport same.eol fun x hx => keeps x (by simp [hx])
  · exact tidy.transport same.eol fun x hx =>
      keeps x (List.mem_cons_of_mem _ (List.mem_append_left _ hx))

theorem nodeOk {source : Text} (ok : doc.NodeOk source id) : doc'.NodeOk source id where
  fits := by
    rw [same.span]
    exact ok.fits
  nested := by
    intro s c t hs hc ht
    have hc := same.holds.mp hc
    rw [same.span] at hs
    rw [(same.child c hc).2] at ht
    exact ok.nested s c t hs hc ht
  ordered := by
    rw [same.children]
    refine List.Pairwise.imp_of_mem ?_ ok.ordered
    intro a b ha hb h s t hs ht
    rw [(same.child a ha).2] at hs
    rw [(same.child b hb).2] at ht
    exact h s t hs ht
  text := by
    intro t ht
    rw [same.text?_eq] at ht
    obtain ⟨leaf, silent, value⟩ := ok.text t ht
    refine ⟨by rw [same.children, leaf], fun slot => by rw [same.quiet t ht, silent], ?_⟩
    rw [same.span]
    exact value
  texts := by
    intro c t hc ht
    have hc := same.holds.mp hc
    rw [same.text?_child hc] at ht
    rw [same.kind]
    exact ok.texts c t hc ht
  remarks := by
    intro slot c' hc' s hs
    obtain ⟨c, hc, hcs⟩ := same.remarks slot c' hc' s hs
    exact ok.remarks slot c hc s hcs
  ghosts := by
    intro c hc hs
    have hc := same.holds.mp hc
    rw [(same.child c hc).2] at hs
    have ghost := ok.ghosts c hc hs
    unfold Ghost at ghost ⊢
    rw [same.kind, same.children, same.span, (same.child c hc).1, same.ghost c hc hs]
    exact ghost
  arranged := by
    rw [same.kind]
    exact fun markup => same.arranged markup (ok.arranged markup)

end Agrees

namespace Sound

variable {source : Text} {doc : Document} (sound : doc.Sound source)

include sound

theorem spanless_child {p c : NodeId} (reached : doc.Reaches p) (h : doc.Holds p c)
    (spanless : doc.span p = none) : doc.span c = none := by
  have ne : p ≠ root := fun e => sound.root_span (e ▸ spanless)
  rcases ReflTransGen.cases_tail reached with e | ⟨q, hq, hold⟩
  · exact absurd e ne
  · have ok := sound.each q hq
    have leaf : doc.children p = [] → False := fun e => by
      unfold Holds at h
      rw [e] at h
      cases h
    rcases ok.ghosts p hold spanless with markup | ⟨-, -, -, e⟩ | ⟨-, -, -, e⟩
    · rcases (ok.arranged markup).part hold spanless with note | gap | lead
      · obtain ⟨_, e, k, node, slot, -, -⟩ := note
        have hc : c = e := by
          unfold Holds children at h
          rw [node] at h
          simpa using h
        unfold span
        rw [hc, slot]
      · obtain ⟨_, _, node, -, -⟩ := gap
        exact (leaf (by unfold children; rw [node])).elim
      · obtain ⟨_, _, node, -, -, -⟩ := lead
        exact (leaf (by unfold children; rw [node])).elim
    · exact (leaf e).elim
    · exact (leaf e).elim

/-- What has a span stands in something with a span. -/
theorem parent_span {p c : NodeId} {t : Span} (reached : doc.Reaches p) (h : doc.Holds p c)
    (ht : doc.span c = some t) : ∃ s, doc.span p = some s ∧ s.lo ≤ t.lo ∧ t.hi ≤ s.hi := by
  cases hs : doc.span p with
  | none =>
    rw [sound.spanless_child reached h hs] at ht
    cases ht
  | some s => exact ⟨s, rfl, (sound.each p reached).nested s c t hs h ht⟩

theorem reaches_lt {id : NodeId} (h : doc.Reaches id) : id < doc.nodes.size :=
  sound.linked.reaches_lt sound.root_lt h

end Sound
end Quell.Document
