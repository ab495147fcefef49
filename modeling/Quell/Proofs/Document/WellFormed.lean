import Quell.Proofs.Document.Sound

/-!
Well-formed documents: those that are read from a source.

Every node that the root reaches has a span of the source, children lie in their parents and in
order, texts are what the source has there, and comments are as they were read. Such a document is
sound. Whether a document is well-formed can be tested on its table.
-/
namespace Quell

open Text

instance (source : Text) (n : Nat) : Decidable (Cut source n) :=
  decidable_of_iff _ isBoundary_iff

instance (source : Text) (s : Span) : Decidable (s.Fits source) :=
  decidable_of_iff (s.lo ≤ s.hi ∧ Cut source s.lo ∧ Cut source s.hi ∧
    s.startLine = (LineIndex.of source).lineOf s.lo ∧ s.endLine = (LineIndex.of source).lineOf s.hi)
    ⟨fun ⟨le, lo, hi, start, stop⟩ => ⟨le, lo, hi, start, stop⟩,
      fun h => ⟨h.le, h.lo, h.hi, h.startLine, h.endLine⟩⟩

namespace Document

structure ReadOk (source : Text) (doc : Document) (id : NodeId) : Prop where
  spanned : ∃ s, doc.span id = some s ∧ s.Fits source
  nested : ∀ s c t, doc.span id = some s → doc.Holds id c → doc.span c = some t →
    s.lo ≤ t.lo ∧ t.hi ≤ s.hi
  ordered : (doc.children id).Pairwise fun a b =>
    ∀ s t, doc.span a = some s → doc.span b = some t → s.hi ≤ t.lo
  text : ∀ t, doc.text? id = some t → doc.children id = [] ∧
    (∀ slot, (doc.node id).comments slot = []) ∧
    ∀ s, doc.span id = some s → slice? s.lo s.hi source = some t
  /-- Texts stand below elements. -/
  texts : ∀ c t, doc.Holds id c → doc.text? c = some t → (doc.kind id).hasMarkupChildren = true
  remarks : ∀ slot, ∀ c ∈ (doc.node id).comments slot,
    c.revised = false ∧ ∃ s, c.span = some s ∧ s.Fits source
  layout : (doc.kind id).hasMarkupChildren = true →
    ∃ o items closing, doc.Layout id o items closing

structure WellFormed (source : Text) (doc : Document) : Prop where
  linked : doc.Linked
  root_lt : root < doc.nodes.size
  root_kind : doc.kind root = .program
  root_parent : doc.parent root = none
  each : ∀ id, doc.Reaches id → doc.ReadOk source id
  apart : ∀ s t, doc.RemarkAt s → doc.RemarkAt t → s = t ∨ s.hi ≤ t.lo ∨ t.hi ≤ s.lo

theorem Rows.of_spanned {doc : Document} {xs : List NodeId} (h : ∀ x ∈ xs, doc.span x ≠ none) :
    doc.Rows xs := by
  induction xs with
  | nil => exact .nil
  | cons x xs ih => exact .own (h x (by simp)) (ih fun y hy => h y (by simp [hy]))

/-- A document as it is read is sound. -/
theorem WellFormed.sound {source : Text} {doc : Document} (wf : doc.WellFormed source) :
    doc.Sound source where
  linked := wf.linked
  root_lt := wf.root_lt
  root_kind := wf.root_kind
  root_span := by
    obtain ⟨s, hs, -⟩ := (wf.each root Relation.ReflTransGen.refl).spanned
    rw [hs]
    exact nofun
  root_parent := wf.root_parent
  apart := wf.apart
  each := by
    intro id reached
    have ok := wf.each id reached
    have spanned : ∀ c, doc.Holds id c → doc.span c ≠ none := by
      intro c hold
      obtain ⟨s, hs, -⟩ := (wf.each c (reached.child hold)).spanned
      rw [hs]
      exact nofun
    refine ⟨?_, ok.nested, ok.ordered, ok.text, ok.texts, ?_, ?_, ?_⟩
    · intro s hs
      obtain ⟨t, ht, fits⟩ := ok.spanned
      cases hs.symm.trans ht
      exact fits
    · intro slot c hc s hs
      obtain ⟨t, ht, fits⟩ := (ok.remarks slot c hc).2
      cases hs.symm.trans ht
      exact fits
    · exact fun c hold none => absurd none (spanned c hold)
    · intro markup
      obtain ⟨o, items, closing, layout⟩ := ok.layout markup
      have rows : ∀ x ∈ items, doc.span x ≠ none := fun x hx =>
        spanned x (layout.mem_children hx)
      refine ⟨o, items, [], closing, by rwa [List.append_nil], .of_spanned rows, .inl rfl, ?_⟩
      intro x b y sub gap
      rw [List.append_nil] at sub
      exact absurd gap.span_eq (rows b (sub.subset (by simp)))

def LinkedAt (doc : Document) (id : NodeId) : Prop :=
  (doc.children id).Nodup ∧
  (∀ c ∈ doc.children id, id < c ∧ c < doc.nodes.size ∧ doc.parent c = some id) ∧
  ∀ p ∈ doc.parent id, id ∈ doc.children p

/-- The children of an element behind its opening tag, without a closing tag. -/
def between (doc : Document) (id : NodeId) : List NodeId :=
  let rest := (doc.children id).tail
  if rest.getLast?.map doc.kind = some .closingTag then rest.dropLast else rest

def LaidOut (doc : Document) (id : NodeId) : Prop :=
  (doc.children id).head?.map doc.kind = some .openingTag ∧
  ∀ i ∈ doc.between id, doc.kind i ≠ .openingTag ∧ doc.kind i ≠ .closingTag

def remarkSpans (doc : Document) (id : NodeId) : List Span :=
  (doc.node id).allComments.filterMap (·.span)

def ReadAt (source : Text) (doc : Document) (id : NodeId) : Prop :=
  (doc.span id).any (fun s => decide (s.Fits source)) = true ∧
  (∀ s ∈ doc.span id, ∀ c ∈ doc.children id, ∀ t ∈ doc.span c, s.lo ≤ t.lo ∧ t.hi ≤ s.hi) ∧
  ((doc.children id).Pairwise fun a b => ∀ s ∈ doc.span a, ∀ t ∈ doc.span b, s.hi ≤ t.lo) ∧
  (∀ t ∈ doc.text? id, doc.children id = [] ∧ (doc.node id).allComments = [] ∧
    ∀ s ∈ doc.span id, slice? s.lo s.hi source = some t) ∧
  (∀ c ∈ doc.children id, doc.text? c = none ∨ (doc.kind id).hasMarkupChildren = true) ∧
  (∀ c ∈ (doc.node id).allComments,
    c.revised = false ∧ c.span.any (fun s => decide (s.Fits source)) = true) ∧
  ((doc.kind id).hasMarkupChildren = true → doc.LaidOut id)

def Reads (source : Text) (doc : Document) : Prop :=
  root < doc.nodes.size ∧ doc.kind root = .program ∧ doc.parent root = none ∧
  (∀ id < doc.nodes.size, doc.LinkedAt id ∧ doc.ReadAt source id) ∧
  ∀ i < doc.nodes.size, ∀ j < doc.nodes.size, ∀ s ∈ doc.remarkSpans i, ∀ t ∈ doc.remarkSpans j,
    s = t ∨ s.hi ≤ t.lo ∨ t.hi ≤ s.lo

section Test

variable {source : Text} {doc : Document}

instance (id : NodeId) : Decidable (doc.LinkedAt id) := inferInstanceAs (Decidable (_ ∧ _))

instance (id : NodeId) : Decidable (doc.LaidOut id) := inferInstanceAs (Decidable (_ ∧ _))

instance (id : NodeId) : Decidable (doc.ReadAt source id) := inferInstanceAs (Decidable (_ ∧ _))

instance : Decidable (doc.Reads source) := inferInstanceAs (Decidable (_ ∧ _))

theorem linked_of_linkedAt (h : ∀ id < doc.nodes.size, doc.LinkedAt id) : doc.Linked := by
  refine ⟨fun p c => ?_, fun p => ?_, acyclic_of_rank (fun j => doc.nodes.size - j) ?_⟩
  · rcases Nat.lt_or_ge p doc.nodes.size with lt | ge
    · refine ⟨fun hold => ((h p lt).2.1 c hold).2.2, fun link => ?_⟩
      rcases Nat.lt_or_ge c doc.nodes.size with lt' | ge'
      · exact (h c lt').2.2 p link
      · unfold parent at link
        rw [node_of_size_le doc ge'] at link
        cases link
    · refine ⟨fun hold => absurd (Holds.parent_lt hold) (Nat.not_lt_of_le ge), fun link => ?_⟩
      rcases Nat.lt_or_ge c doc.nodes.size with lt' | ge'
      · exact absurd (Holds.parent_lt ((h c lt').2.2 p link)) (Nat.not_lt_of_le ge)
      · unfold parent at link
        rw [node_of_size_le doc ge'] at link
        cases link
  · rcases Nat.lt_or_ge p doc.nodes.size with lt | ge
    · exact (h p lt).1
    · unfold children
      rw [node_of_size_le doc ge]
      exact List.nodup_nil
  · intro p c hold
    have lt := Holds.parent_lt hold
    exact Nat.sub_lt_sub_left lt ((h p lt).2.1 c hold).1

theorem LaidOut.tagged {id : NodeId} (h : doc.LaidOut id) :
    ∃ o items closing, doc.Tagged id o items closing := by
  obtain ⟨opens, plain⟩ := h
  obtain ⟨o, first, kind⟩ := Option.map_eq_some_iff.mp opens
  obtain ⟨rest, kids⟩ : ∃ rest, doc.children id = o :: rest := List.head?_eq_some_iff.mp first
  unfold between at plain
  rw [kids] at plain
  dsimp only [List.tail_cons] at plain
  by_cases closes : rest.getLast?.map doc.kind = some .closingTag
  · rw [if_pos closes] at plain
    obtain ⟨c, last, kind'⟩ := Option.map_eq_some_iff.mp closes
    obtain ⟨items, rfl⟩ := List.getLast?_eq_some_iff.mp last
    rw [List.dropLast_concat] at plain
    exact ⟨o, items, [c], kids, kind, .inr ⟨c, rfl, kind'⟩, plain⟩
  · rw [if_neg closes] at plain
    exact ⟨o, rest, [], by rw [kids, List.append_nil], kind, .inl rfl, plain⟩

theorem Tagged.layout {id o : NodeId} {items closing : List NodeId}
    (tagged : doc.Tagged id o items closing) (spanned : ∀ c, doc.Holds id c → doc.span c ≠ none) :
    doc.Layout id o items closing := by
  unfold Holds at spanned
  rw [tagged.split] at spanned
  refine ⟨tagged.split, ⟨tagged.opening, spanned o (by simp)⟩, ?_, tagged.items⟩
  rcases tagged.closing with h | ⟨c, rfl, closes⟩
  · exact .inl h
  · exact .inr ⟨c, rfl, closes, spanned c (by simp)⟩

theorem mem_allComments {n : Node} {c : Comment} :
    c ∈ n.allComments ↔ ∃ slot, c ∈ n.comments slot := by
  unfold Node.allComments
  simp only [List.mem_append]
  constructor
  · rintro ((h | h) | h)
    · exact ⟨.leading, h⟩
    · exact ⟨.trailing, h⟩
    · exact ⟨.inner, h⟩
  · rintro ⟨slot, h⟩
    cases slot with
    | leading => exact .inl (.inl h)
    | trailing => exact .inl (.inr h)
    | inner => exact .inr h

theorem mem_remarkSpans {id : NodeId} {slot : Slot} {c : Comment} {s : Span}
    (mem : c ∈ (doc.node id).comments slot) (span : c.span = some s) : s ∈ doc.remarkSpans id :=
  List.mem_filterMap.mpr ⟨c, mem_allComments.mpr ⟨slot, mem⟩, span⟩

/-- A document that passes the test is well-formed. -/
theorem wellFormed_of_reads (h : doc.Reads source) : doc.WellFormed source := by
  obtain ⟨root_lt, root_kind, root_parent, each, apart⟩ := h
  have linked := linked_of_linkedAt fun id lt => (each id lt).1
  have inside : ∀ id, doc.Reaches id → doc.ReadAt source id := fun id reached =>
    (each id (linked.reaches_lt root_lt reached)).2
  have fits : ∀ {s : Option Span}, s.any (fun s => decide (s.Fits source)) = true →
      ∃ t, s = some t ∧ t.Fits source := by
    intro s h
    obtain ⟨t, ht, fits⟩ := (Option.any_eq_true _ _).mp h
    exact ⟨t, ht, of_decide_eq_true fits⟩
  refine ⟨linked, root_lt, root_kind, root_parent, fun id reached => ?_, ?_⟩
  · obtain ⟨span, nested, ordered, text, texts, remarks, layout⟩ := inside id reached
    refine ⟨fits span, fun s c t hs hc ht => nested s hs c hc t ht, ?_, ?_, ?_, ?_, ?_⟩
    · exact ordered.imp fun h s t hs ht => h s hs t ht
    · intro t ht
      obtain ⟨leaf, silent, value⟩ := text t ht
      refine ⟨leaf, fun slot => List.eq_nil_iff_forall_not_mem.mpr fun c hc => ?_, value⟩
      have := mem_allComments.mpr ⟨slot, hc⟩
      rw [silent] at this
      cases this
    · intro c t hold ht
      rcases texts c hold with none | markup
      · rw [none] at ht
        cases ht
      · exact markup
    · intro slot c hc
      obtain ⟨original, spans⟩ := remarks c (mem_allComments.mpr ⟨slot, hc⟩)
      exact ⟨original, fits spans⟩
    · intro markup
      obtain ⟨o, items, closing, tagged⟩ := (layout markup).tagged
      refine ⟨o, items, closing, tagged.layout fun c hold => ?_⟩
      obtain ⟨t, ht, -⟩ := fits (inside c (reached.child hold)).1
      rw [ht]
      exact nofun
  · have listed : ∀ s, doc.RemarkAt s → ∃ id < doc.nodes.size, s ∈ doc.remarkSpans id := by
      rintro s ⟨id, slot, c, reached, hc, hs⟩
      exact ⟨id, linked.reaches_lt root_lt reached, mem_remarkSpans hc hs⟩
    intro s t hs ht
    obtain ⟨i, hi, mem⟩ := listed s hs
    obtain ⟨j, hj, mem'⟩ := listed t ht
    exact apart i hi j hj s mem t mem'

end Test

/-- A statement with a comment above it. -/
def sampleSource : Text := "// a\nb();\n".toList

def sample : Document where
  nodes := #[
    { kind := .program, span := some ⟨0, 10, 1, 3⟩, children := [1] },
    { kind := .statement, span := some ⟨5, 9, 2, 2⟩, parent := some 0
      leading := [{ kind := .line, text := " a".toList, placement := .leading
                    span := some ⟨0, 4, 1, 1⟩ }] }]

end Document
end Quell
