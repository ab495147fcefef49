import Quell.Proofs.Annotate.Tweaks
import Quell.Proofs.Document.WellFormed
import Quell.Proofs.Text.LineSearch

/-!
Fragments stay anchored in their source.

A text with a span shows what the source has there, and its lines are those of the source. Splitting,
segmenting and calls may follow each other in any order on any linked document: none of them faults,
and every text with a span that is reached afterwards shows the source again
(`requests_keep_faithful`). The lines of a fragment are counted from those of the text around it, and
the lines of the source are found by a search; that the two never drift apart is `Span.Shows.part`.
-/
namespace Quell.Document

open Text Relation

/-- What may be asked of a document. -/
inductive Request where
  | split (id : NodeId) (offset : Nat)
  | segment (parent keep : NodeId)
  | annotate (o : AnnotateOptions) (line : Nat) (rule : Text)

def Request.run (doc : Document) : Request → Except Fault Document
  | split id offset => (doc.splitText id offset).map (·.1)
  | segment parent keep => doc.segmentChildren parent keep
  | annotate o line rule => (doc.annotateOne o line rule).map (·.1)

theorem Request.run_tweaks {doc : Document} (linked : doc.Linked) (root_lt : root < doc.nodes.size)
    (request : Request) : ∃ doc', request.run doc = .ok doc' ∧ Tweaks doc doc' := by
  cases request with
  | split id offset =>
    obtain ⟨doc', halves, ran, tweaks⟩ := splitText_tweaks linked id offset
    exact ⟨doc', by rw [Request.run, ran]; rfl, tweaks⟩
  | segment parent keep => exact segmentChildren_tweaks linked parent keep
  | annotate o line rule =>
    obtain ⟨doc', r, ran, tweaks⟩ := annotateOne_tweaks o linked root_lt line rule
    exact ⟨doc', by rw [Request.run, ran]; rfl, tweaks⟩

theorem requests_tweaks {doc : Document} (linked : doc.Linked) (root_lt : root < doc.nodes.size)
    (requests : List Request) :
    ∃ doc', requests.foldlM Request.run doc = .ok doc' ∧ Tweaks doc doc' :=
  foldlM_tweaks linked (fun _ request linked le =>
    request.run_tweaks linked (Nat.lt_of_lt_of_le root_lt le)) requests

/-- How a document that shows its source comes out of any number of edits. -/
structure Kept (source : Text) (doc doc' : Document) (parts : NodeId → List NodeId) : Prop where
  linked : doc'.Linked
  faithful : doc'.Faithful source
  pieced : doc.Pieced doc' parts
  /-- What stands for a text takes up its span. -/
  stands : ∀ id, doc.Reaches id → ∀ t s, doc.text? id = some t → doc.span id = some s →
    doc'.Abut s.lo s.hi (parts id) ∧
    ∀ c ∈ parts id, ∃ v r, doc'.text? c = some v ∧ doc'.span c = some r ∧ r.Shows source v

/-- Requests on a linked document end without a fault and keep every text in its place. A split gives
two halves at a cut of the text and changes nothing anywhere else; the line of an offset, however it
is searched for, is one more than the line feeds in front of it. -/
theorem requests_keep_faithful {source : Text} {doc : Document} (linked : doc.Linked)
    (root_lt : root < doc.nodes.size) (faithful : doc.Faithful source) (requests : List Request) :
    (∃ doc' parts, requests.foldlM Request.run doc = .ok doc' ∧ doc.Kept source doc' parts) ∧
    (∀ id n, (∀ t, doc.text? id = some t → ¬ Cut t n) → doc.splitText id n = .ok (doc, none)) ∧
    (∀ id a b, doc.text? id = some (a ++ b) → ∃ doc',
      doc.splitText id (bytes a) = .ok (doc', some (doc.nodes.size, doc.nodes.size + 1)) ∧
      ∀ p A C, doc.children p = A ++ [id] ++ C →
        doc'.children p = A ++ [doc.nodes.size, doc.nodes.size + 1] ++ C ∧
        doc.CutInto doc' id [doc.nodes.size, doc.nodes.size + 1]) ∧
    ∀ offset, (LineIndex.of source).lineOf offset = 1 + breaksBefore offset source ∧
      (Finding.bisect (LineIndex.of source).starts offset 0 (LineIndex.of source).starts.length).rank =
        (LineIndex.of source).lineOf offset ∧
      ∀ found : Finding, found.Right (LineIndex.of source).starts offset →
        found.rank = (LineIndex.of source).lineOf offset := by
  refine ⟨?_, fun id n off => splitText_uncut off, fun id a b value => ?_, fun offset =>
    ⟨LineIndex.lineOf_eq_breaksBefore source offset,
      LineIndex.lineOf_of_search (LineIndex.search_starts source offset), fun found right =>
        LineIndex.lineOf_of_search right⟩⟩
  · obtain ⟨doc', ran, tweaks⟩ := requests_tweaks linked root_lt requests
    obtain ⟨parts, pieced⟩ := tweaks.pieced linked
    exact ⟨doc', parts, ran, tweaks.linked linked, pieced.faithful linked root_lt faithful, pieced,
      fun id reached t s text span => pieced.stands text span (faithful id reached t s text span)⟩
  · obtain ⟨doc', ran, -, halves⟩ := splitText_cut linked value
    exact ⟨doc', ran, halves⟩

theorem faithful_of_all {source : Text} {doc : Document}
    (all : ∀ id < doc.nodes.size, ∀ t ∈ doc.text? id, ∀ s ∈ doc.span id,
      slice? s.lo s.hi source = some t ∧ s.startLine = (LineIndex.of source).lineOf s.lo ∧
        s.endLine = (LineIndex.of source).lineOf s.hi) : doc.Faithful source := by
  intro id _ t s text span
  obtain ⟨slice, start, stop⟩ := all id (lt_of_text? text) t text s span
  exact ⟨slice, start, stop⟩

def accentedSource : Text := "<a>é\n b</a>".toList

/-- Its text starts with a character of two bytes. -/
def accented : Document where
  nodes := #[
    { kind := .program, span := some ⟨0, 12, 1, 2⟩, children := [1] },
    { kind := .element, span := some ⟨0, 12, 1, 2⟩, parent := some 0, children := [2, 3, 4] },
    { kind := .openingTag, span := some ⟨0, 3, 1, 1⟩, parent := some 1 },
    { kind := .text "é\n b".toList, span := some ⟨3, 8, 1, 2⟩, parent := some 1 },
    { kind := .closingTag, span := some ⟨8, 12, 2, 2⟩, parent := some 1 }]

/-- The character is not cut. Behind it the text is, and the second half once more. -/
theorem requests_keep_faithful_accented :
    accented.Linked ∧ root < accented.nodes.size ∧ accented.Faithful accentedSource ∧
    (∃ doc' parts, [.split 3 1, .split 3 2, .segment 1 9, .annotate {} 2 ['r']].foldlM
      Request.run accented = .ok doc' ∧ accented.Kept accentedSource doc' parts) ∧
    accented.splitText 3 1 = .ok (accented, none) ∧
    ∃ doc', accented.splitText 3 2 = .ok (doc', some (5, 6)) ∧ doc'.children 1 = [2, 5, 6, 4] := by
  have linked : accented.Linked := linked_of_linkedAt (by decide +kernel)
  have root_lt : root < accented.nodes.size := by decide
  have faithful : accented.Faithful accentedSource := faithful_of_all (by decide +kernel)
  obtain ⟨kept, uncut, halves, -⟩ := requests_keep_faithful linked root_lt faithful
    [.split 3 1, .split 3 2, .segment 1 9, .annotate {} 2 ['r']]
  refine ⟨linked, root_lt, faithful, kept, uncut 3 1 fun t value cut => ?_, ?_⟩
  · cases value
    exact absurd (isBoundary_iff.mpr cut) (by decide)
  · obtain ⟨doc', ran, place⟩ := halves 3 ['é'] "\n b".toList rfl
    exact ⟨doc', ran, (place 1 [2] [4] rfl).1⟩

end Quell.Document
