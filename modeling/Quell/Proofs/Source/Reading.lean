import Quell.Proofs.Document.WellFormed
import Quell.Source

/-!
Sources whose nodes are read in order.

The nodes of most sources come in the order in which they stand, and sorting leaves them alone. The
functions here leave the sorting out, so that a reading can be carried out by evaluation alone; where
they answer, they say what reading and annotating a source do.
-/
namespace Quell

open Grammar

namespace Document

def InOrder (doc : Document) : Prop :=
  ∀ n ∈ doc.nodes, n.children.Pairwise fun a b => doc.sortsBefore a b = true

instance (doc : Document) : Decidable doc.InOrder := inferInstanceAs (Decidable (∀ n ∈ doc.nodes, _))

theorem sortChildren_eq_self {doc : Document} (h : doc.InOrder) : doc.sortChildren = doc := by
  have each : ∀ n ∈ doc.nodes,
      { n with children := n.children.mergeSort doc.sortsBefore } = n := by
    intro n hn
    rw [List.mergeSort_of_pairwise (h n hn)]
  unfold sortChildren
  rw [Array.map_congr_left each, Array.map_id'']
  exact fun _ => rfl

def plantInOrder? (s : Source) (p : Program) : Option Document :=
  match plantAll s root (new (some (s.span 0 s.text.bytes)) (LineEnding.detect s.text)) p.terms with
  | .error _ => none
  | .ok doc =>
    if doc.InOrder then
      some (doc.attachAll (p.remarks.map fun r => ⟨r.kind, r.text, s.span r.lo r.hi⟩))
    else none

def readInOrder? (path text : Text) : Option Document :=
  (Program.read? (Dialect.ofPath path) (Source.unmarked text)).bind (plantInOrder? (Source.of text))

theorem ofProgram_of_inOrder {s : Source} {p : Program} {doc : Document}
    (h : plantInOrder? s p = some doc) : ofProgram s p = .ok doc := by
  unfold plantInOrder? at h
  unfold ofProgram
  cases planted : plantAll s root
      (new (some (s.span 0 s.text.bytes)) (LineEnding.detect s.text)) p.terms with
  | error e =>
    rw [planted] at h
    cases h
  | ok tree =>
    rw [planted] at h
    dsimp only at h
    split at h
    next order =>
      cases h
      simp only [bind, Except.bind, planted, sortChildren_eq_self order]
      rfl
    next => cases h

theorem read?_of_inOrder {path text : Text} {doc : Document}
    (h : readInOrder? path text = some doc) : read? path text = .ok (some doc) := by
  obtain ⟨p, program, planted⟩ := Option.bind_eq_some_iff.mp h
  unfold read?
  rw [program]
  dsimp only
  rw [ofProgram_of_inOrder planted]
  rfl

theorem exists_program_of_inOrder {path text : Text} {doc : Document} {P : Program → Prop}
    [DecidablePred P]
    (h : (Program.read? (Dialect.ofPath path) (Source.unmarked text)).any (fun p =>
      decide (plantInOrder? (Source.of text) p = some doc ∧ P p)) = true) :
    ∃ p, Program.read? (Dialect.ofPath path) (Source.unmarked text) = some p ∧
      ofProgram (Source.of text) p = .ok doc ∧ P p := by
  obtain ⟨p, program, passes⟩ := (Option.any_eq_true _ _).mp h
  obtain ⟨planted, holds⟩ := of_decide_eq_true passes
  exact ⟨p, program, ofProgram_of_inOrder planted, holds⟩

theorem exists_read_of_inOrder {path text : Text}
    (h : (readInOrder? path text).any (fun doc => decide (doc.Reads text)) = true) :
    ∃ doc, read? path text = .ok (some doc) ∧ doc.WellFormed text := by
  obtain ⟨doc, read, reads⟩ := (Option.any_eq_true _ _).mp h
  exact ⟨doc, read?_of_inOrder read, wellFormed_of_reads (of_decide_eq_true reads)⟩

end Document

def annotateInOrder? (o : AnnotateOptions) (path text : Text) (ds : List Diagnostic) :
    Option Outcome :=
  match Document.readInOrder? path text with
  | none => none
  | some doc =>
    match doc.annotate o ds with
    | .error _ => none
    | .ok (doc, summary) =>
      if summary.changed then
        match doc.print text with
        | .error _ => none
        | .ok new => some ⟨summary, some new⟩
      else some ⟨summary, none⟩

theorem annotateSource_of_inOrder {o : AnnotateOptions} {path text : Text} {ds : List Diagnostic}
    {out : Outcome} (work : (ds.filterMap Diagnostic.actionableRule).any o.allows = true)
    (h : annotateInOrder? o path text ds = some out) :
    annotateSource o path text ds = .ok (some out) := by
  unfold annotateInOrder? at h
  unfold annotateSource
  rw [work]
  cases read : Document.readInOrder? path text with
  | none =>
    rw [read] at h
    cases h
  | some doc =>
    rw [read] at h
    rw [Document.read?_of_inOrder read]
    dsimp only at h
    cases ran : doc.annotate o ds with
    | error e =>
      rw [ran] at h
      cases h
    | ok result =>
      obtain ⟨doc', summary⟩ := result
      rw [ran] at h
      dsimp only at h
      simp only [bind, Except.bind, ran]
      cases changed : summary.changed with
      | false =>
        rw [changed] at h
        cases h
        rfl
      | true =>
        rw [changed] at h
        cases printed : doc'.print text with
        | error e =>
          rw [printed] at h
          cases h
        | ok new =>
          rw [printed] at h
          cases h
          rfl

/-- Options with a short message. -/
def briefOptions : AnnotateOptions := { message := ['m'] }

/-- An error on a line. -/
def complaint (line : Nat) (rule : Char) : Diagnostic := ⟨line, none, some [rule], 2, none⟩

end Quell
