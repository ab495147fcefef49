import Mathlib.Data.List.Dedup
import Mathlib.Data.List.Nodup
import Quell.Proofs.Annotate.Flag
import Quell.Proofs.Annotate.Printed

/-!
Runs on what a run has printed.

Every line goes down by the directives above it and above the lines before it (`Overlaid.slid_eq`). A call
for the line on which a target stands now finds the directive (`annotateSource_found`). The same run
again takes the old line numbers for the new text: it changes nothing if each of them that is now the line
of a target asks for a rule that the directive there has been given (`annotateSource_twice`).
-/
namespace Quell

open Text Relation Grammar

namespace Document

variable {doc doc' : Document} {o : AnnotateOptions} {ds : List Diagnostic} {line : Nat}
variable {id q : NodeId} {u : Span} {path text text' : Text} {p p' : Program} {summary : Summary}
variable {notes : List Grammar.Note}

/-- The lines that get a directive above them, each once. -/
def rowLines (o : AnnotateOptions) (doc : Document) (ds : List Diagnostic) : List Nat :=
  ((ds.filter fun d => asks? o d && (doc.locate d.line).isSome).map (·.line)).dedup

/-- The line that a line becomes. -/
def lowered (o : AnnotateOptions) (doc : Document) (ds : List Diagnostic) (line : Nat) : Nat :=
  line + (rowLines o doc ds).countP (· ≤ line)

theorem mem_rowLines : line ∈ rowLines o doc ds ↔
    ∃ d ∈ ds, ∃ rule, Asks o d rule ∧ doc.locate d.line ≠ none ∧ d.line = line := by
  unfold rowLines asks? Asks
  simp only [List.mem_dedup, List.mem_map, List.mem_filter, Bool.and_eq_true, Option.any_eq_true,
    Option.isSome_iff_ne_none]
  constructor
  · rintro ⟨d, ⟨mem, ⟨rule, asks⟩, target⟩, here⟩
    exact ⟨d, mem, rule, asks, target, here⟩
  · rintro ⟨d, mem, rule, asks, target, here⟩
    exact ⟨d, ⟨mem, ⟨rule, asks⟩, target⟩, here⟩

theorem breaks_row {note : Grammar.Note} (fits : note.Fits text p) (eol : LineEnding) :
    breaks (note.row eol).2 = 1 := by
  have body : breaks note.body = 0 := by
    unfold breaks
    rw [List.count_eq_zero]
    intro mem
    exact absurd (fits.plain '\n' mem) (by decide)
  have slashes : breaks ['/', '/'] = 0 := rfl
  show breaks (['/', '/'] ++ (note.body ++ (eol.text ++ note.indent))) = 1
  simp only [breaks_append, slashes, body, eol.breaks_text, fits.blank.breaks]

theorem gained_of_ones {rows : List RowAt} {passes : Nat → Bool} (ones : ∀ r ∈ rows, breaks r.2 = 1) :
    gained breaks passes rows = (rows.map (·.1)).countP passes := by
  induction rows with
  | nil => rfl
  | cons r rows ih =>
    rw [gained_cons, ih fun x mem => ones x (List.mem_cons_of_mem r mem), List.map_cons,
      List.countP_cons, ones r List.mem_cons_self, Nat.add_comm]

namespace Overlaid

variable (overlaid : Overlaid o path text text' ds p p' doc doc' notes)
variable (writes : WritesAbove o path text p doc ds) (wf : doc.WellFormed text)

include overlaid writes wf

/-- The lines above which the notes go. -/
theorem lines_perm : (notes.map fun n => (LineIndex.of text).lineOf n.lo).Perm (rowLines o doc ds) := by
  have snug := writes.snug
  have once : (rowLines o doc ds).Nodup := List.nodup_dedup _
  refine (List.perm_ext_iff_of_nodup ?_ once).mpr fun line => ?_
  · -- notes on one line would belong to one target
    rw [List.Nodup, List.pairwise_map]
    refine overlaid.order.imp_of_mem fun {m n} hm hn lt same => ?_
    obtain ⟨d, -, -, id, q, u, -, opens, here⟩ := (overlaid.places m.lo).mp ⟨m, hm, rfl⟩
    obtain ⟨e, -, -, j, q', v, -, opens', there⟩ := (overlaid.places n.lo).mp ⟨n, hn, rfl⟩
    rw [← here, ← there, (opens.opensAt wf snug).line_eq, (opens'.opensAt wf snug).line_eq] at same
    have located := opens.located
    rw [same, opens'.located] at located
    cases located
    cases opens.span.symm.trans opens'.span
    omega
  · rw [mem_rowLines, List.mem_map]
    constructor
    · rintro ⟨n, mem, rfl⟩
      obtain ⟨d, held, rule, id, q, u, asks, opens, here⟩ := (overlaid.places n.lo).mp ⟨n, mem, rfl⟩
      refine ⟨d, held, rule, asks, by rw [opens.located]; exact nofun, ?_⟩
      rw [← here, (opens.opensAt wf snug).line_eq]
    · rintro ⟨d, held, rule, asks, target, rfl⟩
      rcases (writes.each d held rule asks).2.2 with none | ⟨id, q, u, opens⟩
      · exact absurd none target
      · obtain ⟨n, mem, here⟩ := (overlaid.places u.lo).mpr ⟨d, held, rule, id, q, u, asks, opens, rfl⟩
        exact ⟨n, mem, by rw [here, (opens.opensAt wf snug).line_eq]⟩

theorem slid_eq (line : Nat) :
    slid (notes.map (Note.row doc.eol)) text line = doc.lowered o ds line := by
  have ones : ∀ r ∈ notes.map (Note.row doc.eol), breaks r.2 = 1 := by
    intro r mem
    obtain ⟨n, held, rfl⟩ := List.mem_map.mp mem
    exact breaks_row (overlaid.fits n held) doc.eol
  have count := (overlaid.lines_perm writes wf).countP_eq (· ≤ line)
  rw [List.countP_map] at count
  unfold slid lowered
  rw [gained_of_ones ones, List.map_map, List.countP_map, ← count]
  rfl

theorem locate_lowered (line : Nat) : doc'.locate (doc.lowered o ds line) = doc.locate line := by
  rw [← overlaid.slid_eq writes wf]
  exact overlaid.again.lowered.locate_slid overlaid.read.wellFormed.sound line

theorem locate_other {n : Nat} (other : ∀ m, doc.locate m ≠ none → doc.lowered o ds m ≠ n) :
    doc'.locate n = none := by
  refine overlaid.again.lowered.locate_other overlaid.read.wellFormed.sound fun m some => ?_
  rw [overlaid.slid_eq writes wf]
  exact other m some

/-- A call for the line on which a target that was asked for stands now finds its directive. -/
theorem call {d : Diagnostic} (mem : d ∈ ds) {rule : Text} (asks : Asks o d rule)
    (located : doc.locate d.line = some (.node id (some q))) :
    doc'.annotateOne o (doc.lowered o ds d.line) rule = .ok (doc', .alreadySuppressed) := by
  have sound := overlaid.read.wellFormed.sound
  have ordinary : doc.Ordinary d.line := by
    rcases (writes.each d mem rule asks).2.2 with none | ⟨_, _, _, opens⟩
    · cases none.symm.trans located
    · exact opens.ordinary
  have covered := (overlaid.marked d mem rule asks id q located).coveredAt overlaid.again.filed sound
  refine covered.annotateOne_eq ?_ ?_ sound o
  · rw [overlaid.locate_lowered writes wf, located]
  · rw [← overlaid.slid_eq writes wf]
    exact overlaid.again.lowered.ordinary sound ordinary

end Overlaid

theorem annotateFrom_still (idle : ∀ d ∈ ds, ∀ rule, Asks o d rule →
    ∃ r, doc.annotateOne o d.line rule = .ok (doc, r) ∧ ¬ Changing r) (s : Summary) :
    ∃ s', doc.annotateFrom o s ds = .ok (doc, s') ∧ s'.changed = s.changed := by
  induction ds generalizing s with
  | nil => exact ⟨s, rfl, rfl⟩
  | cons d ds ih =>
    have rest := ih fun e mem => idle e (List.mem_cons_of_mem d mem)
    rw [annotateFrom]
    cases actionable : d.actionableRule with
    | none => exact rest s
    | some rule =>
      dsimp only
      split
      next allows =>
        obtain ⟨r, called, still⟩ := idle d List.mem_cons_self rule ⟨actionable, allows⟩
        obtain ⟨s', ran, same⟩ := rest (s.record d.line rule r)
        refine ⟨s', by rw [called]; exact ran, same.trans ?_⟩
        rw [Bool.eq_iff_iff, changed_record, or_iff_left still]
      next => exact rest s

end Document
end Quell
