import Mathlib.Data.List.Find
import Quell.Proofs.Annotate.Governs
import Quell.Proofs.Source.Lowered

/-!
Where the comments belong when rows have been put in.

A comment of the source still belongs to the same slot (`Lowered.owner_moved`), and the comment of a row
to the front of the target below it (`Lowered.owner_row`). So the new document is well-formed as the old
one is (`Lowered.wellFormed`).
-/
namespace Quell

open Text Relation Grammar

/-- A span with its start moved behind the rows there, and its end in front of them. -/
def Span.moved (rows : List RowAt) (text : Text) (r : Span) : Span :=
  (Source.of text).span (startAfter rows r.lo) (stopAfter rows r.hi)

namespace Document

variable {source text : Text} {doc doc' : Document} {rows : List RowAt} {id : NodeId}
variable {p p' : Program} {s r : Span}

theorem Sound.reaches_around (sound : doc.Sound source) (r : Span) : doc.Reaches (doc.around r) := by
  obtain ⟨rank, falls, bound⟩ := sound.linked.height
  have narrows : doc.Narrows r root (doc.enclosing r doc.nodes.size root) :=
    narrows_enclosing falls (bound root sound.root_lt)
  exact below_of_enters narrows.entered

theorem comments_ofProgram {s : Source} (read : ofProgram s p = .ok doc)
    (valid : id < doc.nodes.size) (slot : Slot) : ∃ tree : Document, tree.SameTree doc ∧
      (doc.node id).comments slot =
        ((p.remarks.map fun r => (⟨r.kind, r.text, s.span r.lo r.hi⟩ : RawComment)).filter
          (tree.Owns id slot)).map tree.placed := by
  obtain ⟨tree, planted, rfl⟩ := ofProgram_ok read
  have same := sameTree_attachAll tree.sortChildren
    (p.remarks.map fun r => ⟨r.kind, r.text, s.span r.lo r.hi⟩)
  have silent := ((silent_new _ _).plantAll planted).sortChildren
  refine ⟨_, same, ?_⟩
  rw [comments_attachAll _ (same.size ▸ valid), silent id slot, List.nil_append]

theorem comment_of_remark {s : Source} {slot : Slot} {r : Remark} (read : ofProgram s p = .ok doc)
    (valid : id < doc.nodes.size) (stands : r ∈ p.remarks)
    (place : (doc.owner (s.span r.lo r.hi)).1 = id ∧ (doc.owner (s.span r.lo r.hi)).2.1 = slot) :
    ∃ c ∈ (doc.node id).comments slot,
      c.kind = r.kind ∧ c.text = r.text ∧ c.span = some (s.span r.lo r.hi) := by
  obtain ⟨tree, same, held⟩ := comments_ofProgram read valid slot
  rw [same.owner_eq] at place
  refine ⟨tree.placed ⟨r.kind, r.text, s.span r.lo r.hi⟩, ?_, rfl, rfl, rfl⟩
  rw [held]
  exact List.mem_map_of_mem (List.mem_filter.mpr
    ⟨List.mem_map_of_mem stands, decide_eq_true place⟩)

theorem remark_of_comment {s : Source} {slot : Slot} {c : Comment} (read : ofProgram s p = .ok doc)
    (valid : id < doc.nodes.size) (mem : c ∈ (doc.node id).comments slot) :
    ∃ r ∈ p.remarks, c.span = some (s.span r.lo r.hi) ∧ c.revised = false ∧
      (doc.owner (s.span r.lo r.hi)).1 = id ∧ (doc.owner (s.span r.lo r.hi)).2.1 = slot := by
  obtain ⟨tree, same, held⟩ := comments_ofProgram read valid slot
  rw [held] at mem
  obtain ⟨raw, owns, rfl⟩ := List.mem_map.mp mem
  obtain ⟨listed, place⟩ := List.mem_filter.mp owns
  obtain ⟨r, stands, rfl⟩ := List.mem_map.mp listed
  refine ⟨r, stands, rfl, rfl, ?_⟩
  rw [same.owner_eq]
  exact of_decide_eq_true place

namespace Lowered

variable (lowered : Lowered rows source text doc doc')

include lowered

theorem contains_eq {e c : NodeId} (hold : doc.Holds e c) (r : Span) :
    (doc'.span c).any (·.contains (Span.moved rows text r)) = (doc.span c).any (·.contains r) := by
  have proper := lowered.sound.ne_root_of_holds hold
  cases span : doc.span c with
  | none =>
    rw [lowered.displaced.span c proper, span]
    rfl
  | some v =>
    rw [lowered.span_eq proper span]
    simp [Span.contains, Span.moved, Source.span, startAfter_le_iff, stopAfter_le_startAfter_iff]

theorem enclosing_eq (r : Span) (fuel : Nat) (e : NodeId) :
    doc'.enclosing (Span.moved rows text r) fuel e = doc.enclosing r fuel e := by
  induction fuel generalizing e with
  | zero => rfl
  | succ fuel ih =>
    have same : (doc.children e).find? (fun c => (doc'.span c).any (·.contains (Span.moved rows text r))) =
        (doc.children e).find? fun c => (doc.span c).any (·.contains r) :=
      List.find?_congr fun c hold => lowered.contains_eq hold r
    rw [enclosing, enclosing, lowered.displaced.children, same]
    split
    next c _ => exact ih c
    next => rfl

theorem spanned_eq (e : NodeId) : doc'.spanned e = (doc.spanned e).map fun x =>
    (x.1, (Source.of text).span (startAfter rows x.2.lo) (startAfter rows x.2.hi)) := by
  unfold spanned
  rw [lowered.displaced.children, List.map_filterMap]
  refine List.filterMap_congr fun c hold => ?_
  rw [lowered.displaced.span c (lowered.sound.ne_root_of_holds hold)]
  cases doc.span c <;> rfl

theorem before_eq (r : Span) (e : NodeId) :
    ((doc'.spanned e).filter fun x => x.2.hi ≤ (Span.moved rows text r).lo).getLast? =
      (((doc.spanned e).filter fun x => x.2.hi ≤ r.lo).getLast?).map fun x =>
        (x.1, (Source.of text).span (startAfter rows x.2.lo) (startAfter rows x.2.hi)) := by
  rw [lowered.spanned_eq, List.filter_map, List.getLast?_map]
  congr 3
  funext x
  exact decide_eq_decide.mpr startAfter_le_iff

theorem behind_eq (r : Span) (e : NodeId) :
    (doc'.spanned e).find? (fun x => (Span.moved rows text r).hi ≤ x.2.lo) =
      ((doc.spanned e).find? fun x => r.hi ≤ x.2.lo).map fun x =>
        (x.1, (Source.of text).span (startAfter rows x.2.lo) (startAfter rows x.2.hi)) := by
  rw [lowered.spanned_eq, List.find?_map]
  congr 2
  funext x
  exact decide_eq_decide.mpr stopAfter_le_startAfter_iff

/-- Lines that differ still do, and a line stays one if no row goes in. -/
theorem line_iff {t : Span} (fits : r.Fits source) (fits' : t.Fits source) (low : t.hi ≤ r.lo)
    (near : t.endLine = r.startLine → ∀ row ∈ rows, row.1 ≤ r.lo → row.1 ≤ t.hi) :
    ((Source.of text).span (startAfter rows t.lo) (startAfter rows t.hi)).endLine =
      (Span.moved rows text r).startLine ↔ t.endLine = r.startLine := by
  have stop := (lowered.weaves.start fits'.hi).2
  have start := (lowered.weaves.start fits.lo).2
  show (LineIndex.of text).lineOf (startAfter rows t.hi) =
    (LineIndex.of text).lineOf (startAfter rows r.lo) ↔ _
  rw [stop, start, ← fits'.endLine, ← fits.startLine]
  have beyond := fits'.endLine_le fits low
  have more : gained breaks (· ≤ t.hi) rows ≤ gained breaks (· ≤ r.lo) rows := gained_mono
    fun row _ le => decide_eq_true (Nat.le_trans (of_decide_eq_true le) low)
  refine ⟨fun same => by omega, fun same => ?_⟩
  rw [same, gained_congr (q := (· ≤ r.lo)) fun row mem => decide_eq_decide.mpr
    ⟨fun le => Nat.le_trans le low, near same row mem⟩]

/-- If no row goes in between a node and a comment behind it on its line, then the comment belongs to
the same slot. -/
theorem owner_eq (fits : r.Fits source) (near : ∀ a c t u, doc.Holds (doc.around r) a →
    doc.Holds (doc.around r) c → doc.span a = some t → doc.span c = some u → t.hi ≤ r.lo →
      r.hi ≤ u.lo → t.endLine = r.startLine → (doc.owner r).1 = a → (doc.owner r).2.1 = .trailing →
      ∀ row ∈ rows, row.1 ≤ r.lo → row.1 ≤ t.hi) :
    (doc'.owner (Span.moved rows text r)).1 = (doc.owner r).1 ∧
      (doc'.owner (Span.moved rows text r)).2.1 = (doc.owner r).2.1 := by
  have sound := lowered.sound
  have reached := sound.reaches_around r
  unfold around at near reached
  generalize mine : doc.owner r = o at near ⊢
  unfold owner at mine ⊢
  dsimp only at mine ⊢
  rw [lowered.displaced.size, lowered.enclosing_eq, lowered.before_eq, lowered.behind_eq]
  cases last : ((doc.spanned (doc.enclosing r doc.nodes.size root)).filter
      fun x => x.2.hi ≤ r.lo).getLast? with
  | none =>
    rw [last] at mine
    cases first : (doc.spanned (doc.enclosing r doc.nodes.size root)).find? fun x => r.hi ≤ x.2.lo with
    | none =>
      rw [first] at mine
      cases mine
      exact ⟨rfl, rfl⟩
    | some x =>
      rw [first] at mine
      cases mine
      exact ⟨rfl, rfl⟩
  | some x =>
    rw [last] at mine
    cases first : (doc.spanned (doc.enclosing r doc.nodes.size root)).find? fun x => r.hi ≤ x.2.lo with
    | none =>
      rw [first] at mine
      cases mine
      exact ⟨rfl, rfl⟩
    | some y =>
      rw [first] at mine
      obtain ⟨a, t⟩ := x
      obtain ⟨c, u⟩ := y
      obtain ⟨held, low⟩ := List.mem_filter.mp (List.mem_of_getLast? last)
      obtain ⟨hold, span⟩ := mem_spanned.mp held
      obtain ⟨hold', span'⟩ := mem_spanned.mp (List.mem_of_find?_eq_some first)
      have low := of_decide_eq_true low
      have high := List.find?_some first
      simp only [decide_eq_true_eq] at high
      dsimp only [Option.map_some] at mine ⊢
      have lines := lowered.line_iff fits (sound.fits (reached.child hold) span) low fun same => by
        rw [if_pos same] at mine
        cases mine
        exact near a c t u hold hold' span span' low high same rfl rfl
      by_cases same : t.endLine = r.startLine
      · rw [if_pos same] at mine
        rw [if_pos (lines.mpr same)]
        cases mine
        exact ⟨rfl, rfl⟩
      · rw [if_neg same] at mine
        rw [if_neg (mt lines.mp same)]
        cases mine
        exact ⟨rfl, rfl⟩

/-- A comment of the source belongs to the slot it has belonged to. -/
theorem owner_moved (wf : doc.WellFormed source) {slot : Slot} {c : Comment}
    (owned : (doc.owner r).1 = id ∧ (doc.owner r).2.1 = slot) (mem : c ∈ (doc.node id).comments slot)
    (fits : r.Fits source) (solid : r.lo < r.hi) :
    (doc'.owner (Span.moved rows text r)).1 = id ∧
      (doc'.owner (Span.moved rows text r)).2.1 = slot := by
  have sound := lowered.sound
  have reached := sound.reaches_around r
  obtain ⟨rfl, rfl⟩ := owned
  refine lowered.owner_eq fits fun a c' t u hold hold' span span' low high same here trails row at_row
    le => ?_
  rw [here, trails] at mem
  have within := reached.child hold
  have full : doc.kind a ≠ .emptyHole := by
    intro empty
    obtain ⟨s, hs, -⟩ := (wf.each _ reached).spanned
    obtain ⟨-, only, -⟩ := lowered.snug.slots _ a s t reached hold empty hs span
    unfold Holds at hold'
    rw [only, List.mem_singleton] at hold'
    subst hold'
    cases span.symm.trans span'
    have := (sound.fits within span).le
    omega
  have solid : doc.text? a = none := by
    by_contra text
    obtain ⟨value, text⟩ := Option.ne_none_iff_exists'.mp text
    rw [((wf.each a within).text value text).2.1 .trailing] at mem
    cases mem
  -- a row behind the node would stand on a later line than the comment
  by_contra beyond
  obtain ⟨line, id, q, v, opens⟩ := lowered.each row at_row
  have ink := lowered.snug.ends a t ⟨within, sound.ne_root_of_holds hold, solid, full, span⟩
  have apart := (Passed.of_ink ink (Nat.le_of_lt (Nat.lt_of_not_le beyond))).apart opens.blanks
  have later := apart.lines_lt
  have before := LineIndex.lineOf_mono (LineIndex.of source) le
  rw [(sound.fits within span).endLine, fits.startLine] at same
  omega

/-- The comment of a row stands between the target below and what is in front of it there, which ends
on an earlier line. -/
theorem between_row (wf : doc.WellFormed source) {line : Nat} {q : NodeId} {u : Span} {n : Nat}
    (opens : doc.OpensAt source n line id q u) (start : r.lo = stopAfter rows n)
    (solid : r.lo < r.hi) (stop : r.hi ≤ startAfter rows n)
    (at_line : r.startLine = (LineIndex.of text).lineOf r.lo) :
    ∃ A C, doc'.Between q A (id :: C) r ∧
      ∀ x ∈ A.getLast?, (doc'.span x).map (·.endLine) ≠ some r.startLine := by
  have sound := lowered.sound
  have aimed := opens.aimed
  have within := aimed.reached_parent
  have low : u.lo < u.hi := aimed.snug.wide id u aimed.token
  obtain rfl := opens.here
  obtain ⟨A, C, split⟩ := List.append_of_mem aimed.hold
  have held : ∀ c ∈ A ++ id :: C, doc.Holds q c := by
    intro c mem
    unfold Holds
    rwa [split]
  have ordered := (wf.each q within).ordered
  rw [split] at ordered
  have left : ∀ x ∈ A, ∃ v, doc.span x = some v ∧ LineApart source v.hi u.lo := by
    intro x mem
    have hold := held x (List.mem_append_left _ mem)
    obtain ⟨v, span, -⟩ := (wf.each x (within.child hold)).spanned
    exact ⟨v, span, (aimed.sibling_passed within split .refl mem span).apart opens.blanks⟩
  refine ⟨A, C, ⟨?_, ?_, ?_, ?_, ?_, solid⟩, ?_⟩
  · exact (reaches_of_same lowered.displaced.children).mpr within
  · obtain ⟨v, span, lo, hi⟩ := sound.parent_span within aimed.hold aimed.span
    have below : startAfter rows u.lo ≤ startAfter rows v.hi := startAfter_le_iff.mpr (by omega)
    by_cases top : q = root
    · subst top
      have full := ((lowered.weaves.start (sound.fits within span).hi).1).le_bytes
      exact ⟨_, lowered.displaced.top, Nat.zero_le _,
        Nat.le_trans stop (Nat.le_trans below full)⟩
    · have apart := aimed.above within top aimed.hold .refl span
      have : startAfter rows v.lo < stopAfter rows u.lo := startAfter_lt_stopAfter apart.lt
      refine ⟨_, lowered.span_eq top span, ?_, Nat.le_trans stop below⟩
      show startAfter rows v.lo ≤ r.lo
      omega
  · rw [lowered.displaced.children, split]
  · intro x mem
    obtain ⟨v, span, apart⟩ := left x mem
    have : startAfter rows v.hi < stopAfter rows u.lo := startAfter_lt_stopAfter apart.lt
    refine ⟨_, lowered.span_eq (sound.ne_root_of_holds (held x (List.mem_append_left _ mem))) span, ?_⟩
    show startAfter rows v.hi ≤ r.lo
    omega
  · intro x mem
    have hold := held x (List.mem_append_right A mem)
    obtain ⟨v, span, -⟩ := (wf.each x (within.child hold)).spanned
    refine ⟨_, lowered.span_eq (sound.ne_root_of_holds hold) span,
      Nat.le_trans stop (startAfter_le_iff.mpr ?_)⟩
    rcases List.mem_cons.mp mem with rfl | later
    · cases span.symm.trans aimed.span
      exact Nat.le_refl _
    · have le := (List.pairwise_cons.mp (List.pairwise_append.mp ordered).2.1).1 x later u v
        aimed.span span
      omega
  · intro x last same
    have mem := List.mem_of_getLast? last
    obtain ⟨v, span, apart⟩ := left x mem
    have hold := held x (List.mem_append_left _ mem)
    rw [lowered.span_eq (sound.ne_root_of_holds hold) span, at_line, start] at same
    have ends := (lowered.weaves.start (sound.fits (within.child hold) span).hi).2
    have starts := (lowered.weaves.stop (sound.fits opens.reached aimed.span).lo).2
    have earlier := apart.lines_lt
    have more : gained breaks (· ≤ v.hi) rows ≤ gained breaks (· < u.lo) rows := gained_mono
      fun row _ le => decide_eq_true (Nat.lt_of_le_of_lt (of_decide_eq_true le) apart.lt)
    have both : (LineIndex.of text).lineOf (startAfter rows v.hi) =
        (LineIndex.of text).lineOf (stopAfter rows u.lo) := Option.some.inj same
    omega

end Lowered

end Document
end Quell
