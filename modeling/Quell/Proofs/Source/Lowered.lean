import Quell.Proofs.Annotate.Above
import Quell.Proofs.Source.Moved

/-!
Targets with rows put in above them.

If rows are put in front of targets that start their lines, then every line goes down by the rows on
the way to it, and what started on a line starts on the line that it has become
(`Lowered.startingOn_slid`). On no other line does anything start (`Lowered.startingOn_other`).
-/
namespace Quell

open Text Relation Grammar

namespace Document

variable {source text : Text} {doc doc' : Document} {rows : List RowAt} {id : NodeId} {line : Nat}
variable {u : Span}

theorem Sound.nested_or_apart (sound : doc.Sound source) {i j : NodeId} (hi : doc.Reaches i)
    (hj : doc.Reaches j) (ne : i ≠ j) : doc.Below i j ∨ doc.Below j i ∨
      ∀ s t, doc.span i = some s → doc.span j = some t → s.hi ≤ t.lo ∨ t.hi ≤ s.lo := by
  let R : NodeId → NodeId → Prop := fun i j => doc.Below i j ∨ doc.Below j i ∨
    ∀ s t, doc.span i = some s → doc.span j = some t → s.hi ≤ t.lo ∨ t.hi ≤ s.lo
  have symm : Std.Symm R := by
    refine ⟨fun i j h => ?_⟩
    rcases h with below | below | apart
    · exact .inr (.inl below)
    · exact .inl below
    · exact .inr (.inr fun s t hs ht => (apart t s ht hs).symm)
  have all : doc.preorder.Pairwise R := by
    refine (preorder_spans (fun _ => sound.nested) sound.linked sound.root_lt).imp ?_
    rintro i j ⟨below | apart, -⟩
    · exact .inl below
    · exact .inr (.inr fun s t hs ht => .inl (apart s t hs ht))
  exact all.forall ((mem_preorder sound.linked sound.root_lt).mpr hi)
    ((mem_preorder sound.linked sound.root_lt).mpr hj) ne

theorem Displaced.preorder_eq {s : Source} (h : doc.Displaced rows s doc') :
    doc'.preorder = doc.preorder := by
  have same : ∀ fuel depth id, doc'.walk fuel depth id = doc.walk fuel depth id := by
    intro fuel
    induction fuel with
    | zero => exact fun _ _ => rfl
    | succ fuel ih =>
      intro depth id
      rw [walk, walk, h.children]
      congr 1
      exact List.flatMap_congr fun c _ => ih (depth + 1) c
  unfold preorder outline
  rw [h.size, same]

/-- There is a target at the offset, and it is the first thing on its line. -/
structure OpensAt (source : Text) (doc : Document) (n : Nat) (line : Nat) (id q : NodeId) (u : Span) :
    Prop where
  aimed : doc.Aimed source line id q u
  here : u.lo = n
  blanks : OnlyBlanks source n

/-- The document of a source and that of the text with rows put in, each of them in front of a target
that starts its line. -/
structure Lowered (rows : List RowAt) (source text : Text) (doc doc' : Document) : Prop where
  sound : doc.Sound source
  snug : doc.Snug source
  weaves : Weaves rows 0 source text
  displaced : doc.Displaced rows (Source.of text) doc'
  each : ∀ r ∈ rows, ∃ line id q u, doc.OpensAt source r.1 line id q u

/-- The line that a line has become. -/
def slid (rows : List RowAt) (source : Text) (line : Nat) : Nat :=
  line + gained breaks (fun n => (LineIndex.of source).lineOf n ≤ line) rows

theorem slid_lt {m n : Nat} (lt : m < n) : slid rows source m < slid rows source n := by
  have : gained breaks (fun k => (LineIndex.of source).lineOf k ≤ m) rows ≤
      gained breaks (fun k => (LineIndex.of source).lineOf k ≤ n) rows := gained_mono
    fun r _ le => decide_eq_true (Nat.le_trans (of_decide_eq_true le) (Nat.le_of_lt lt))
  unfold slid
  omega

theorem slid_inj {m n : Nat} : slid rows source m = slid rows source n ↔ m = n := by
  constructor
  · intro same
    by_contra ne
    rcases Nat.lt_or_gt_of_ne ne with lt | lt
    · exact absurd same (Nat.ne_of_lt (slid_lt lt))
    · exact absurd same (Nat.ne_of_gt (slid_lt lt))
  · rintro rfl
    rfl

theorem OpensAt.reached {n : Nat} {q : NodeId} (opens : doc.OpensAt source n line id q u) :
    doc.Reaches id := opens.aimed.token.reached

theorem OpensAt.line_eq {n : Nat} {q : NodeId} (opens : doc.OpensAt source n line id q u) :
    (LineIndex.of source).lineOf n = line := by
  obtain ⟨rest, found⟩ := opens.aimed.found
  obtain ⟨reached, -, -, v, hv, startLine⟩ :=
    opens.aimed.sound.mem_startingOn.mp (found ▸ List.mem_cons_self)
  cases opens.aimed.span.symm.trans hv
  rw [← startLine, (opens.aimed.sound.fits reached hv).startLine, opens.here]

theorem OpensAt.low {n : Nat} {q j : NodeId} (opens : doc.OpensAt source n line id q u)
    (starts : j ∈ doc.startingOn line) {v : Span} (span : doc.span j = some v) : n ≤ v.lo := by
  have sound := opens.aimed.sound
  obtain ⟨rest, found⟩ := opens.aimed.found
  rw [found] at starts
  rcases List.mem_cons.mp starts with rfl | later
  · cases span.symm.trans opens.aimed.span
    exact Nat.le_of_eq opens.here.symm
  · have ascends := preorder_ascends (fun _ => sound.nested) sound.linked sound.root_lt
      fun i hi s hs => (sound.fits hi hs).le
    have filtered : (doc.startingOn line).Pairwise _ := ascends.filter _
    rw [found] at filtered
    rw [← opens.here]
    exact (List.pairwise_cons.mp filtered).1 j later u v opens.aimed.span span

namespace Lowered

variable (lowered : Lowered rows source text doc doc')

include lowered

/-- No text reaches over a row. -/
theorem text_free {j : NodeId} {t : Text} {v : Span} (hj : doc.Reaches j) (value : doc.text? j = some t)
    (span : doc.span j = some v) : ∀ r ∈ rows, ¬ (v.lo < r.1 ∧ r.1 < v.hi) := by
  rintro r mem ⟨before, behind⟩
  have sound := lowered.sound
  obtain ⟨line, id, q, u, opens⟩ := lowered.each r mem
  have here := opens.here
  have leaf := ((sound.each j hj).text t value).1
  have ne : j ≠ id := by
    rintro rfl
    cases span.symm.trans opens.aimed.span
    omega
  rcases sound.nested_or_apart hj opens.reached ne with below | below | apart
  · rcases ReflTransGen.cases_head below with rfl | ⟨c, hold, -⟩
    · exact ne rfl
    · unfold Holds at hold
      rw [leaf] at hold
      cases hold
  · obtain ⟨u', hu', lo, -⟩ := sound.below_span opens.reached below span
    cases opens.aimed.span.symm.trans hu'
    omega
  · have fits := (sound.fits opens.reached opens.aimed.span).le
    rcases apart v u span opens.aimed.span with h | h <;> omega

theorem kind_eq {j : NodeId} (hj : doc.Reaches j) : doc'.kind j = doc.kind j := by
  rcases lowered.displaced.kind j with same | ⟨⟨t, -, text, -⟩, v, span, r, mem, inside⟩
  · exact same
  · have value : doc.text? j = some t := by
      unfold text?
      rw [text]
      rfl
    exact absurd inside (lowered.text_free hj value span r mem)

theorem span_eq {j : NodeId} (ne : j ≠ root) {v : Span} (span : doc.span j = some v) :
    doc'.span j =
      some ((Source.of text).span (startAfter rows v.lo) (startAfter rows v.hi)) := by
  rw [lowered.displaced.span j ne, span]
  rfl

theorem fits {v : Span} (fits : v.Fits source) :
    ((Source.of text).span (startAfter rows v.lo) (startAfter rows v.hi)).Fits text :=
  ⟨startAfter_le_iff.mpr fits.le, (lowered.weaves.start fits.lo).1, (lowered.weaves.start fits.hi).1,
    rfl, rfl⟩

theorem startLine_eq {j : NodeId} (hj : doc.Reaches j) (ne : j ≠ root) {v : Span}
    (span : doc.span j = some v) : ∃ v', doc'.span j = some v' ∧ v'.lo = startAfter rows v.lo ∧
      v'.startLine = v.startLine + gained breaks (· ≤ v.lo) rows := by
  have fits := lowered.sound.fits hj span
  refine ⟨_, lowered.span_eq ne span, rfl, ?_⟩
  rw [fits.startLine]
  exact (lowered.weaves.start fits.lo).2

/-- What starts on a line goes down with the line. -/
theorem slid_eq {j : NodeId} (starts : j ∈ doc.startingOn line) {v : Span}
    (span : doc.span j = some v) :
    v.startLine + gained breaks (· ≤ v.lo) rows = slid rows source line := by
  obtain ⟨hj, -, -, w, hw, at_line⟩ := lowered.sound.mem_startingOn.mp starts
  cases span.symm.trans hw
  have fits := lowered.sound.fits hj span
  have start := fits.startLine
  unfold slid
  rw [at_line] at start ⊢
  congr 1
  refine gained_congr fun r mem => decide_eq_decide.mpr ⟨fun le => ?_, fun le => ?_⟩
  · rw [start]
    exact LineIndex.lineOf_mono _ le
  · obtain ⟨line', id, q, u, opens⟩ := lowered.each r mem
    have at_row := opens.line_eq
    rcases Nat.lt_or_eq_of_le le with lt | same
    · by_contra beyond
      have := LineIndex.lineOf_mono (LineIndex.of source) (Nat.le_of_not_le beyond)
      omega
    · exact opens.low (by rw [← at_row, same]; exact starts) span

theorem mem_startingOn {j : NodeId} {n : Nat} : j ∈ doc'.preorder.filter (doc'.starts? n) ↔
    ∃ line, slid rows source line = n ∧ j ∈ doc.startingOn line := by
  have sound := lowered.sound
  rw [List.mem_filter, lowered.displaced.preorder_eq, mem_preorder sound.linked sound.root_lt,
    starts?_iff]
  have blank : doc.Reaches j → doc'.isBlankText j = doc.isBlankText j := fun hj => by
    unfold isBlankText text?
    rw [lowered.kind_eq hj]
  constructor
  · rintro ⟨hj, ne, seen, v', hv', at_line⟩
    rw [blank hj] at seen
    cases span : doc.span j with
    | none =>
      rw [lowered.displaced.span j ne, span] at hv'
      cases hv'
    | some v =>
      have starts : j ∈ doc.startingOn v.startLine :=
        sound.mem_startingOn.mpr ⟨hj, ne, seen, v, span, rfl⟩
      obtain ⟨w, hw, -, moved⟩ := lowered.startLine_eq hj ne span
      cases hw.symm.trans hv'
      refine ⟨v.startLine, ?_, starts⟩
      rw [← lowered.slid_eq starts span, ← moved, at_line]
  · rintro ⟨line, rfl, starts⟩
    obtain ⟨hj, ne, seen, v, span, at_line⟩ := sound.mem_startingOn.mp starts
    obtain ⟨v', hv', -, moved⟩ := lowered.startLine_eq hj ne span
    refine ⟨hj, ne, (blank hj).trans seen, v', hv', ?_⟩
    rw [moved, lowered.slid_eq starts span]

theorem startingOn_slid (line : Nat) :
    doc'.startingOn (slid rows source line) = doc.startingOn line := by
  rw [startingOn_eq, startingOn_eq, lowered.displaced.preorder_eq]
  refine List.filter_congr fun j mem => ?_
  rw [Bool.eq_iff_iff]
  have moved := @mem_startingOn _ _ _ _ _ lowered j (slid rows source line)
  rw [List.mem_filter, lowered.displaced.preorder_eq] at moved
  constructor
  · intro starts
    obtain ⟨m, same, old⟩ := moved.mp ⟨mem, starts⟩
    rw [slid_inj.mp same, startingOn_eq, List.mem_filter] at old
    exact old.2
  · intro starts
    exact (moved.mpr ⟨line, rfl, by rw [startingOn_eq]; exact List.mem_filter.mpr ⟨mem, starts⟩⟩).2

theorem startingOn_other {n : Nat}
    (other : ∀ line, doc.startingOn line ≠ [] → slid rows source line ≠ n) :
    doc'.startingOn n = [] := by
  rw [startingOn_eq, List.eq_nil_iff_forall_not_mem]
  intro j mem
  obtain ⟨line, same, starts⟩ := lowered.mem_startingOn.mp mem
  exact other line (List.ne_nil_of_mem starts) same

theorem locate_slid (sound' : doc'.Sound text) (line : Nat) :
    doc'.locate (slid rows source line) = doc.locate line := by
  rw [sound'.locate_eq, lowered.sound.locate_eq, lowered.startingOn_slid]
  cases found : doc.startingOn line with
  | nil => rfl
  | cons id rest =>
    have starts : id ∈ doc.startingOn line := found ▸ List.mem_cons_self
    have reached := (lowered.sound.mem_startingOn.mp starts).1
    refine congrArg some (aim_congr (lowered.displaced.parent id) fun q link => ?_)
    have hold := (lowered.sound.linked.agree q id).mpr link
    have within : doc.Reaches q := by
      rcases ReflTransGen.cases_tail reached with e | ⟨q', reached', hold'⟩
      · exact absurd e (lowered.sound.ne_root_of_holds hold)
      · rwa [lowered.sound.linked.parent_unique hold hold']
    exact ⟨lowered.kind_eq within, lowered.displaced.children q,
      fun c held => lowered.kind_eq (within.child held)⟩

theorem locate_other (sound' : doc'.Sound text) {n : Nat}
    (other : ∀ line, doc.locate line ≠ none → slid rows source line ≠ n) :
    doc'.locate n = none := by
  rw [sound'.locate_eq, lowered.startingOn_other fun line some => other line ?_]
  · rfl
  · rw [lowered.sound.locate_eq]
    obtain ⟨id, rest, found⟩ := List.exists_cons_of_ne_nil some
    rw [found]
    exact nofun

theorem ordinary (sound' : doc'.Sound text) (ordinary : doc.Ordinary line) :
    doc'.Ordinary (slid rows source line) := by
  intro j m found
  rw [lowered.locate_slid sound'] at found
  obtain ⟨reached, _, same, within⟩ := lowered.sound.reaches_of_locate found
  cases same
  unfold Beside
  rw [lowered.kind_eq reached, lowered.kind_eq within]
  exact ordinary j m found

end Lowered

end Document
end Quell
