import Quell.Proofs.Fault
import Quell.Proofs.Print.Strokes
import Quell.Proofs.Text.Lines

/-!
Nothing of the source is lost or doubled on a page.

`Spends` reads the pieces of a page from left to right and says that they use the source up, each
byte once and in order: copied pieces are slices, revised ones stand for the whole span of a
comment with new text. Only spaces and tabs in front of an added line break may be missing. The
invariant of a page under way says that it can be completed; every stroke whose offsets are cuts
keeps it and never faults.
-/
namespace Quell

open Text

/-- Spaces and tabs only. -/
def Run (t : Text) : Prop := ∀ c ∈ t, Page.isSpaceOrTab c = true

instance (t : Text) : Decidable (Run t) :=
  decidable_of_iff (t.all Page.isSpaceOrTab = true) List.all_eq_true

theorem Run.breaks {t : Text} (run : Run t) : t.breaks = 0 := by
  unfold Text.breaks
  rw [List.count_eq_zero]
  intro mem
  cases run '\n' mem

theorem Run.allBlank {t : Text} (run : Run t) : allBlank t = true := by
  unfold Text.allBlank
  rw [List.all_eq_true]
  exact fun c hc => isBlank_of_isSpaceOrTab (run c hc)

theorem Text.run_or_ink (t : Text) :
    Run t ∨ ∃ r c x, t = r ++ c :: x ∧ Run r ∧ Page.isSpaceOrTab c = false := by
  induction t with
  | nil => exact .inl nofun
  | cons c t ih =>
    cases ink : Page.isSpaceOrTab c with
    | false => exact .inr ⟨[], c, t, rfl, nofun, ink⟩
    | true =>
      rcases ih with run | ⟨r, d, x, rfl, run, solid⟩
      · exact .inl (List.forall_mem_cons.mpr ⟨ink, run⟩)
      · exact .inr ⟨c :: r, d, x, rfl, List.forall_mem_cons.mpr ⟨ink, run⟩, solid⟩

def BreakNext (eol : Text) : List Piece → Prop
  | [] => False
  | p :: ps => (p.origin = .added ∧ p.text = eol) ∨ (p.text = [] ∧ BreakNext eol ps)

def Document.Revises (doc : Document) (lo hi : Nat) (t : Text) : Prop :=
  ∃ id, doc.Reaches id ∧ ∃ c ∈ (doc.node id).allComments,
    c.revised = true ∧ c.render = t ∧ ∃ s, c.span = some s ∧ s.lo = lo ∧ s.hi = hi

/-- The pieces use the source up from an offset to its end. -/
inductive Spends (doc : Document) (source : Text) : Nat → List Piece → Prop where
  | done : Spends doc source source.bytes []
  | copied {lo hi : Nat} {t run : Text} {rest : List Piece} :
      slice? lo hi source = some (t ++ run) → Run run →
      (run ≠ [] → BreakNext doc.eol.text rest) → Spends doc source hi rest →
      Spends doc source lo (⟨.copied lo hi, t⟩ :: rest)
  | revised {lo hi : Nat} {t run : Text} {rest : List Piece} :
      doc.Revises lo hi (t ++ run) → Run run →
      (run ≠ [] → BreakNext doc.eol.text rest) → Spends doc source hi rest →
      Spends doc source lo (⟨.revised lo hi, t⟩ :: rest)
  | added {lo : Nat} {t : Text} {rest : List Piece} :
      Spends doc source lo rest → Spends doc source lo (⟨.added, t⟩ :: rest)

theorem LineEnding.text_not_run (eol : LineEnding) {kept run : Text}
    (h : eol.text = kept ++ run) (blank : Run run) : run = [] := by
  rcases List.eq_nil_or_concat run with rfl | ⟨x, c, rfl⟩
  · rfl
  · have last := congrArg List.getLast? h
    have c_eq : c = '\n' := by
      cases eol <;> simpa [LineEnding.text, eq_comm] using last
    have := blank c (by simp)
    rw [c_eq] at this
    exact absurd this (by decide)

theorem BreakNext.shorten {eol : LineEnding} {front tail : List Piece} {p : Piece}
    {kept run : Text} (text : p.text = kept ++ run) (blank : Run run)
    (h : BreakNext eol.text (front ++ p :: tail)) :
    BreakNext eol.text (front ++ { p with text := kept } :: tail) := by
  induction front with
  | nil =>
    rcases h with ⟨added, here⟩ | ⟨empty, later⟩
    · have none := eol.text_not_run (here.symm.trans text) blank
      subst none
      exact .inl ⟨added, by rw [← here, text, List.append_nil]⟩
    · rw [text] at empty
      exact .inr ⟨(List.append_eq_nil_iff.mp empty).1, later⟩
  | cons q front ih =>
    rcases h with here | ⟨empty, later⟩
    · exact .inl here
    · exact .inr ⟨empty, ih later⟩

theorem Spends.shorten {doc : Document} {source : Text} {front tail : List Piece} {p : Piece}
    {kept run : Text} {lo : Nat} (text : p.text = kept ++ run) (blank : Run run)
    (next : BreakNext doc.eol.text tail) (h : Spends doc source lo (front ++ p :: tail)) :
    Spends doc source lo (front ++ { p with text := kept } :: tail) := by
  induction front generalizing lo with
  | nil =>
    have longer : ∀ more : Text, Run more → Run (run ++ more) := fun more hm c hc =>
      (List.mem_append.mp hc).elim (blank c) (hm c)
    cases h with
    | copied slice more after rest =>
      simp only at text
      rw [text, List.append_assoc] at slice
      exact .copied slice (longer _ more) (fun _ => next) rest
    | revised rev more after rest =>
      simp only at text
      rw [text, List.append_assoc] at rev
      exact .revised rev (longer _ more) (fun _ => next) rest
    | added rest => exact .added rest
  | cons q front ih =>
    cases h with
    | copied slice more after rest =>
      exact .copied slice more (fun ne => (after ne).shorten text blank) (ih rest)
    | revised rev more after rest =>
      exact .revised rev more (fun ne => (after ne).shorten text blank) (ih rest)
    | added rest => exact .added (ih rest)

/-- The run of spaces and tabs at the end of a text. -/
theorem exists_run (t : Text) :
    ∃ run, t = (t.reverse.dropWhile Page.isSpaceOrTab).reverse ++ run ∧ Run run := by
  refine ⟨(t.reverse.takeWhile Page.isSpaceOrTab).reverse, ?_, ?_⟩
  · rw [← List.reverse_append, List.takeWhile_append_dropWhile, List.reverse_reverse]
  · intro c hc
    exact List.mem_takeWhile_imp (List.mem_reverse.mp hc)

theorem Spends.stripEnd {doc : Document} {source : Text} {ps tail : List Piece} {lo : Nat}
    (next : BreakNext doc.eol.text tail) (h : Spends doc source lo (ps.reverse ++ tail)) :
    Spends doc source lo ((Page.stripEnd ps).reverse ++ tail) := by
  induction ps generalizing tail with
  | nil => exact h
  | cons p ps ih =>
    obtain ⟨run, text, blank⟩ := exists_run p.text
    rw [List.reverse_cons, List.append_assoc] at h
    have short := Spends.shorten text blank next h
    rw [Page.stripEnd]
    split
    · rename_i none
      rw [none] at short
      rw [List.reverse_cons, List.append_assoc]
      exact ih (.inr ⟨rfl, next⟩) short
    · rename_i kept
      rw [List.reverse_cons, List.append_assoc]
      exact short

/-- What is spent so far ends at a cut, and the page can be completed from there. -/
structure Page.Sound (doc : Document) (source : Text) (page : Page) : Prop where
  cut : Cut source page.pos
  spends : ∀ rest, Spends doc source page.pos rest →
    Spends doc source 0 (page.pieces.reverse ++ rest)

structure Press.Fair (press : Press) : Prop where
  size : press.size = press.source.bytes
  apart : press.revisions.Pairwise fun r q => r.hi ≤ q.lo
  each : ∀ r ∈ press.revisions, r.lo ≤ r.hi ∧ Cut press.source r.lo ∧ Cut press.source r.hi ∧
    press.doc.Revises r.lo r.hi r.text

namespace Page

variable {doc : Document} {source : Text} {page : Page}

theorem Sound.start : Sound doc source {} := ⟨Cut.zero source, fun _ h => h⟩

theorem Sound.add (h : Sound doc source page) (t : Text) : Sound doc source (page.add t) where
  cut := h.cut
  spends := by
    intro rest hr
    simp only [Page.add, List.reverse_cons, List.append_assoc]
    exact h.spends _ (.added hr)

theorem Sound.breakLine (h : Sound doc source page) :
    Sound doc source (page.trimEnd.add doc.eol.text) where
  cut := h.cut
  spends := by
    intro rest hr
    simp only [Page.add, trimEnd, List.reverse_cons, List.append_assoc]
    exact Spends.stripEnd (.inl ⟨rfl, rfl⟩) (h.spends _ (.added hr))

end Page

namespace Press

variable {press : Press} {page : Page}

theorem slice_ok (h : Cut press.source m) (k : Cut press.source n) (le : m ≤ n) :
    ∃ t, press.slice m n = .ok t ∧ slice? m n press.source = some t := by
  obtain ⟨t, ht⟩ := h.slice k le
  exact ⟨t, by rw [Press.slice, ht], ht⟩

theorem copyTo_ok (sound : page.Sound press.doc press.source) {target : Nat}
    (cut : Cut press.source target) (le : page.pos ≤ target) :
    ∃ page', press.copyTo page target = .ok page' ∧ page'.pos = target ∧
      page'.Sound press.doc press.source := by
  obtain ⟨t, ht, slice⟩ := slice_ok sound.cut cut le
  refine ⟨⟨⟨.copied page.pos target, t⟩ :: page.pieces, target⟩, ?_, rfl, cut, ?_⟩
  · simp only [copyTo, ht]
    rfl
  · intro rest hr
    rw [List.reverse_cons, List.append_assoc]
    rw [← List.append_nil t] at slice
    exact sound.spends _ (.copied slice nofun (fun ne => absurd rfl ne) hr)

theorem copyRevision_ok (fair : press.Fair) (sound : page.Sound press.doc press.source)
    {r : Revision} (mem : r ∈ press.revisions) (le : page.pos ≤ r.lo) :
    ∃ page', press.copyRevision page r = .ok page' ∧ page'.pos = r.hi ∧
      page'.Sound press.doc press.source := by
  obtain ⟨_, lo, hi, rev⟩ := fair.each r mem
  obtain ⟨q, hq, hpos, hsound⟩ := copyTo_ok sound lo le
  refine ⟨⟨⟨.revised r.lo r.hi, r.text⟩ :: q.pieces, r.hi⟩, ?_, rfl, hi, ?_⟩
  · simp only [copyRevision, hq]
    rfl
  · intro rest hr
    rw [List.reverse_cons, List.append_assoc]
    refine hsound.spends _ ?_
    rw [hpos]
    rw [← List.append_nil r.text] at rev
    exact .revised rev nofun (fun ne => absurd rfl ne) hr

theorem copyRevisions_ok (fair : press.Fair) {target : Nat} (rs : List Revision)
    (apart : rs.Pairwise fun r q => r.hi ≤ q.lo) (mem : ∀ r ∈ rs, r ∈ press.revisions)
    (sound : page.Sound press.doc press.source) (behind : ∀ r ∈ rs, page.pos ≤ r.lo)
    (low : page.pos ≤ target) (within : ∀ r ∈ rs, r.hi ≤ target) :
    ∃ page', rs.foldlM press.copyRevision page = .ok page' ∧ page'.pos ≤ target ∧
      page.pos ≤ page'.pos ∧ page'.Sound press.doc press.source := by
  induction rs generalizing page with
  | nil => exact ⟨page, rfl, low, Nat.le_refl _, sound⟩
  | cons r rs ih =>
    obtain ⟨q, hq, hpos, hsound⟩ :=
      copyRevision_ok fair sound (mem r (by simp)) (behind r (by simp))
    obtain ⟨first, others⟩ := List.pairwise_cons.mp apart
    obtain ⟨q', hq', le, back, hsound'⟩ := ih others (fun s hs => mem s (by simp [hs])) hsound
      (fun s hs => hpos ▸ first s hs) (hpos ▸ within r (by simp))
      (fun s hs => within s (by simp [hs]))
    have wide := (fair.each r (mem r (by simp))).1
    have := behind r (by simp)
    refine ⟨q', ?_, le, by omega, hsound'⟩
    rw [List.foldlM_cons, hq]
    exact hq'

theorem flushTo_ok (fair : press.Fair) (sound : page.Sound press.doc press.source) {target : Nat}
    (cut : Cut press.source target) :
    ∃ page', press.flushTo page target = .ok page' ∧ page'.pos = max page.pos target ∧
      page'.Sound press.doc press.source := by
  have whole : min target press.size = target := by
    rw [fair.size]
    exact cut.min_bytes
  simp only [flushTo, whole]
  by_cases spent : target ≤ page.pos
  · rw [if_pos spent]
    exact ⟨page, rfl, by omega, sound⟩
  · rw [if_neg spent]
    generalize due_eq : press.revisions.filter (fun r =>
      page.pos ≤ r.lo && r.lo < target && r.hi ≤ target) = due
    have each : ∀ r ∈ due, r ∈ press.revisions ∧ page.pos ≤ r.lo ∧ r.hi ≤ target := by
      intro r hr
      rw [← due_eq] at hr
      have h := List.mem_filter.mp hr
      simp only [Bool.and_eq_true, decide_eq_true_eq] at h
      exact ⟨h.1, h.2.1.1, h.2.2⟩
    have apart : due.Pairwise fun r q => r.hi ≤ q.lo := due_eq ▸ fair.apart.filter _
    obtain ⟨q, hq, le, _, hsound⟩ := copyRevisions_ok fair due apart (fun r hr => (each r hr).1)
      sound (fun r hr => (each r hr).2.1) (by omega) (fun r hr => (each r hr).2.2)
    obtain ⟨q', hq', hpos, hsound'⟩ := copyTo_ok hsound cut le
    refine ⟨q', ?_, by omega, hsound'⟩
    show (do let page ← due.foldlM press.copyRevision page; press.copyTo page target) = _
    rw [hq]
    exact hq'

theorem slice_eq {lo hi : Nat} {t : Text} (h : slice? lo hi press.source = some t) :
    press.slice lo hi = .ok t := by
  unfold slice
  rw [h]

theorem lineIndent_eq (fair : press.Fair) {a b : Text} (split : press.source = a ++ b) :
    press.lineIndent (bytes a) = .ok ((lastLine a ++ b).takeWhile Page.isSpaceOrTab) := by
  obtain ⟨x, line, -, -⟩ := lastLine_spec a
  have joined : press.source = x ++ (lastLine a ++ b) := by
    rw [split, ← List.append_assoc, ← line]
  have start : bytes a - bytes (lastLine a) = bytes x := by
    have := congrArg bytes line
    rw [bytes_append] at this
    omega
  have front : press.slice 0 (bytes a) = .ok a :=
    slice_eq (slice?_eq_some.mpr ⟨[], b, split, rfl, Nat.zero_add _⟩)
  have rest : press.slice (bytes x) press.size = .ok (lastLine a ++ b) := by
    refine slice_eq (slice?_eq_some.mpr ⟨x, [], by rw [List.append_nil, joined], rfl, ?_⟩)
    rw [fair.size, joined]
    exact (bytes_append ..).symm
  have whole : min (bytes a) press.size = bytes a := by
    rw [fair.size]
    exact Cut.min_bytes ⟨a, b, split, rfl⟩
  simp only [lineIndent, lineStart, whole, front]
  show (do let rest ← press.slice (bytes a - bytes (lastLine a)) press.size
           return rest.takeWhile Page.isSpaceOrTab) = _
  rw [start, rest]
  rfl

theorem firstOnLine_eq {a b : Text} (split : press.source = a ++ b) :
    press.firstOnLine (bytes a) = .ok (allBlank (lastLine a)) := by
  have front : press.slice 0 (bytes a) = .ok a :=
    slice_eq (slice?_eq_some.mpr ⟨[], b, split, rfl, Nat.zero_add _⟩)
  unfold firstOnLine
  rw [front]
  rfl

theorem lineIndent_ok (fair : press.Fair) {offset : Nat} (cut : Cut press.source offset) :
    ∃ t, press.lineIndent offset = .ok t := by
  obtain ⟨a, b, split, rfl⟩ := cut
  exact ⟨_, lineIndent_eq fair split⟩

theorem firstOnLine_ok {offset : Nat} (cut : Cut press.source offset) :
    ∃ b, press.firstOnLine offset = .ok b := by
  obtain ⟨a, b, split, rfl⟩ := cut
  exact ⟨_, firstOnLine_eq split⟩

theorem codeFollows_ok (fair : press.Fair) (sound : page.Sound press.doc press.source) :
    ∃ b, press.codeFollows page = .ok b := by
  obtain ⟨t, ht, -⟩ := slice_ok sound.cut (fair.size ▸ Cut.full press.source)
    (fair.size ▸ sound.cut.le_bytes)
  exact ⟨!t.firstLine.allBlank, by rw [codeFollows, ht]; rfl⟩

theorem lead_ok (fair : press.Fair) (sound : page.Sound press.doc press.source) {lo : Nat}
    (cut : Cut press.source lo) (cs : List Comment) :
    ∃ page', press.lead page lo cs = .ok page' ∧ page'.pos = page.pos ∧
      page'.Sound press.doc press.source := by
  cases cs with
  | nil => exact ⟨page, rfl, rfl, sound⟩
  | cons c cs =>
    obtain ⟨indent, hi⟩ := lineIndent_ok fair cut
    obtain ⟨first, hf⟩ := firstOnLine_ok cut
    have comments : ∀ (cs : List Comment) (q : Page), q.Sound press.doc press.source →
        (cs.foldl (fun p c => ((p.add c.render).add press.eol).add indent) q).pos = q.pos ∧
        (cs.foldl (fun p c => ((p.add c.render).add press.eol).add indent) q).Sound
          press.doc press.source := by
      intro cs
      induction cs with
      | nil => exact fun q hq => ⟨rfl, hq⟩
      | cons c cs ih => exact fun q hq => ih _ (((hq.add _).add _).add _)
    have opened : (if first = true then page else (page.trimEnd.add press.eol).add indent).Sound
        press.doc press.source := by
      split
      · exact sound
      · exact sound.breakLine.add _
    have pos : (if first = true then page else (page.trimEnd.add press.eol).add indent).pos =
        page.pos := by
      split <;> rfl
    obtain ⟨hpos, hsound⟩ := comments (c :: cs) _ opened
    refine ⟨_, ?_, hpos.trans pos, hsound⟩
    simp only [lead, hi, hf]
    rfl

theorem emitTrailingComment_ok (fair : press.Fair) (sound : page.Sound press.doc press.source)
    (indent : Text) (c : Comment) :
    ∃ page', press.emitTrailingComment indent page c = .ok page' ∧ page'.pos = page.pos ∧
      page'.Sound press.doc press.source := by
  obtain ⟨follows, hf⟩ := codeFollows_ok fair sound
  obtain ⟨resume, hr⟩ := lineIndent_ok fair sound.cut
  have hr' : press.lineIndent (((page.add press.eol).add indent).add c.render).pos = .ok resume :=
    hr
  simp only [emitTrailingComment, hf, bind, Except.bind]
  split
  · split
    · rw [hr']
      exact ⟨_, rfl, rfl, ((((sound.add _).add _).add _).add _).add _⟩
    · exact ⟨_, rfl, rfl, ((sound.add _).add _).add _⟩
  · split
    · exact ⟨_, rfl, rfl, sound.add _⟩
    · exact ⟨_, rfl, rfl, (sound.add _).add _⟩

theorem emitTrailingComments_ok (fair : press.Fair) (sound : page.Sound press.doc press.source)
    (indent : Text) (cs : List Comment) :
    ∃ page', cs.foldlM (press.emitTrailingComment indent) page = .ok page' ∧
      page'.pos = page.pos ∧ page'.Sound press.doc press.source := by
  refine foldlM_ok (I := fun q : Page => q.pos = page.pos ∧ q.Sound press.doc press.source)
    (fun c _ q kept => ?_) ⟨rfl, sound⟩
  obtain ⟨q', emitted, pos, sound'⟩ := emitTrailingComment_ok fair kept.2 indent c
  exact ⟨q', emitted, pos.trans kept.1, sound'⟩

end Press

def Margin.Fits (source : Text) : Margin → Prop
  | .line lo => Cut source lo
  | .nested lo => ∀ o ∈ lo, Cut source o

/-- Every offset of the stroke is a cut of the source. -/
def Stroke.Fits (source : Text) : Stroke → Prop
  | .start lo _ => Cut source lo
  | .reach target => Cut source target
  | .inside opened ends => (∀ o ∈ opened, Cut source o) ∧ ∀ e ∈ ends, Cut source e
  | .behind anchor margin _ => (∀ o ∈ anchor, Cut source o) ∧ margin.Fits source
  | .put _ => True

theorem foldl_max_keeps {Q : Nat → Prop} {ends : List Nat} {n : Nat} (start : Q n)
    (each : ∀ e ∈ ends, Q e) : Q (ends.foldl max n) := by
  induction ends generalizing n with
  | nil => exact start
  | cons e ends ih =>
    rw [List.foldl_cons]
    refine ih ?_ fun d hd => each d (List.mem_cons_of_mem e hd)
    rcases Nat.le_total n e with le | le
    · rw [Nat.max_eq_right le]
      exact each e List.mem_cons_self
    · rw [Nat.max_eq_left le]
      exact start

theorem inside_keeps {Q : Nat → Prop} {opened : Option Nat} {ends : List Nat} {pos : Nat}
    (here : Q pos) (opens : ∀ o ∈ opened, Q o) (each : ∀ e ∈ ends, Q e) :
    Q (ends.foldl max (opened.getD pos)) := by
  refine foldl_max_keeps ?_ each
  cases opened with
  | none => exact here
  | some o => exact opens o rfl

namespace Press

variable {press : Press} {page : Page}

theorem marginText_ok (fair : press.Fair) {margin : Margin} (fits : margin.Fits press.source) :
    ∃ t, press.marginText margin = .ok t := by
  match margin, fits with
  | .line lo, cut => exact lineIndent_ok fair cut
  | .nested none, _ => exact ⟨_, rfl⟩
  | .nested (some lo), cut =>
    obtain ⟨t, ht⟩ := lineIndent_ok fair (cut lo rfl)
    exact ⟨t ++ indentUnit t, by simp only [marginText, ht]; rfl⟩

theorem perform_ok (fair : press.Fair) (sound : page.Sound press.doc press.source)
    {stroke : Stroke} (fits : stroke.Fits press.source) :
    ∃ page', press.perform page stroke = .ok page' ∧ page'.Sound press.doc press.source := by
  cases stroke with
  | start lo cs =>
    obtain ⟨q, hq, _, hsound⟩ := flushTo_ok fair sound fits
    obtain ⟨q', hq', _, hsound'⟩ := lead_ok fair hsound fits cs
    exact ⟨q', by simp only [perform, hq]; exact hq', hsound'⟩
  | reach target =>
    obtain ⟨q, hq, _, hsound⟩ := flushTo_ok fair sound fits
    exact ⟨q, hq, hsound⟩
  | inside opened ends =>
    have cut : Cut press.source (ends.foldl max (opened.getD page.pos)) :=
      inside_keeps sound.cut fits.1 fits.2
    obtain ⟨q, hq, _, hsound⟩ := flushTo_ok fair sound cut
    exact ⟨q, hq, hsound⟩
  | behind anchor margin cs =>
    obtain ⟨indent, hi⟩ := marginText_ok fair fits.2
    cases anchor with
    | none =>
      obtain ⟨q, hq, _, hsound⟩ := emitTrailingComments_ok fair sound indent cs
      exact ⟨q, by simp only [perform, hi]; exact hq, hsound⟩
    | some offset =>
      obtain ⟨q, hq, _, hsound⟩ := flushTo_ok fair sound (fits.1 offset rfl)
      obtain ⟨q', hq', _, hsound'⟩ := emitTrailingComments_ok fair hsound indent cs
      exact ⟨q', by simp only [perform, hq, hi]; exact hq', hsound'⟩
  | put t => exact ⟨page.add t, rfl, sound.add t⟩

theorem performAll_ok (fair : press.Fair) (sound : page.Sound press.doc press.source)
    (strokes : List Stroke) (fits : ∀ s ∈ strokes, s.Fits press.source) :
    ∃ page', strokes.foldlM press.perform page = .ok page' ∧
      page'.Sound press.doc press.source :=
  foldlM_ok (I := fun q : Page => q.Sound press.doc press.source)
    (fun s mem _ kept => perform_ok fair kept (fits s mem)) sound

end Press
end Quell
