import Quell.Proofs.Print.Rest
import Quell.Proofs.Print.Way

/-!
Where a page parts.

A page that has come to an offset of the source and goes on with a copy of what stands there never
changes the pieces that it had before, for only spaces and tabs are taken from the end of a page and
the copy has more than these. So the finished page parts at the offset (`PartsAt`): what it shows of
the source in front of the offset stands in the first part, the rest in the second.
-/
namespace Quell

open Text Relation

/-- Behind the pieces `below` the page goes on with a copy of what starts at an offset, of which more
can be seen than spaces and tabs. -/
def Page.Atop (below : List Piece) (lo : Nat) (c : Char) (page : Page) : Prop :=
  ∃ more hi t, page.pieces = more ++ ⟨.copied lo hi, c :: t⟩ :: below ∧ ¬ Run (c :: t)

namespace Page

variable {page page' : Page} {below : List Piece} {lo : Nat} {c : Char}

def Grows (page page' : Page) : Prop := ∃ more, page'.pieces = more ++ page.pieces

theorem Grows.trans {page'' : Page} (h : page.Grows page') (k : page'.Grows page'') :
    page.Grows page'' := by
  obtain ⟨more, hm⟩ := h
  obtain ⟨later, hl⟩ := k
  exact ⟨later ++ more, by rw [hl, hm, List.append_assoc]⟩

theorem Atop.grows (h : page.Atop below lo c) (grows : page.Grows page') : page'.Atop below lo c := by
  obtain ⟨more, hi, t, pieces, ink⟩ := h
  obtain ⟨later, grown⟩ := grows
  exact ⟨later ++ more, hi, t, by rw [grown, pieces, List.append_assoc], ink⟩

theorem Atop.add (h : page.Atop below lo c) (t : Text) : (page.add t).Atop below lo c :=
  h.grows ⟨[⟨.added, t⟩], rfl⟩

/-- What is stripped from the end of a page does not reach the copy. -/
theorem Atop.trimEnd (h : page.Atop below lo c) : page.trimEnd.Atop below lo c := by
  obtain ⟨more, hi, t, pieces, ink⟩ := h
  suffices strips : ∀ more, ∃ more' hi' t', Page.stripEnd (more ++ ⟨.copied lo hi, c :: t⟩ :: below) =
      more' ++ ⟨.copied lo hi', c :: t'⟩ :: below ∧ ¬ Run (c :: t') by
    obtain ⟨more', hi', t', stripped, ink'⟩ := strips more
    exact ⟨more', hi', t', by rw [← stripped, ← pieces]; rfl, ink'⟩
  intro more
  induction more with
  | nil =>
    obtain ⟨run, whole, blank⟩ := exists_run (c :: t)
    rw [List.nil_append, Page.stripEnd]
    cases kept : (c :: t).reverse.dropWhile Page.isSpaceOrTab with
    | nil =>
      rw [kept] at whole
      exact absurd (whole ▸ blank) ink
    | cons d ds =>
      rw [kept] at whole
      cases front : (d :: ds).reverse with
      | nil => exact absurd front (by simp)
      | cons e es =>
        rw [front] at whole
        obtain ⟨rfl, rfl⟩ := List.cons.inj whole
        refine ⟨[], hi, es, by rw [← front]; rfl, fun none => ink fun x mem => ?_⟩
        rw [List.append_eq, ← List.cons_append] at mem
        rcases List.mem_append.mp mem with mem | mem
        · exact none x mem
        · exact blank x mem
  | cons q more ih =>
    rw [List.cons_append, Page.stripEnd]
    split
    · obtain ⟨more', hi', t', shape, ink'⟩ := ih
      exact ⟨{ q with text := [] } :: more', hi', t', by rw [shape]; rfl, ink'⟩
    · exact ⟨_ :: more, hi, t, rfl, ink⟩

end Page

namespace Press

variable {press : Press} {page page' : Page} {below : List Piece} {lo target : Nat} {c : Char}

theorem copyTo_grows (h : press.copyTo page target = .ok page') : page.Grows page' := by
  obtain ⟨t, -, made⟩ := bind_eq_ok h
  cases made
  exact ⟨[_], rfl⟩

theorem copyRevision_grows {r : Revision} (h : press.copyRevision page r = .ok page') :
    page.Grows page' := by
  obtain ⟨q, copied, made⟩ := bind_eq_ok h
  cases made
  exact (copyTo_grows copied).trans ⟨[_], rfl⟩

theorem copyRevisions_grows {rs : List Revision}
    (h : rs.foldlM press.copyRevision page = .ok page') : page.Grows page' :=
  foldlM_keeps (I := page.Grows) (fun _ _ _ _ grows step => grows.trans (copyRevision_grows step))
    ⟨[], rfl⟩ h

theorem flushTo_grows (h : press.flushTo page target = .ok page') : page.Grows page' := by
  unfold flushTo at h
  dsimp only at h
  split at h
  · cases h
    exact ⟨[], rfl⟩
  · obtain ⟨q, revised, copied⟩ := bind_eq_ok h
    exact (copyRevisions_grows revised).trans (copyTo_grows copied)

theorem flushTo_first (lt : page.pos < min target press.size)
    (h : press.flushTo page target = .ok page') :
    ∃ more n t, page'.pieces = more ++ ⟨.copied page.pos n, t⟩ :: page.pieces ∧
      slice? page.pos n press.source = some t ∧
      (n = min target press.size ∨
        ∃ r ∈ press.revisions, n = r.lo ∧ page.pos ≤ r.lo ∧ r.lo < target ∧ r.hi ≤ target) := by
  unfold flushTo at h
  dsimp only at h
  rw [if_neg (Nat.not_le_of_lt lt)] at h
  obtain ⟨q, revised, copied⟩ := bind_eq_ok h
  cases due : press.revisions.filter (fun r => page.pos ≤ r.lo && r.lo < min target press.size &&
      r.hi ≤ min target press.size) with
  | nil =>
    rw [due] at revised
    cases revised
    obtain ⟨t, slice, made⟩ := bind_eq_ok copied
    cases made
    exact ⟨[], _, t, rfl, slice_eq_ok slice, .inl rfl⟩
  | cons r rs =>
    have mem : r ∈ press.revisions.filter (fun r => page.pos ≤ r.lo &&
        r.lo < min target press.size && r.hi ≤ min target press.size) := by
      rw [due]
      exact List.mem_cons_self
    obtain ⟨known, place⟩ := List.mem_filter.mp mem
    simp only [Bool.and_eq_true, decide_eq_true_eq] at place
    rw [due, List.foldlM_cons] at revised
    obtain ⟨first, revise, rest⟩ := bind_eq_ok revised
    obtain ⟨top, up, made⟩ := bind_eq_ok revise
    obtain ⟨t, slice, made'⟩ := bind_eq_ok up
    cases made'
    cases made
    obtain ⟨more, grown⟩ := (copyRevisions_grows rest).trans (copyTo_grows copied)
    exact ⟨more ++ [⟨.revised r.lo r.hi, r.text⟩], r.lo, t, by rw [grown]; simp, slice_eq_ok slice,
      .inr ⟨r, known, rfl, by omega, by omega, by omega⟩⟩

theorem lead_atop {n : Nat} {cs : List Comment} (h : page.Atop below lo c)
    (led : press.lead page n cs = .ok page') : page'.Atop below lo c := by
  cases cs with
  | nil =>
    cases led
    exact h
  | cons k cs =>
    obtain ⟨indent, -, led⟩ := bind_eq_ok led
    obtain ⟨first, -, led⟩ := bind_eq_ok led
    cases led
    have fold : ∀ (cs : List Comment) (q : Page), q.Atop below lo c →
        (cs.foldl (fun p k => ((p.add k.render).add press.eol).add indent) q).Atop below lo c := by
      intro cs
      induction cs with
      | nil => exact fun _ h => h
      | cons k cs ih => exact fun q h => ih _ (((h.add _).add _).add _)
    refine fold (k :: cs) _ ?_
    split
    · exact h
    · exact (h.trimEnd.add _).add _

theorem perform_atop (h : page.Atop below lo c) {stroke : Stroke}
    (performed : press.perform page stroke = .ok page') : page'.Atop below lo c := by
  have trailing : ∀ {cs : List Comment} {indent : Text} {one two : Page}, one.Atop below lo c →
      cs.foldlM (press.emitTrailingComment indent) one = .ok two → two.Atop below lo c := by
    intro cs indent one two start emitted
    refine foldlM_keeps (fun k _ q q' atop step => ?_) start emitted
    obtain ⟨follows, -, step⟩ := bind_eq_ok step
    dsimp only at step
    split at step
    · split at step
      · obtain ⟨resume, -, step⟩ := bind_eq_ok step
        cases step
        exact ((((atop.add _).add _).add _).add _).add _
      · cases step
        exact ((atop.add _).add _).add _
    · split at step
      · cases step
        exact atop.add _
      · cases step
        exact (atop.add _).add _
  cases stroke with
  | start n cs =>
    obtain ⟨q, flushed, led⟩ := bind_eq_ok performed
    exact lead_atop (h.grows (flushTo_grows flushed)) led
  | reach n => exact h.grows (flushTo_grows performed)
  | inside opened ends => exact h.grows (flushTo_grows performed)
  | behind anchor margin cs =>
    cases anchor with
    | none =>
      obtain ⟨indent, -, emitted⟩ := bind_eq_ok performed
      exact trailing h emitted
    | some n =>
      obtain ⟨q, flushed, performed⟩ := bind_eq_ok performed
      obtain ⟨indent, -, emitted⟩ := bind_eq_ok performed
      exact trailing (h.grows (flushTo_grows flushed)) emitted
  | put t =>
    cases performed
    exact h.add t

theorem performAll_atop (h : page.Atop below lo c) {strokes : List Stroke}
    (performed : strokes.foldlM press.perform page = .ok page') : page'.Atop below lo c :=
  foldlM_keeps (fun _ _ _ _ atop step => perform_atop atop step) h performed

def Onward (press : Press) (lo : Nat) (c : Char) (strokes : List Stroke) : Prop :=
  ∀ page page' : Page, page.pos = lo → strokes.foldlM press.perform page = .ok page' →
    page'.Atop page.pieces lo c

theorem flushTo_atop {a b : Text} (fair : press.Fair) (split : press.source = a ++ c :: b)
    (seen : Page.isSpaceOrTab c = false) (free : ∀ r ∈ press.revisions, r.lo ≠ bytes a)
    (cut : Cut press.source target) (lt : bytes a < target) (pos : page.pos = bytes a)
    (flushed : press.flushTo page target = .ok page') : page'.Atop page.pieces (bytes a) c := by
  have whole : min target press.size = target := by
    rw [fair.size]
    exact cut.min_bytes
  obtain ⟨more, n, t, pieces, slice, stop⟩ := flushTo_first (by rw [whole, pos]; exact lt) flushed
  rw [pos] at pieces slice stop
  have far : bytes a < n := by
    rcases stop with rfl | ⟨r, known, rfl, le, -⟩
    · rw [whole]
      exact lt
    · exact Nat.lt_of_le_of_ne le (Ne.symm (free r known))
  obtain ⟨w, rfl⟩ := slice_head split slice far
  refine ⟨more, n, w, pieces, fun run => ?_⟩
  rw [run c List.mem_cons_self] at seen
  cases seen

theorem Opens.onward {a b : Text} {strokes : List Stroke} (opens : Opens (bytes a) strokes)
    (fair : press.Fair) (split : press.source = a ++ c :: b) (seen : Page.isSpaceOrTab c = false)
    (free : ∀ r ∈ press.revisions, r.lo ≠ bytes a) (fits : ∀ s ∈ strokes, s.Fits press.source) :
    press.Onward (bytes a) c strokes := by
  have ink := fun {page page' : Page} {n : Nat} (cut : Cut press.source n) (lt : bytes a < n)
      (pos : page.pos = bytes a) (flushed : press.flushTo page n = .ok page') =>
    flushTo_atop fair split seen free cut lt pos flushed
  induction opens with
  | @skip n strokes le opens ih =>
    intro page page' pos ran
    rw [List.foldlM_cons] at ran
    obtain ⟨q, first, rest⟩ := bind_eq_ok ran
    have stays : press.flushTo page n = .ok page := by
      unfold flushTo
      rw [if_pos (by rw [pos]; omega)]
      rfl
    obtain ⟨q₁, flushed, led⟩ := bind_eq_ok first
    cases stays.symm.trans flushed
    cases led
    exact ih (fun s mem => fits s (List.mem_cons_of_mem _ mem)) page page' pos rest
  | @start n cs strokes lt =>
    intro page page' pos ran
    rw [List.foldlM_cons] at ran
    obtain ⟨q, first, rest⟩ := bind_eq_ok ran
    have cut : Cut press.source n := fits _ List.mem_cons_self
    obtain ⟨q₁, flushed, led⟩ := bind_eq_ok first
    exact performAll_atop (lead_atop (ink cut lt pos flushed) led) rest
  | @reach n strokes lt =>
    intro page page' pos ran
    rw [List.foldlM_cons] at ran
    obtain ⟨q, first, rest⟩ := bind_eq_ok ran
    exact performAll_atop (ink (fits _ List.mem_cons_self) lt pos first) rest
  | @inside n ends strokes lt =>
    intro page page' pos ran
    rw [List.foldlM_cons] at ran
    obtain ⟨q, first, rest⟩ := bind_eq_ok ran
    obtain ⟨opened, closed⟩ : (∀ o ∈ some n, Cut press.source o) ∧ ∀ e ∈ ends, Cut press.source e :=
      fits _ List.mem_cons_self
    exact performAll_atop (ink (foldl_max_keeps (opened n rfl) closed) lt pos first) rest

theorem leaf_onward {hi : Nat} {t : Text} {W : List Stroke} (fair : press.Fair)
    (slice : slice? lo hi press.source = some (c :: t)) (ink : ¬ Run (c :: t))
    (apart : ∀ r ∈ press.revisions, r.lo < r.hi ∧ (r.hi ≤ lo ∨ hi ≤ r.lo)) :
    press.Onward lo c ([.start lo [], .reach hi] ++ W) := by
  intro page page' pos ran
  obtain ⟨-, cut, -⟩ := slice?_cuts slice
  have whole : min hi press.size = hi := by
    rw [fair.size]
    exact cut.min_bytes
  have lt : lo < hi := by
    have := slice?_bytes slice
    rw [bytes_cons] at this
    have := Char.utf8Size_pos c
    omega
  rw [List.cons_append, List.foldlM_cons] at ran
  obtain ⟨q, first, ran⟩ := bind_eq_ok ran
  have stays : press.flushTo page lo = .ok page := by
    unfold flushTo
    rw [if_pos (by rw [pos]; omega)]
    rfl
  obtain ⟨q₁, flushed, led⟩ := bind_eq_ok first
  cases stays.symm.trans flushed
  cases led
  rw [List.cons_append, List.foldlM_cons] at ran
  obtain ⟨q, second, rest⟩ := bind_eq_ok ran
  obtain ⟨more, n, u, pieces, copied, stop⟩ := flushTo_first (by rw [whole, pos]; exact lt) second
  rw [pos] at pieces copied stop
  obtain rfl : n = hi := by
    rcases stop with rfl | ⟨r, known, rfl, le, below, -⟩
    · exact whole
    · obtain ⟨wide, side⟩ := apart r known
      omega
  cases slice.symm.trans copied
  exact performAll_atop ⟨more, n, t, pieces, ink⟩ rest

theorem perform_congr {doc doc' : Document} {source : Text} (ending : doc'.eol = doc.eol)
    (revisions : revisionsOf doc' = revisionsOf doc) :
    (Press.of doc' source).perform = (Press.of doc source).perform := by
  unfold Press.of
  rw [revisions]
  generalize revisionsOf doc = rs
  have eols : eol ⟨doc', source, source.bytes, rs⟩ = eol ⟨doc, source, source.bytes, rs⟩ :=
    congrArg LineEnding.text ending
  have each : emitTrailingComment ⟨doc', source, source.bytes, rs⟩ =
      emitTrailingComment ⟨doc, source, source.bytes, rs⟩ := by
    funext indent page c
    simp only [emitTrailingComment, eols]
    rfl
  funext page stroke
  cases stroke with
  | start lo comments =>
    cases comments with
    | nil => rfl
    | cons c cs =>
      simp only [perform, lead, eols]
      rfl
  | reach target => rfl
  | inside opened ends => rfl
  | behind anchor margin comments =>
    cases anchor with
    | some offset =>
      simp only [perform, each]
      rfl
    | none =>
      simp only [perform, each]
      rfl
  | put t => rfl

end Press

namespace Document

variable {source : Text} {doc : Document} {lo : Nat} {c : Char} {x w : Text}

/-- The page of a document parts at an offset of the source. Its pieces use the source up in order,
and those of the second part start with a copy from the offset on; so the first part shows what the
source has in front of the offset and the second part shows the rest. -/
def PartsAt (source : Text) (doc : Document) (lo : Nat) (x y : Text) : Prop :=
  ∃ page front hi t back, (Press.of doc source).run = .ok page ∧
    page.pieces.reverse = front ++ ⟨.copied lo hi, t⟩ :: back ∧ t ≠ [] ∧
    Spends doc source 0 page.pieces.reverse ∧
    x = front.flatMap (·.text) ∧ y = t ++ back.flatMap (·.text)

theorem PartsAt.print {y : Text} (parts : doc.PartsAt source lo x y) :
    doc.print source = .ok (x ++ y) := by
  obtain ⟨page, front, hi, t, back, run, split, -, -, rfl, rfl⟩ := parts
  unfold Document.print
  rw [run]
  show Except.ok page.text = _
  unfold Page.text
  rw [split, List.flatMap_append, List.flatMap_cons]

theorem partsAt_of_strokes {U W : List Stroke} {pos : Nat} (sound : doc.Sound source)
    (braced : doc.Braced source) (split : doc.strokes source.bytes = U ++ W)
    (front : U.foldlM (Press.of doc source).strike {} = .ok ⟨x, lo⟩)
    (back : W.foldlM (Press.of doc source).strike ⟨x, lo⟩ = .ok ⟨x ++ c :: w, pos⟩)
    (onward : (Press.of doc source).Onward lo c W) : doc.PartsAt source lo x (c :: w) := by
  obtain ⟨page, run, spends⟩ := run_ok sound braced
  have performed := run
  rw [Press.run_eq_perform, split, List.foldlM_append] at performed
  obtain ⟨mid, top, rest⟩ := bind_eq_ok performed
  have mid_sheet : mid.sheet = ⟨x, lo⟩ := by
    have sheets := (Press.of doc source).performAll_sheet {} U
    rw [top] at sheets
    exact Except.ok.inj (sheets.trans front)
  have page_sheet : page.sheet = ⟨x ++ c :: w, pos⟩ := by
    have sheets := (Press.of doc source).performAll_sheet mid W
    rw [rest, mid_sheet] at sheets
    exact Except.ok.inj (sheets.trans back)
  obtain ⟨more, hi, t, pieces, -⟩ := onward mid page (congrArg Sheet.pos mid_sheet) rest
  have shape : page.pieces.reverse =
      mid.pieces.reverse ++ ⟨.copied lo hi, c :: t⟩ :: more.reverse := by
    rw [pieces]
    simp
  have above : mid.text = x := congrArg Sheet.text mid_sheet
  have whole : page.text = x ++ c :: w := congrArg Sheet.text page_sheet
  refine ⟨page, _, hi, c :: t, _, run, shape, List.cons_ne_nil c t, spends, above.symm, ?_⟩
  unfold Page.text at whole above
  rw [shape, List.flatMap_append, List.flatMap_cons, above] at whole
  exact (List.append_cancel_left whole).symm

end Document
end Quell
