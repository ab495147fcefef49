import Quell.Proofs.Annotate.Written
import Quell.Proofs.Print.Sheet
import Quell.Proofs.Source.Reading

/-!
A line comment that is put in takes no code with it.

What follows it on its line is blank or was put in as well. Whether that holds is decided while the
page is printed, from what the source has next, so the invariant of a page under way speaks of both:
behind each line comment the line has ended, or nothing but blanks follows on it in the source.
-/
namespace Quell

open Text Relation

namespace Text

theorem blank_firstLine_append {a b : Text} : allBlank (firstLine (a ++ b)) = true ↔
    allBlank (firstLine a) = true ∧ ('\n' ∈ a ∨ allBlank (firstLine b) = true) := by
  induction a with
  | nil => simp [firstLine, allBlank]
  | cons c a ih =>
    by_cases ends : c = '\n'
    · subst ends
      simp [firstLine, allBlank]
    · have front : ∀ t : Text, firstLine (c :: t) = c :: firstLine t := fun t => by
        simp [firstLine, ends]
      simp only [List.cons_append, front, allBlank, List.all_cons, Bool.and_eq_true] at ih ⊢
      simp only [ih, List.mem_cons, Ne.symm ends, false_or, and_assoc]

end Text

/-- Up to the next line break the pieces show nothing of the source but blanks; if none comes, `F`
holds. -/
def Ends (F : Prop) : List Piece → Prop
  | [] => F
  | q :: qs => (q.origin = .added ∨ allBlank (firstLine q.text) = true) ∧ ('\n' ∈ q.text ∨ Ends F qs)

def Piece.IsLine (p : Piece) : Prop := p.origin = .added ∧ ['/', '/'] <+: p.text

def Guarded (F : Prop) : List Piece → Prop
  | [] => True
  | p :: ps => (p.IsLine → '\n' ∉ p.text ∧ Ends F ps) ∧ Guarded F ps

section Pieces

variable {F G : Prop} {ps qs : List Piece}

theorem Ends.mono (h : F → G) (ends : Ends F ps) : Ends G ps := by
  induction ps with
  | nil => exact h ends
  | cons q qs ih => exact ⟨ends.1, ends.2.imp_right ih⟩

theorem ends_append : Ends F (ps ++ qs) ↔ Ends (Ends F qs) ps := by
  induction ps with
  | nil => exact Iff.rfl
  | cons p ps ih => simp only [List.cons_append, Ends, ih]

theorem Guarded.mono (h : F → G) (guarded : Guarded F ps) : Guarded G ps := by
  induction ps with
  | nil => trivial
  | cons p ps ih =>
    exact ⟨fun line => (guarded.1 line).imp_right (Ends.mono h), ih guarded.2⟩

theorem guarded_append : Guarded F (ps ++ qs) ↔ Guarded (Ends F qs) ps ∧ Guarded F qs := by
  induction ps with
  | nil => simp [Guarded]
  | cons p ps ih => simp only [List.cons_append, Guarded, ends_append, ih, and_assoc]

theorem Guarded.snoc {q : Piece} (guarded : Guarded G ps) (next : G → Ends F [q])
    (line : q.IsLine → '\n' ∉ q.text ∧ F) : Guarded F (ps ++ [q]) :=
  guarded_append.mpr ⟨guarded.mono next, fun h => line h, trivial⟩

theorem Guarded.mem {front back : List Piece} {p : Piece} (guarded : Guarded F (front ++ p :: back))
    (line : p.IsLine) : '\n' ∉ p.text ∧ Ends F back :=
  (guarded_append.mp guarded).2.1 line

def Stripped : List Piece → List Piece → Prop :=
  List.Forall₂ fun p q => q.origin = p.origin ∧ ∃ run, p.text = q.text ++ run ∧ Run run

theorem not_break_of_run {run : Text} (h : Run run) : '\n' ∉ run := fun mem =>
  absurd (h _ mem) (by decide)

theorem Ends.strip (ends : Ends F ps) (stripped : Stripped ps qs) : Ends F qs := by
  induction stripped with
  | nil => exact ends
  | @cons p q ps qs same _ ih =>
    obtain ⟨origin, run, text, blank⟩ := same
    refine ⟨?_, ?_⟩
    · rw [origin]
      refine ends.1.imp_right fun clear => ?_
      rw [text, blank_firstLine_append] at clear
      exact clear.1
    · rcases ends.2 with here | later
      · rw [text, List.mem_append] at here
        exact .inl (here.resolve_right (not_break_of_run blank))
      · exact .inr (ih later)

theorem Guarded.strip (guarded : Guarded F ps) (stripped : Stripped ps qs) : Guarded F qs := by
  induction stripped with
  | nil => trivial
  | @cons p q ps qs same rest ih =>
    refine ⟨fun line => ?_, ih guarded.2⟩
    obtain ⟨origin, run, text, -⟩ := same
    have whole : p.IsLine := ⟨origin ▸ line.1, by rw [text]; exact line.2.trans (List.prefix_append _ _)⟩
    obtain ⟨free, ends⟩ := guarded.1 whole
    rw [text, List.mem_append, not_or] at free
    exact ⟨free.1, ends.strip rest⟩

theorem stripped_refl (ps : List Piece) : Stripped ps ps :=
  List.forall₂_same.mpr fun p _ => ⟨rfl, [], by simp, nofun⟩

theorem stripped_stripEnd (ps : List Piece) : Stripped ps.reverse (Page.stripEnd ps).reverse := by
  rw [Stripped, List.forall₂_reverse_iff]
  induction ps with
  | nil => exact .nil
  | cons p ps ih =>
    obtain ⟨run, text, blank⟩ := exists_run p.text
    rw [Page.stripEnd]
    split
    · rename_i none
      rw [none] at text
      exact .cons ⟨rfl, run, text, blank⟩ ih
    · exact .cons ⟨rfl, run, text, blank⟩ (stripped_refl ps)

end Pieces

/-- The page stands at a cut of the source, and what follows each line comment that was put in ends
its line, with what the source has next. -/
def Page.Guards (source : Text) (page : Page) : Prop :=
  ∃ a b, source = a ++ b ∧ bytes a = page.pos ∧
    Guarded (allBlank (firstLine b) = true) page.pieces.reverse

namespace Page.Guards

variable {source : Text} {page : Page}

/-- Text that is no line comment may come anywhere. -/
theorem add (h : page.Guards source) {t : Text} (other : ¬ ['/', '/'] <+: t) :
    (page.add t).Guards source := by
  obtain ⟨a, b, split, pos, guarded⟩ := h
  refine ⟨a, b, split, pos, ?_⟩
  rw [Page.add, List.reverse_cons]
  exact guarded.snoc (fun blank => ⟨.inl rfl, .inr blank⟩) fun line => absurd line.2 other

theorem addLine {a b : Text} (split : source = a ++ b) (pos : bytes a = page.pos)
    (h : page.Guards source) (blank : allBlank (firstLine b) = true) {t : Text} (free : '\n' ∉ t) :
    (page.add t).Guards source := by
  obtain ⟨a', b', split', pos', guarded⟩ := h
  obtain ⟨rfl, rfl⟩ := append_inj_bytes (split'.symm.trans split) (pos'.trans pos.symm)
  refine ⟨a', b', split, pos, ?_⟩
  rw [Page.add, List.reverse_cons]
  exact guarded.snoc (fun blank => ⟨.inl rfl, .inr blank⟩) fun _ => ⟨free, blank⟩

theorem addEnded (h : page.Guards source) {t eol : Text} (free : '\n' ∉ t) (ends : '\n' ∈ eol)
    (other : ¬ ['/', '/'] <+: eol) : ((page.add t).add eol).Guards source := by
  obtain ⟨a, b, split, pos, guarded⟩ := h
  refine ⟨a, b, split, pos, ?_⟩
  simp only [Page.add, List.reverse_cons]
  have next : Guarded True (page.pieces.reverse ++ [⟨.added, t⟩]) :=
    guarded.snoc (fun _ => ⟨.inl rfl, .inr trivial⟩) fun _ => ⟨free, trivial⟩
  exact next.snoc (fun _ => ⟨.inl rfl, .inl ends⟩) fun line => absurd line.2 other

theorem trimEnd (h : page.Guards source) : page.trimEnd.Guards source := by
  obtain ⟨a, b, split, pos, guarded⟩ := h
  exact ⟨a, b, split, pos, guarded.strip (stripped_stripEnd page.pieces)⟩

/-- Source text goes on as the line does. -/
theorem copy (h : page.Guards source) {lo hi : Nat} {t : Text}
    (slice : slice? page.pos hi source = some t) :
    Page.Guards source ⟨⟨.copied lo hi, t⟩ :: page.pieces, hi⟩ := by
  obtain ⟨a, b, split, pos, guarded⟩ := h
  obtain ⟨x, y, split', lo', hi'⟩ := slice?_eq_some.mp slice
  rw [List.append_assoc] at split'
  obtain ⟨rfl, rfl⟩ := append_inj_bytes (split.symm.trans split') (pos.trans lo'.symm)
  refine ⟨a ++ t, y, by rw [split, List.append_assoc], by rw [bytes_append, pos]; exact hi', ?_⟩
  rw [List.reverse_cons]
  refine guarded.snoc (fun blank => ?_) fun line => absurd line.1 nofun
  obtain ⟨here, next⟩ := blank_firstLine_append.mp blank
  exact ⟨.inr here, next⟩

theorem revise (h : page.Guards source) {lo hi : Nat} {t rest : Text} (cut : Cut source hi)
    (slice : slice? page.pos hi source = some ('/' :: rest)) :
    Page.Guards source ⟨⟨.revised lo hi, t⟩ :: page.pieces, hi⟩ := by
  obtain ⟨a, b, split, pos, guarded⟩ := h
  obtain ⟨x, y, split', lo', -⟩ := slice?_eq_some.mp slice
  rw [List.append_assoc] at split'
  obtain ⟨rfl, rfl⟩ := append_inj_bytes (split.symm.trans split') (pos.trans lo'.symm)
  obtain ⟨front, back, whole, size⟩ := cut
  refine ⟨front, back, whole, size, ?_⟩
  rw [List.reverse_cons]
  refine guarded.snoc (fun blank => ?_) fun line => absurd line.1 nofun
  exact absurd blank (by simp [firstLine, allBlank, show isBlank '/' = false by decide])

end Page.Guards

theorem not_slashes_of_run {t : Text} (run : Run t) : ¬ ['/', '/'] <+: t := by
  rintro ⟨rest, rfl⟩
  exact absurd (run '/' (by simp)) (by decide)

theorem LineEnding.break_mem (eol : LineEnding) : '\n' ∈ eol.text := by
  cases eol <;> decide

theorem LineEnding.not_slashes (eol : LineEnding) : ¬ ['/', '/'] <+: eol.text := by
  cases eol <;> decide

def Stroke.OneLine : Stroke → Prop
  | .start _ comments => ∀ c ∈ comments, '\n' ∉ c.text
  | .behind _ _ comments => ∀ c ∈ comments, '\n' ∉ c.text
  | .put t => ¬ ['/', '/'] <+: t
  | _ => True

theorem Comment.break_mem_render {c : Comment} (free : '\n' ∉ c.text) : '\n' ∉ c.render := by
  unfold render delimit
  cases c.kind <;> simp [free]

namespace Press

variable {press : Press} {page page' : Page}

def Replaces (press : Press) : Prop :=
  ∀ r ∈ press.revisions, ∃ rest, slice? r.lo r.hi press.source = some ('/' :: rest)

theorem copyTo_guards {target : Nat} (h : page.Guards press.source)
    (copied : press.copyTo page target = .ok page') :
    page'.Guards press.source ∧ page'.pos = target := by
  obtain ⟨t, slice, made⟩ := bind_eq_ok copied
  cases made
  exact ⟨h.copy (slice_eq_ok slice), rfl⟩

theorem copyRevision_guards (replaces : press.Replaces) {r : Revision} (mem : r ∈ press.revisions)
    (h : page.Guards press.source) (copied : press.copyRevision page r = .ok page') :
    page'.Guards press.source := by
  obtain ⟨q, reached, made⟩ := bind_eq_ok copied
  cases made
  obtain ⟨guards, pos⟩ := copyTo_guards h reached
  obtain ⟨rest, slice⟩ := replaces r mem
  exact guards.revise (slice?_cuts slice).2.1 (pos ▸ slice)

theorem flushTo_guards (replaces : press.Replaces) {target : Nat} (h : page.Guards press.source)
    (flushed : press.flushTo page target = .ok page') : page'.Guards press.source := by
  unfold flushTo at flushed
  dsimp only at flushed
  split at flushed
  · cases flushed
    exact h
  · obtain ⟨q, due, copied⟩ := bind_eq_ok flushed
    have kept : q.Guards press.source := foldlM_keeps (fun r hr _ _ guards revised =>
      copyRevision_guards replaces (List.mem_filter.mp hr).1 guards revised) h due
    exact (copyTo_guards kept copied).1

theorem lead_guards {lo : Nat} {cs : List Comment} (free : ∀ c ∈ cs, '\n' ∉ c.text)
    (h : page.Guards press.source) (led : press.lead page lo cs = .ok page') :
    page'.Guards press.source := by
  have each : ∀ (cs : List Comment) (indent : Text) (page : Page), Run indent →
      (∀ c ∈ cs, '\n' ∉ c.text) → page.Guards press.source →
      (cs.foldl (fun p c => ((p.add c.render).add press.eol).add indent) page).Guards
        press.source := by
    intro cs indent
    induction cs with
    | nil => exact fun _ _ _ h => h
    | cons c cs ih =>
      intro page run free h
      refine ih _ run (fun d hd => free d (by simp [hd])) ?_
      exact (h.addEnded (Comment.break_mem_render (free c (by simp))) (LineEnding.break_mem _)
        (LineEnding.not_slashes _)).add (not_slashes_of_run run)
  cases cs with
  | nil =>
    cases led
    exact h
  | cons c cs =>
    obtain ⟨indent, found, led⟩ := bind_eq_ok led
    obtain ⟨first, -, led⟩ := bind_eq_ok led
    cases led
    have run := lineIndent_run found
    refine each (c :: cs) indent _ run free ?_
    split
    · exact h
    · exact (h.trimEnd.add (LineEnding.not_slashes _)).add (not_slashes_of_run run)

/-- A comment behind a node. A line comment in front of code gets a line break, or is written as a
block. -/
theorem emitTrailingComment_guards {indent : Text} {c : Comment} (run : Run indent)
    (free : '\n' ∉ c.text) (h : page.Guards press.source) (size : press.size = press.source.bytes)
    (emitted : press.emitTrailingComment indent page c = .ok page') :
    page'.Guards press.source := by
  have render := Comment.break_mem_render free
  have eol := LineEnding.not_slashes press.doc.eol
  obtain ⟨follows, looked, emitted⟩ := bind_eq_ok emitted
  dsimp only at emitted
  -- A comment that does not cut is followed by nothing but blanks, or is a block.
  have quiet : (follows && c.kind == .line) = false → ∀ q : Page, q.pos = page.pos →
      q.Guards press.source → (q.add c.render).Guards press.source := by
    intro silent q same guards
    obtain ⟨rest, slice, answer⟩ := bind_eq_ok looked
    obtain ⟨x, y, split, lo, hi⟩ := slice?_eq_some.mp (slice_eq_ok slice)
    cases kind : c.kind with
    | block => exact guards.add (by rw [Comment.render, kind]; simp [Comment.delimit])
    | line =>
      cases answer
      have blank : allBlank (firstLine rest) = true := by simpa [kind] using silent
      have none : y = [] := by
        apply bytes_eq_zero.mp
        have whole := congrArg bytes split
        rw [bytes_append, bytes_append] at whole
        omega
      rw [none, List.append_nil] at split
      exact guards.addLine split (lo.trans same.symm) blank render
  split at emitted
  · split at emitted
    · obtain ⟨resume, found, emitted⟩ := bind_eq_ok emitted
      cases emitted
      exact (((h.add eol).add (not_slashes_of_run run)).addEnded render (LineEnding.break_mem _) eol).add
        (not_slashes_of_run (lineIndent_run found))
    · rename_i silent
      cases emitted
      exact quiet (by simpa using silent) _ rfl ((h.add eol).add (not_slashes_of_run run))
  · split at emitted
    · cases emitted
      exact h.add (by rintro ⟨rest, e⟩; cases e)
    · rename_i silent
      cases emitted
      exact quiet (by simpa using silent) _ rfl (h.add (by decide))

theorem perform_guards (replaces : press.Replaces) (size : press.size = press.source.bytes)
    {stroke : Stroke} (fits : stroke.OneLine) (h : page.Guards press.source)
    (performed : press.perform page stroke = .ok page') : page'.Guards press.source := by
  have trailing : ∀ {cs : List Comment} {indent : Text} {one two : Page},
      (∀ c ∈ cs, '\n' ∉ c.text) → Run indent → one.Guards press.source →
      cs.foldlM (press.emitTrailingComment indent) one = .ok two → two.Guards press.source := by
    intro cs indent one two free run start emitted
    exact foldlM_keeps (fun c hc _ _ guards => emitTrailingComment_guards run (free c hc) guards size)
      start emitted
  cases stroke with
  | start lo cs =>
    obtain ⟨q, flushed, led⟩ := bind_eq_ok performed
    exact lead_guards fits (flushTo_guards replaces h flushed) led
  | reach target => exact flushTo_guards replaces h performed
  | inside opened ends => exact flushTo_guards replaces h performed
  | behind anchor margin cs =>
    cases anchor with
    | none =>
      obtain ⟨indent, found, emitted⟩ := bind_eq_ok performed
      exact trailing fits (marginText_run found) h emitted
    | some offset =>
      obtain ⟨q, flushed, performed⟩ := bind_eq_ok performed
      obtain ⟨indent, found, emitted⟩ := bind_eq_ok performed
      exact trailing fits (marginText_run found) (flushTo_guards replaces h flushed) emitted
  | put t =>
    cases performed
    exact h.add fits

theorem run_guarded {doc : Document} {source : Text} (replaces : (Press.of doc source).Replaces)
    (fits : ∀ stroke ∈ doc.strokes source.bytes, stroke.OneLine) {page : Page}
    (run : (Press.of doc source).run = .ok page) : Guarded True page.pieces.reverse := by
  rw [run_eq_perform] at run
  have start : Page.Guards source {} := ⟨[], source, rfl, rfl, trivial⟩
  obtain ⟨a, b, -, -, guarded⟩ : page.Guards source :=
    foldlM_keeps (fun stroke mem _ _ guards performed =>
      perform_guards replaces rfl (fits stroke mem) guards performed) start run
  exact guarded.mono fun _ => trivial

end Press

namespace Document

variable {source : Text} {doc doc' : Document}

theorem Sound.blank_text (sound : doc.Sound source) {id : NodeId} {t : Text} (reached : doc.Reaches id)
    (spanless : doc.span id = none) (text : doc.text? id = some t) : allBlank t = true := by
  rcases ReflTransGen.cases_tail reached with e | ⟨p, hp, hold⟩
  · exact absurd (e ▸ spanless) sound.root_span
  · have markup := (sound.each p hp).texts id t hold text
    rcases ((sound.each p hp).arranged markup).part hold spanless with note | gap | lead
    · rw [note.text?_eq] at text
      cases text
    · obtain ⟨indent, value, blank, -⟩ := gap.text?_eq
      cases text.symm.trans value
      rw [allBlank_append, LineEnding.allBlank_text, blank]
      rfl
    · obtain ⟨blanks, value, -, blank, -⟩ := lead.text?_eq
      cases text.symm.trans value
      exact blank

def TidyComment (source : Text) (slot : Slot) (c : Comment) : Prop :=
  (c.span = none → '\n' ∉ c.text ∧ (slot = .inner → c.kind = .block)) ∧
    ∀ s, c.span = some s → ∃ rest, slice? s.lo s.hi source = some ('/' :: rest)

theorem ofBreaks_free : OfBreaks fun t => '\n' ∉ t where
  plain := fun t free mem => absurd (free _ mem) (by decide)
  append := by simp only [List.mem_append, not_or]; exact fun _ _ ha hb => ⟨ha, hb⟩
  part := fun t x free inside _ mem => free (inside.subset mem)

theorem writes_tidy {o : AnnotateOptions} {rule : Text} (plain : OnOneLine o rule) :
    Writes o rule (TidyComment source) := by
  have message : '\n' ∉ o.message := fun mem => (plain.1 _ mem).1 rfl
  have free : '\n' ∉ rule := fun mem => (plain.2 _ mem).1 rfl
  have text := fun form kind => ofBreaks_free.directiveText o form message free kind
  refine ⟨fun slot c c' tidy merged => ?_, ?_, ?_, ?_⟩
  · obtain ⟨span, kind, -⟩ := Comment.merge_parses merged
    rw [TidyComment, span, kind]
    refine ⟨fun inserted => ?_, tidy.2⟩
    obtain ⟨old, block⟩ := tidy.1 inserted
    exact ⟨ofBreaks_free.merge old free merged, block⟩
  · unfold besideComment
    split
    · exact ⟨fun _ => ⟨text _ _, nofun⟩, nofun⟩
    · exact ⟨fun _ => ⟨text _ _, nofun⟩, nofun⟩
  · exact ⟨fun _ => ⟨text _ _, nofun⟩, nofun⟩
  · exact ⟨fun _ => ⟨text _ _, fun _ => rfl⟩, nofun⟩

theorem bears_tidy (wf : doc.WellFormed source) (standing : doc.Standing source) :
    doc.Bears (TidyComment source) := by
  intro id reached slot c mem
  constructor
  · intro inserted
    obtain ⟨-, s, span, -⟩ := (wf.each id reached).remarks slot c mem
    rw [span] at inserted
    cases inserted
  · intro s span
    have slice := standing id reached slot c mem s span
    unfold Comment.render Comment.delimit at slice
    cases kind : c.kind with
    | line => exact ⟨_, kind ▸ slice⟩
    | block => exact ⟨_, kind ▸ slice⟩

section Print

variable (sound : doc.Sound source) (tidy : doc.Bears (TidyComment source))

include sound tidy

theorem oneLine_strokes : ∀ stroke ∈ doc.strokes source.bytes, stroke.OneLine := by
  have free : ∀ {id : NodeId}, doc.Reaches id → ∀ (slot : Slot) (c : Comment),
      c ∈ inserted ((doc.node id).comments slot) → '\n' ∉ c.text := by
    intro id reached slot c mem
    obtain ⟨mem, new⟩ := mem_inserted mem
    exact ((tidy id reached slot c mem).1 new).1
  intro stroke mem
  rcases List.mem_append.mp mem with mem | mem
  · refine forall_gather_put sound.linked (fun _ => sound.reaches_lt)
      (fun _ _ hx hold => Reaches.child hx hold) ?_ ?_ ?_ ?_ ?_ ?_ root .refl stroke mem
    · exact fun x s hx _ => ⟨free hx .leading, trivial⟩
    · exact fun _ _ _ => trivial
    · intro x c hx hold st behind
      unfold strokesBehind at behind
      split at behind
      · cases behind
      · rw [List.mem_singleton.mp behind]
        exact free (Reaches.child hx hold) .trailing
    · intro x t hx spanless kind
      have blank := sound.blank_text hx spanless (by rw [text?, kind]; rfl)
      rintro ⟨rest, rfl⟩
      exact absurd (allBlank_iff.mp blank '/' (by simp)) (by decide)
    · constructor
      · rintro ⟨rest, e⟩
        cases e
      · rintro ⟨rest, e⟩
        cases e
    · intro x hx spanless kind c mem
      have block := ((tidy x hx .inner c mem).1 (sound.slot_comment hx spanless kind mem)).2 rfl
      rintro ⟨rest, e⟩
      rw [Comment.render, block] at e
      cases e
  · rw [List.mem_singleton.mp mem]
    trivial

theorem replaces_of_tidy : (Press.of doc source).Replaces := by
  intro r mem
  obtain ⟨id, reached, c, held, -, -, s, span, lo, hi⟩ := ((Press.fair_of_sound sound).each r mem).2.2.2
  obtain ⟨slot, held⟩ := mem_allComments.mp held
  obtain ⟨rest, slice⟩ := (tidy id reached slot c held).2 s span
  exact ⟨rest, lo ▸ hi ▸ slice⟩

end Print

/-- A line comment that was put in takes no code with it: up to the next line break, everything behind
it that stands in the source, or for a comment of the source, is blank. -/
theorem print_spares_code (wf : doc.WellFormed source) (standing : doc.Standing source)
    (calls : CallsWith OnOneLine doc doc') :
    (∀ page, (Press.of doc' source).run = .ok page → doc'.print source = .ok page.text ∧
      ∀ front p back, page.pieces.reverse = front ++ p :: back → p.origin = .added →
        ['/', '/'] <+: p.text → '\n' ∉ p.text ∧ Ends True back) ∧
    (doc.Braced source → ∃ page, (Press.of doc' source).run = .ok page) := by
  have edits := calls.edits wf.sound
  have sound := edits.sound wf.sound
  have tidy : doc'.Bears (TidyComment source) :=
    edits.bears wf.sound (fun _ _ => writes_tidy) (bears_tidy wf standing)
  constructor
  · intro page run
    refine ⟨by rw [print, run]; rfl, fun front p back split added line => ?_⟩
    have guarded := Press.run_guarded (replaces_of_tidy sound tidy) (oneLine_strokes sound tidy) run
    rw [split] at guarded
    exact guarded.mem ⟨added, line⟩
  · intro braced
    obtain ⟨page, run, -⟩ := run_ok sound ((edits.frame wf.sound).braced braced)
    exact ⟨page, run⟩

def branchFront : List Piece :=
  [⟨.copied 0 4, "if (".toList⟩, ⟨.copied 4 5, "a".toList⟩, ⟨.copied 5 7, ") ".toList⟩,
   ⟨.copied 7 8, "\x7b".toList⟩, ⟨.added, "\n".toList⟩, ⟨.added, "  ".toList⟩]

def branchBack : List Piece :=
  [⟨.added, "\n".toList⟩, ⟨.added, []⟩, ⟨.copied 8 9, "\x7d".toList⟩,
   ⟨.copied 9 15, "\nelse ".toList⟩, ⟨.copied 15 19, "b();".toList⟩]

/-- The closing brace of the block follows the place of the comment in the source; on the page it
comes behind a line break. -/
theorem print_spares_code_branch : branchSample.WellFormed branchSource ∧
    branchSample.Standing branchSource ∧ ∃ doc', CallsWith OnOneLine branchSample doc' ∧
    ∃ page, (Press.of doc' branchSource).run = .ok page ∧
      let p : Piece := ⟨.added, "// eslint-disable-next-line r -- m".toList⟩
      page.pieces.reverse = branchFront ++ p :: branchBack ∧ '\n' ∉ p.text ∧ Ends True branchBack := by
  have wf : branchSample.WellFormed branchSource := wellFormed_of_reads (by decide)
  have standing : branchSample.Standing branchSource :=
    standing_of_table wf.linked wf.root_lt (by decide)
  have calls : CallsWith OnOneLine branchSample
      (attachToBlockTail { message := ['m'] } branchSample 3 ['r']).1 :=
    ReflTransGen.single ⟨{ message := ['m'] }, 2, ['r'], .inserted, ⟨by decide, by decide⟩, rfl⟩
  obtain ⟨page, run, split⟩ : ∃ page, (Press.of
      (attachToBlockTail { message := ['m'] } branchSample 3 ['r']).1 branchSource).run = .ok page ∧
      page.pieces.reverse = branchFront ++
        ⟨.added, "// eslint-disable-next-line r -- m".toList⟩ :: branchBack := ⟨_, rfl, rfl⟩
  obtain ⟨-, spares⟩ := (print_spares_code wf standing calls).1 page run
  exact ⟨wf, standing, _, calls, page, run, split, spares _ _ _ split rfl (by decide)⟩

/-- A source with a byte order mark, so that the range of its comment ends three bytes too early. -/
def takenSource : Text :=
  "\uFEFFx = \x7b\n     b:\n     [ \n]// eslint-disable-next-line q\n,c\x7d".toList

def takenComment : Comment where
  kind := .line
  text := " eslint-disable-next-line q".toList
  placement := .trailing false
  span := some ⟨23, 52, 3, 4⟩

def takenSample : Document where
  nodes := #[
    { kind := .program, span := some ⟨0, 59, 1, 5⟩, children := [1] },
    { kind := .statement, span := some ⟨0, 56, 1, 5⟩, parent := some 0, children := [2] },
    { kind := .expression, span := some ⟨0, 56, 1, 5⟩, parent := some 1, children := [3] },
    { kind := .expression, span := some ⟨4, 56, 1, 5⟩, parent := some 2, children := [4, 6] },
    { kind := .part, span := some ⟨11, 23, 2, 3⟩, parent := some 3, children := [5]
      trailing := [takenComment] },
    { kind := .expression, span := some ⟨19, 23, 3, 3⟩, parent := some 4 },
    { kind := .part, span := some ⟨54, 55, 4, 4⟩, parent := some 3 }]

def takenOptions : AnnotateOptions := { message := ['m'], inline := true }

/-- The page after a directive for line 3 and the same kind of call for line 2, which extends the
comment of the source. -/
def takenFront : List Piece :=
  [⟨.copied 0 4, "\uFEFFx".toList⟩, ⟨.copied 4 11, " = \x7b\n  ".toList⟩,
   ⟨.copied 11 19, "   b:\n  ".toList⟩, ⟨.copied 19 23, "   [".toList⟩, ⟨.added, " ".toList⟩]

def takenBack : List Piece :=
  [⟨.copied 23 23, []⟩, ⟨.revised 23 52, "// eslint-disable-next-line q, s".toList⟩,
   ⟨.copied 52 54, "e ".toList⟩, ⟨.copied 54 55, "q".toList⟩, ⟨.copied 55 56, "\n".toList⟩,
   ⟨.copied 56 59, ",c\x7d".toList⟩]

set_option maxRecDepth 100000 in
/-- What the comment of the source leaves over stands behind the line comment that was put in. -/
theorem print_takes_rest : read? "a.js".toList takenSource = .ok (some takenSample) ∧
    takenSample.WellFormed takenSource ∧ ∃ doc', CallsWith OnOneLine takenSample doc' ∧
    ∃ page, (Press.of doc' takenSource).run = .ok page ∧
      let p : Piece := ⟨.added, "// eslint-disable-line r -- m".toList⟩
      page.pieces.reverse = takenFront ++ p :: takenBack ∧ ¬ Ends True takenBack := by
  refine ⟨?_, wellFormed_of_reads (by decide), ?_⟩
  · refine read?_of_inOrder ?_
    unfold takenSource takenSample takenComment
    simp only [String.reduceToList]
    decide +kernel
  · refine ⟨_, .tail (.single ⟨takenOptions, 3, ['r'], .inserted, ⟨by decide, by decide⟩, rfl⟩)
      ⟨takenOptions, 2, ['s'], .merged, ⟨by decide, by decide⟩, rfl⟩, _, rfl, rfl, ?_⟩
    rintro ⟨-, here | ⟨-, here | ⟨shown | blank, -⟩⟩⟩
    · exact absurd here (by decide)
    · exact absurd here (by decide)
    · cases shown
    · exact absurd blank (by decide)

end Document
end Quell
