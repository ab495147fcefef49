import Quell.Proofs.Annotate.Written
import Quell.Proofs.Document.Around
import Quell.Proofs.Print.Sheet
import Quell.Proofs.Source.Reading
import Quell.Proofs.Text.Terminator

/-!
A source keeps its terminator.

What is put in ends its lines as the document does, and the printer stops nowhere inside of a line
break, if no node and no comment starts or ends there and a brace stands where one is expected. So
the text of an annotated source has the terminator of the source (`annotate_uses`).
-/
namespace Quell

open Text Relation

def Sheet.Keeps (e : LineEnding) (source : Text) (sheet : Sheet) : Prop :=
  Uses e sheet.text ∧ Seam e source sheet.pos

/-- All stops of a stroke are seams, and what it puts in has the terminator. -/
def Stroke.Uses (e : LineEnding) (source : Text) : Stroke → Prop
  | .start lo comments => Seam e source lo ∧ ∀ c ∈ comments, Text.Uses e c.text
  | .reach target => Seam e source target
  | .inside opened ends => (∀ n ∈ opened, Seam e source n) ∧ ∀ n ∈ ends, Seam e source n
  | .behind anchor _ comments => (∀ n ∈ anchor, Seam e source n) ∧ ∀ c ∈ comments, Text.Uses e c.text
  | .put t => Text.Uses e t

theorem uses_run {e : LineEnding} {t : Text} (run : Run t) : Uses e t := by
  apply uses_plain
  intro c mem
  have space := run c mem
  constructor
  · rintro rfl
    exact absurd space (by decide)
  · rintro rfl
    exact absurd space (by decide)

theorem Comment.uses_render {e : LineEnding} {c : Comment} (h : Uses e c.text) : Uses e c.render := by
  unfold render delimit
  cases c.kind with
  | line => exact (uses_append (a := ['/', '/']) (uses_plain (by decide))).mpr h
  | block =>
    apply (uses_append (a := ['/', '*']) (uses_plain (by decide))).mpr
    exact (uses_append h).mpr (uses_plain (by decide))

namespace Sheet.Keeps

variable {e : LineEnding} {source : Text} {sheet : Sheet}

theorem add (h : sheet.Keeps e source) {t : Text} (uses : Uses e t) : (sheet.add t).Keeps e source :=
  ⟨(uses_append h.1).mpr uses, h.2⟩

theorem trimEnd (h : sheet.Keeps e source) : sheet.trimEnd.Keeps e source := by
  obtain ⟨run, split, blank⟩ := exists_run sheet.text
  have text := h.1
  rw [split] at text
  refine ⟨(uses_split text (meets_of_head fun first => ?_)).1, h.2⟩
  exact absurd (blank '\n' (List.mem_of_head? first)) (by decide)

end Sheet.Keeps

namespace Press

structure Neat (e : LineEnding) (press : Press) : Prop where
  size : press.size = press.source.bytes
  source : Uses e press.source
  eol : press.doc.eol = e
  revisions : ∀ r ∈ press.revisions,
    Seam e press.source r.lo ∧ Seam e press.source r.hi ∧ Uses e r.text

variable {e : LineEnding} {press : Press} {sheet sheet' : Sheet}

theorem Neat.uses_eol (neat : press.Neat e) : Uses e press.eol := by
  rw [Press.eol, neat.eol]
  exact uses_text e

theorem copySheet_uses {target : Nat} (stop : Seam e press.source target)
    (h : sheet.Keeps e press.source) (copied : press.copySheet sheet target = .ok sheet') :
    sheet'.Keeps e press.source := by
  obtain ⟨t, slice, made⟩ := bind_eq_ok copied
  cases made
  exact ⟨(uses_append h.1).mpr (h.2.slice stop (slice_eq_ok slice)), stop⟩

theorem flushSheet_uses (neat : press.Neat e) {target : Nat} (stop : Seam e press.source target)
    (h : sheet.Keeps e press.source) (flushed : press.flushSheet sheet target = .ok sheet') :
    sheet'.Keeps e press.source := by
  have whole : min target press.size = target := by
    rw [neat.size]
    exact stop.cut.min_bytes
  unfold flushSheet at flushed
  simp only [whole] at flushed
  split at flushed
  · cases flushed
    exact h
  · obtain ⟨s, revised, copied⟩ := bind_eq_ok flushed
    have kept : s.Keeps e press.source := by
      refine foldlM_keeps (fun r hr a b keeps made => ?_) h revised
      obtain ⟨lo, hi, uses⟩ := neat.revisions r (List.mem_filter.mp hr).1
      obtain ⟨c, copied, made⟩ := bind_eq_ok made
      cases made
      exact ⟨((copySheet_uses lo keeps copied).add uses).1, hi⟩
    exact copySheet_uses stop kept copied

theorem leadSheet_uses (neat : press.Neat e) {lo : Nat} {cs : List Comment}
    (uses : ∀ c ∈ cs, Uses e c.text) (h : sheet.Keeps e press.source)
    (led : press.leadSheet sheet lo cs = .ok sheet') : sheet'.Keeps e press.source := by
  have each : ∀ (cs : List Comment) (indent : Text) (sheet : Sheet), Run indent →
      (∀ c ∈ cs, Uses e c.text) → sheet.Keeps e press.source →
      (cs.foldl (fun s c => ((s.add c.render).add press.eol).add indent) sheet).Keeps e
        press.source := by
    intro cs indent
    induction cs with
    | nil => exact fun _ _ _ h => h
    | cons c cs ih =>
      intro sheet run uses h
      refine ih _ run (fun d hd => uses d (by simp [hd])) ?_
      exact ((h.add (Comment.uses_render (uses c (by simp)))).add neat.uses_eol).add (uses_run run)
  cases cs with
  | nil =>
    cases led
    exact h
  | cons c cs =>
    obtain ⟨indent, found, led⟩ := bind_eq_ok led
    obtain ⟨first, -, led⟩ := bind_eq_ok led
    cases led
    have run := lineIndent_run found
    refine each (c :: cs) indent _ run uses ?_
    split
    · exact h
    · exact (h.trimEnd.add neat.uses_eol).add (uses_run run)

theorem trailSheet_uses (neat : press.Neat e) {indent : Text} {c : Comment} (run : Run indent)
    (uses : Uses e c.text) (h : sheet.Keeps e press.source)
    (trailed : press.trailSheet indent sheet c = .ok sheet') : sheet'.Keeps e press.source := by
  have render := Comment.uses_render uses
  obtain ⟨follows, -, trailed⟩ := bind_eq_ok trailed
  dsimp only at trailed
  split at trailed
  · have row := ((h.add neat.uses_eol).add (uses_run run)).add render
    split at trailed
    · obtain ⟨resume, found, trailed⟩ := bind_eq_ok trailed
      cases trailed
      exact (row.add neat.uses_eol).add (uses_run (lineIndent_run found))
    · cases trailed
      exact row
  · split at trailed
    · cases trailed
      obtain ⟨w, split, -, last⟩ := trimEnd_spec c.text
      have body : Uses e c.text.trimEnd := by
        rw [split] at uses
        refine (uses_split uses (meets_of_last fun ends => ?_)).1
        exact absurd (last '\r' ends) (by decide)
      refine h.add ((uses_append ?_).mpr (uses_plain (by decide)))
      exact (uses_append (uses_plain (by decide))).mpr body
    · cases trailed
      exact (h.add (uses_plain (by decide))).add render

theorem strike_uses (neat : press.Neat e) {stroke : Stroke} (fits : stroke.Uses e press.source)
    (h : sheet.Keeps e press.source) (struck : press.strike sheet stroke = .ok sheet') :
    sheet'.Keeps e press.source := by
  have trailing : ∀ {cs : List Comment} {indent : Text} {one two : Sheet},
      (∀ c ∈ cs, Uses e c.text) → Run indent → one.Keeps e press.source →
      cs.foldlM (press.trailSheet indent) one = .ok two → two.Keeps e press.source := by
    intro cs indent one two uses run start trailed
    exact foldlM_keeps (fun c hc _ _ keeps => trailSheet_uses neat run (uses c hc) keeps)
      start trailed
  cases stroke with
  | start lo cs =>
    obtain ⟨q, flushed, led⟩ := bind_eq_ok struck
    exact leadSheet_uses neat fits.2 (flushSheet_uses neat fits.1 h flushed) led
  | reach target => exact flushSheet_uses neat fits h struck
  | inside opened ends =>
    exact flushSheet_uses neat (inside_keeps h.2 fits.1 fits.2) h struck
  | behind anchor margin cs =>
    cases anchor with
    | none =>
      obtain ⟨indent, found, trailed⟩ := bind_eq_ok struck
      exact trailing fits.2 (marginText_run found) h trailed
    | some offset =>
      obtain ⟨q, flushed, struck⟩ := bind_eq_ok struck
      obtain ⟨indent, found, trailed⟩ := bind_eq_ok struck
      exact trailing fits.2 (marginText_run found) (flushSheet_uses neat (fits.1 offset rfl) h flushed)
        trailed
  | put t =>
    cases struck
    exact h.add fits

end Press

namespace Document

variable {source : Text} {doc doc' : Document} {e : LineEnding}

/-- No node starts or ends inside of a line break, no comment ends inside of one, and none stands
where the brace of a block is expected. -/
structure Unbroken (source : Text) (doc : Document) : Prop where
  nodes : ∀ id, doc.Reaches id → ∀ s, doc.span id = some s → Uncut source s.lo ∧ Uncut source s.hi
  comments : doc.Bears fun _ c => ∀ s, c.span = some s → Uncut source s.hi
  braces : ∀ id, doc.Reaches id → doc.kind id = .block → ∀ s, doc.span id = some s →
    Uncut source (s.lo + 1)

structure Seamed (e : LineEnding) (source : Text) (doc : Document) : Prop where
  eol : doc.eol = e
  nodes : ∀ id, doc.Reaches id → (∀ s, doc.span id = some s → Seam e source s.lo ∧ Seam e source s.hi) ∧
    ∀ t, doc.text? id = some t → Uses e t
  braces : ∀ id, doc.Reaches id → doc.kind id = .block → ∀ s, doc.span id = some s →
    Seam e source (s.lo + 1)
  comments : doc.Bears fun _ c => Uses e c.text ∧
    ∀ s, c.span = some s → Seam e source s.lo ∧ Seam e source s.hi

theorem uses_of_render {c : Comment} (h : Uses e c.render) : Uses e c.text := by
  unfold Comment.render Comment.delimit at h
  cases kind : c.kind with
  | line =>
    rw [kind] at h
    exact (uses_split (a := ['/', '/']) h (meets_of_last (by decide))).2
  | block =>
    rw [kind] at h
    have body := (uses_split (a := ['/', '*']) h (meets_of_last (by decide))).2
    exact (uses_split body (meets_of_head (by decide))).1

theorem uncut_of_comment {c : Comment} {lo hi : Nat} (h : slice? lo hi source = some c.render) :
    Uncut source lo := by
  obtain ⟨a, b, split, start, -⟩ := slice?_eq_some.mp h
  refine ⟨a, c.render ++ b, by rw [split, List.append_assoc], start, meets_of_head ?_⟩
  unfold Comment.render Comment.delimit
  cases c.kind <;> exact fun e => absurd (Option.some.inj e) (by decide)

theorem seamed_of_unbroken (wf : doc.WellFormed source) (standing : doc.Standing source)
    (unbroken : doc.Unbroken source) (eol : doc.eol = e) (uses : Uses e source) :
    doc.Seamed e source where
  eol := eol
  nodes := by
    intro id reached
    have ends : ∀ s, doc.span id = some s → Seam e source s.lo ∧ Seam e source s.hi := by
      intro s span
      obtain ⟨lo, hi⟩ := unbroken.nodes id reached s span
      exact ⟨lo.seam uses, hi.seam uses⟩
    refine ⟨ends, fun t text => ?_⟩
    obtain ⟨s, span, -⟩ := (wf.each id reached).spanned
    have value := ((wf.each id reached).text t text).2.2 s span
    exact (ends s span).1.slice (ends s span).2 value
  braces := fun id reached kind s span => (unbroken.braces id reached kind s span).seam uses
  comments := by
    intro id reached slot c mem
    have ends : ∀ s, c.span = some s → Seam e source s.lo ∧ Seam e source s.hi := by
      intro s span
      exact ⟨(uncut_of_comment (standing id reached slot c mem s span)).seam uses,
        (unbroken.comments id reached slot c mem s span).seam uses⟩
    refine ⟨?_, ends⟩
    obtain ⟨-, s, span, -⟩ := (wf.each id reached).remarks slot c mem
    have slice := standing id reached slot c mem s span
    exact uses_of_render ((ends s span).1.slice (ends s span).2 slice)

theorem ofBreaks_uses (e : LineEnding) : OfBreaks (Uses e) where
  plain := fun _ free => uses_plain fun c mem => by
    have inside := free c mem
    constructor
    · rintro rfl
      cases inside
    · rintro rfl
      cases inside
  append := fun _ _ ha hb => (uses_append ha).mpr hb
  part := fun _ _ h inside trimmed => uses_part h inside trimmed

theorem Recut.seams {p id : NodeId} {A C : List NodeId} {parts : List Text} {s : Span}
    (recut : doc.Recut doc' p A id C parts) (span : doc.span id = some s)
    (value : slice? s.lo s.hi source = some parts.flatten) (lo : Seam e source s.lo)
    (hi : Seam e source s.hi) (each : ∀ t ∈ parts, Uses e t) {i : Nat} {t : Text}
    (part : parts[i]? = some t) {r : Span} (found : doc'.span (doc.nodes.size + i) = some r) :
    Seam e source r.lo ∧ Seam e source r.hi := by
  have node := recut.part i t part
  rw [span_of_node node, span] at found
  cases found
  obtain ⟨lt, rfl⟩ := List.getElem?_eq_some_iff.mp part
  obtain ⟨a, b, split, start, stop⟩ := slice?_eq_some.mp value
  obtain ⟨a', b', split', start', front, -⟩ := lo
  obtain ⟨c, d, split'', stop', -, back⟩ := hi
  obtain ⟨rfl, -⟩ := append_inj_bytes ((List.append_assoc .. ▸ split).symm.trans split')
    (start.trans start'.symm)
  obtain ⟨-, rfl⟩ := append_inj_bytes (split''.symm.trans split)
    (by rw [stop', bytes_append, start, stop])
  have before : Uses e (parts.take i).flatten := uses_flatten fun t ht => each t (List.mem_of_mem_take ht)
  have behind : Uses e (parts.drop (i + 1)).flatten :=
    uses_flatten fun t ht => each t (List.mem_of_mem_drop ht)
  have here : Uses e parts[i] := each _ (List.getElem_mem lt)
  have whole : parts.flatten = (parts.take i).flatten ++ (parts[i] ++ (parts.drop (i + 1)).flatten) := by
    rw [← List.flatten_cons, ← List.drop_eq_getElem_cons lt, ← List.flatten_append,
      List.take_append_drop]
  have rest : Uses e ((parts.drop (i + 1)).flatten ++ d) := (uses_append behind).mpr back
  constructor
  · refine ⟨a ++ (parts.take i).flatten, parts[i] ++ ((parts.drop (i + 1)).flatten ++ d), ?_, ?_,
      (uses_append front).mpr before, (uses_append here).mpr rest⟩
    · rw [split, whole]
      simp only [List.append_assoc]
    · rw [bytes_append, start]
      rfl
  · refine ⟨a ++ (parts.take i).flatten ++ parts[i], (parts.drop (i + 1)).flatten ++ d, ?_, ?_,
      (uses_append ((uses_append front).mpr before)).mpr here, rest⟩
    · rw [split, whole]
      simp only [List.append_assoc]
    · rw [bytes_append, bytes_append, start]
      rfl

theorem uses_tailText {ids : List NodeId}
    (each : ∀ id ∈ ids, ∀ t, doc.text? id = some t → Uses e t) : Uses e (doc.tailText ids) := by
  induction ids with
  | nil => exact uses_nil
  | cons id ids ih =>
    rw [tailText]
    split
    · rename_i t text
      exact (uses_append (ih fun j hj => each j (by simp [hj]))).mpr (each id (by simp) t text)
    · exact uses_nil

theorem uses_trailingIndent {t run : Text} (h : Uses e t) (found : trailingIndent t = some run) :
    Uses e run := by
  obtain ⟨a, rfl, -, -, -⟩ := trailingIndent_eq_some found
  exact (uses_split h (meets_of_last (by simp))).2

theorem Edit.seamed {o : AnnotateOptions} {rule : Text} (edit : Edit o rule doc doc')
    (sound : doc.Sound source) (message : Uses e o.message) (name : Uses e rule)
    (seamed : doc.Seamed e source) : doc'.Seamed e source := by
  obtain ⟨frame, -⟩ := edit.frame sound
  have sound' := edit.sound sound
  -- It is enough to look at the new nodes.
  suffices new : ∀ id, doc'.Reaches id → doc.nodes.size ≤ id →
      (∀ s, doc'.span id = some s → Seam e source s.lo ∧ Seam e source s.hi) ∧
        ∀ t, doc'.text? id = some t → Uses e t by
    refine ⟨frame.eol.trans seamed.eol, fun id reached => ?_, fun id reached kind s span => ?_, ?_⟩
    · rcases Nat.lt_or_ge id doc.nodes.size with lt | ge
      · obtain ⟨kind, span⟩ := frame.same id lt
        have old := seamed.nodes id (frame.back id reached lt)
        unfold text? at old ⊢
        rw [kind, span]
        exact old
      · exact new id reached ge
    · obtain ⟨was, block, same⟩ := frame.block reached kind
      exact seamed.braces id was block s (same ▸ span)
    · have text := fun form kind => (ofBreaks_uses e).directiveText o form message name kind
      refine edit.bears sound ⟨fun slot c c' old merged => ?_, ?_, ⟨text _ _, nofun⟩,
        ⟨text _ _, nofun⟩⟩ seamed.comments
      · rw [(Comment.merge_parses merged).1]
        exact ⟨(ofBreaks_uses e).merge old.1 name merged, old.2⟩
      · unfold besideComment
        split
        · exact ⟨text _ _, nofun⟩
        · exact ⟨text _ _, nofun⟩
  intro id reached ge
  cases edit with
  | extend | beside | behind =>
    have lt := sound'.reaches_lt reached
    simp only [appendComment_eq, size_update] at lt
    exact absurd lt (Nat.not_lt.mpr ge)
  | fill reachedBlock =>
    obtain ⟨-, size, node⟩ := addPlaceholder_spec (sound.reaches_lt reachedBlock)
    have lt := sound'.reaches_lt reached
    rw [size] at lt
    obtain rfl : id = doc.nodes.size := Nat.le_antisymm (Nat.lt_succ_iff.mp lt) ge
    unfold span text? kind
    rw [node]
    exact ⟨nofun, nofun⟩
  | @cut _ p old A C parts s reachedParent markup span settled recut chain =>
    obtain ⟨i, rfl⟩ := Nat.exists_eq_add_of_le ge
    have lt := sound'.reaches_lt reached
    rw [recut.size] at lt
    have inside : i < parts.length := Nat.lt_of_add_lt_add_left lt
    have part : parts[i]? = some parts[i] := List.getElem?_eq_getElem inside
    have here := reachedParent.child (recut.splice.holds_of_mem (List.mem_singleton_self old))
    obtain ⟨ends, text⟩ := seamed.nodes old here
    have each : ∀ t ∈ parts, Uses e t := by
      refine uses_parts (text _ recut.value) chain fun t ht empty => ?_
      have := settled t ht
      rw [empty] at this
      exact absurd this (by unfold Settled; decide)
    have value := ((sound.each old here).text _ recut.value).2.2 s span
    obtain ⟨lo, hi⟩ := ends s span
    refine ⟨fun r found => recut.seams span value lo hi each part found, fun t found => ?_⟩
    rw [text?_of_node (recut.part i _ part) rfl] at found
    cases found
    exact each _ (List.mem_of_getElem? part)
  | @among _ p x A C indent reachedParent markup spanned tags whole blank free margin noted =>
    obtain ⟨spanless, text⟩ := noted.text_new ge
    refine ⟨fun s span => (nomatch spanless.symm.trans span), fun t found => ?_⟩
    rcases text t found with rfl | lead
    · rw [seamed.eol]
      refine (uses_append (uses_text e)).mpr ?_
      rcases margin with ⟨A', y, rfl, value, -⟩ | ⟨rfl, -⟩
      · have hold : doc.Holds p y := by
          unfold Holds
          rw [noted.splice.split]
          simp
        exact (seamed.nodes y (reachedParent.child hold)).2 indent value
      · exact uses_nil
    · cases lead
  | @last _ p first c items indent reachedParent markup layout spanned found noted =>
    obtain ⟨spanless, text⟩ := noted.text_new ge
    have tail : Uses e (doc.tailText items.reverse) := uses_tailText fun j hj =>
      (seamed.nodes j (reachedParent.child (layout.mem_children (List.mem_reverse.mp hj)))).2
    refine ⟨fun s span => (nomatch spanless.symm.trans span), fun t value => ?_⟩
    rcases text t value with rfl | lead
    · rw [seamed.eol]
      refine (uses_append (uses_text e)).mpr ?_
      cases indent with
      | none => exact uses_nil
      | some indent => exact uses_trailingIndent tail found
    · obtain ⟨indent, -, rfl⟩ := Option.map_eq_some_iff.mp lead
      exact uses_run (Press.run_indentUnit indent)

section Print

variable (sound : doc.Sound source) (seamed : doc.Seamed e source)

include seamed

theorem seam_endsOf {id : NodeId} (reached : doc.Reaches id) (slot : Slot) {n : Nat}
    (h : n ∈ endsOf ((doc.node id).comments slot)) : Seam e source n := by
  obtain ⟨c, hc, s, hs, rfl⟩ := mem_endsOf h
  exact ((seamed.comments id reached slot c hc).2 s hs).2

include sound

theorem uses_strokes (uses : Uses e source) : ∀ stroke ∈ doc.strokes source.bytes, stroke.Uses e source := by
  have text : ∀ {id : NodeId}, doc.Reaches id → ∀ (slot : Slot) (c : Comment),
      c ∈ inserted ((doc.node id).comments slot) → Uses e c.text :=
    fun reached slot c mem => (seamed.comments _ reached slot c (mem_inserted mem).1).1
  intro stroke mem
  rcases List.mem_append.mp mem with mem | mem
  · refine forall_gather_put sound.linked (fun _ => sound.reaches_lt)
      (fun _ _ hx hold => Reaches.child hx hold) ?_ ?_ ?_ ?_ ?_ ?_ root .refl stroke mem
    · intro x s hx span
      obtain ⟨lo, hi⟩ := (seamed.nodes x hx).1 s span
      exact ⟨⟨lo, text hx .leading⟩, hi⟩
    · intro x hx block
      refine ⟨fun n hn => ?_, fun n hn => seam_endsOf seamed hx .inner hn⟩
      obtain ⟨s, hs, rfl⟩ := Option.map_eq_some_iff.mp hn
      exact seamed.braces x hx block s hs
    · intro x c hx hold st behind
      have reached := Reaches.child hx hold
      unfold strokesBehind at behind
      split at behind
      · cases behind
      · rw [List.mem_singleton.mp behind]
        exact ⟨fun n hn => seam_endsOf seamed reached .trailing (List.max?_mem hn),
          text reached .trailing⟩
    · intro x t hx spanless kind
      exact (seamed.nodes x hx).2 t (by rw [text?, kind]; rfl)
    · exact ⟨uses_plain (by decide), uses_plain (by decide)⟩
    · exact fun x hx spanless kind c mem => Comment.uses_render (seamed.comments x hx .inner c mem).1
  · rw [List.mem_singleton.mp mem]
    exact Seam.full uses

theorem neat_of_seamed (uses : Uses e source) : (Press.of doc source).Neat e where
  size := rfl
  source := uses
  eol := seamed.eol
  revisions := by
    intro r mem
    obtain ⟨id, reached, c, held, -, render, s, span, lo, hi⟩ :=
      ((Press.fair_of_sound sound).each r mem).2.2.2
    obtain ⟨slot, held⟩ := mem_allComments.mp held
    obtain ⟨text, ends⟩ := seamed.comments id reached slot c held
    obtain ⟨start, stop⟩ := ends s span
    exact ⟨lo ▸ start, hi ▸ stop, render ▸ Comment.uses_render text⟩

theorem print_uses (uses : Uses e source) : ∃ text, doc.print source = .ok text ∧ Uses e text := by
  have braced : doc.Braced source := fun id reached block s span =>
    (seamed.braces id reached block s span).cut
  obtain ⟨page, run, -⟩ := run_ok sound braced
  have printed : doc.print source = .ok page.text := by
    rw [print, run]
    rfl
  refine ⟨page.text, printed, ?_⟩
  rw [print_eq_strike] at printed
  cases struck : (doc.strokes source.bytes).foldlM (Press.of doc source).strike {} with
  | error fault =>
    rw [struck] at printed
    cases printed
  | ok sheet =>
    rw [struck] at printed
    rw [← Except.ok.inj printed]
    have start : Sheet.Keeps e source {} := ⟨uses_nil, Seam.start uses⟩
    exact (foldlM_keeps (fun stroke mem _ _ keeps struck => Press.strike_uses
      (neat_of_seamed sound seamed uses) (uses_strokes sound seamed uses stroke mem) keeps struck)
      start struck).1

end Print

/-- Annotating keeps the terminator of a source: of one with pairs, no half stands alone in the
result, and one without carriage returns gets none. -/
theorem annotate_uses (wf : doc.WellFormed source) (standing : doc.Standing source)
    (unbroken : doc.Unbroken source) (eol : doc.eol = LineEnding.detect source)
    (uses : Uses (LineEnding.detect source) source) (o : AnnotateOptions) (ds : List Diagnostic)
    (message : ∀ c ∈ o.message, c ≠ '\n' ∧ c ≠ '\r')
    (rules : ∀ d ∈ ds, ∀ rule, d.actionableRule = some rule → ∀ c ∈ rule, c ≠ '\n' ∧ c ≠ '\r') :
    ∃ doc' summary text, doc.annotate o ds = .ok (doc', summary) ∧
      doc'.print source = .ok text ∧ Uses (LineEnding.detect source) text := by
  have plain : ∀ d ∈ ds, ∀ rule, Asks o d rule → OnOneLine o rule :=
    fun d hd rule asks => ⟨message, rules d hd rule asks.1⟩
  obtain ⟨doc', summary, result, edits⟩ := annotateFrom_edits wf.sound {} plain
  obtain ⟨sound, seamed⟩ := edits.keeps wf.sound (seamed_of_unbroken wf standing unbroken eol uses)
    fun o rule _ _ plain edit sound =>
      edit.seamed sound (uses_plain plain.1) (uses_plain plain.2)
  obtain ⟨text, printed, kept⟩ := print_uses sound seamed uses
  exact ⟨doc', summary, text, result, printed, kept⟩

theorem unbroken_of_table (linked : doc.Linked) (root_lt : root < doc.nodes.size)
    (h : ∀ id < doc.nodes.size,
      (∀ s ∈ doc.span id, Uncut source s.lo ∧ Uncut source s.hi ∧
        (doc.kind id = .block → Uncut source (s.lo + 1))) ∧
      ∀ c ∈ (doc.node id).allComments, ∀ s ∈ c.span, Uncut source s.hi) : doc.Unbroken source where
  nodes := fun id reached s span =>
    have ends := (h id (linked.reaches_lt root_lt reached)).1 s span
    ⟨ends.1, ends.2.1⟩
  comments := fun id reached slot c mem s span =>
    (h id (linked.reaches_lt root_lt reached)).2 c (mem_allComments.mpr ⟨slot, mem⟩) s span
  braces := fun id reached block s span =>
    ((h id (linked.reaches_lt root_lt reached)).1 s span).2.2 block

/-- An alternate behind an empty block, with pairs. -/
def pairsSource : Text := "if (a) \x7b\x7d\r\nelse b();".toList

def pairsSample : Document where
  eol := .crlf
  nodes := #[
    { kind := .program, span := some ⟨0, 20, 1, 2⟩, children := [1] },
    { kind := .conditional, span := some ⟨0, 20, 1, 2⟩, parent := some 0, children := [2, 3, 4] },
    { kind := .expression, span := some ⟨4, 5, 1, 1⟩, parent := some 1 },
    { kind := .block, span := some ⟨7, 9, 1, 1⟩, parent := some 1 },
    { kind := .statement, span := some ⟨16, 20, 2, 2⟩, parent := some 1 }]

theorem annotate_uses_pairs :
    pairsSample.WellFormed pairsSource ∧ pairsSample.Standing pairsSource ∧
    pairsSample.Unbroken pairsSource ∧ pairsSample.eol = LineEnding.detect pairsSource ∧
    Uses (LineEnding.detect pairsSource) pairsSource ∧ ∃ doc' summary text,
      pairsSample.annotate briefOptions [complaint 2 'r'] = .ok (doc', summary) ∧
      doc'.print pairsSource = .ok text ∧ Uses .crlf text ∧
      text = "if (a) \x7b\r\n  // eslint-disable-next-line r -- m\r\n\x7d\r\nelse b();".toList := by
  have wf : pairsSample.WellFormed pairsSource := wellFormed_of_reads (by decide)
  have standing : pairsSample.Standing pairsSource :=
    standing_of_table wf.linked wf.root_lt (by decide)
  have unbroken : pairsSample.Unbroken pairsSource :=
    unbroken_of_table wf.linked wf.root_lt (by decide)
  have eol : pairsSample.eol = LineEnding.detect pairsSource := by decide
  have uses : Uses (LineEnding.detect pairsSource) pairsSource := by decide
  refine ⟨wf, standing, unbroken, eol, uses, ?_⟩
  obtain ⟨doc', summary, text, result, printed, kept⟩ := annotate_uses wf standing unbroken eol uses
    briefOptions [complaint 2 'r'] (by decide) (by decide)
  rw [← eol] at kept
  refine ⟨doc', summary, text, result, printed, kept, ?_⟩
  obtain ⟨d, s, ran, spelled⟩ : ∃ d s, pairsSample.annotate briefOptions [complaint 2 'r'] =
    .ok (d, s) ∧ d.print pairsSource = .ok
      "if (a) \x7b\r\n  // eslint-disable-next-line r -- m\r\n\x7d\r\nelse b();".toList := ⟨_, _, rfl, rfl⟩
  cases ran.symm.trans result
  exact Except.ok.inj (printed.symm.trans spelled)

/-- A source with pairs and a byte order mark. -/
def markedPairs : Text := "\uFEFFif (a)\r\n \x7b\x7d\r\nelse if (b) \x7b\x7d".toList

/-- How it is read: all offsets are three bytes too low. -/
def markedPairsSample : Document where
  eol := .crlf
  nodes := #[
    { kind := .program, span := some ⟨0, 30, 1, 3⟩, children := [1] },
    { kind := .conditional, span := some ⟨0, 27, 1, 3⟩, parent := some 0, children := [2, 3, 4] },
    { kind := .expression, span := some ⟨4, 5, 1, 1⟩, parent := some 1 },
    { kind := .block, span := some ⟨9, 11, 1, 2⟩, parent := some 1 },
    { kind := .conditional, span := some ⟨18, 27, 3, 3⟩, parent := some 1, children := [5, 6] },
    { kind := .expression, span := some ⟨22, 23, 3, 3⟩, parent := some 4 },
    { kind := .block, span := some ⟨25, 27, 3, 3⟩, parent := some 4 }]

/-- Where no brace stands at the start of a block, a comment in it may divide a line break: no node
and no comment starts or ends inside of one, but the offset behind the brace does. -/
theorem annotate_divides_break :
    read? "a.js".toList markedPairs = .ok (some markedPairsSample) ∧
    markedPairsSample.WellFormed markedPairs ∧ markedPairsSample.Standing markedPairs ∧
    (∀ id, markedPairsSample.Reaches id → ∀ s, markedPairsSample.span id = some s →
      Uncut markedPairs s.lo ∧ Uncut markedPairs s.hi) ∧
    LineEnding.detect markedPairs = .crlf ∧ Uses .crlf markedPairs ∧ ∃ doc' summary text,
      markedPairsSample.annotate briefOptions [complaint 3 'r'] = .ok (doc', summary) ∧
      doc'.print markedPairs = .ok text ∧ ¬ Uses .crlf text := by
  have read : read? "a.js".toList markedPairs = .ok (some markedPairsSample) :=
    read?_of_inOrder (by decide +kernel)
  have wf : markedPairsSample.WellFormed markedPairs := wellFormed_of_reads (by decide)
  have ends : ∀ id < markedPairsSample.nodes.size, ∀ s ∈ markedPairsSample.span id,
      Uncut markedPairs s.lo ∧ Uncut markedPairs s.hi := by decide
  refine ⟨read, wf, standing_of_table wf.linked wf.root_lt (by decide), fun id reached => ?_,
    by decide, by decide, _, _, _, rfl, rfl, by decide⟩
  exact ends id (wf.linked.reaches_lt wf.root_lt reached)

end Document
end Quell
