import Quell.Proofs.Annotate.Seamless
import Quell.Proofs.Annotate.Written
import Quell.Proofs.Print.Parted

/-!
What is on a sheet between two children of an element.

The children of an element take up its span, so when a sheet has come as far as one of them, the
source is spent up to there, and the texts in front of it are the last things that were written. A
markup comment that is put in between is a row between the two (`Noted.print_between`).
-/
namespace Quell

open Text Relation

namespace Press

variable {press : Press} {lo hi : Nat} {t : Text}

theorem flushSheet_copy (fair : press.Fair) (slice : slice? lo hi press.source = some t)
    (apart : ∀ r ∈ press.revisions, r.lo < r.hi ∧ (r.hi ≤ lo ∨ hi ≤ r.lo)) (above : Text) :
    press.flushSheet ⟨above, lo⟩ hi = .ok ⟨above ++ t, hi⟩ := by
  obtain ⟨-, cut, le⟩ := slice?_cuts slice
  rcases Nat.lt_or_eq_of_le le with lt | rfl
  · have none : press.due lo hi = [] := by
      refine List.filter_eq_nil_iff.mpr fun r hr => ?_
      obtain ⟨wide, side⟩ := apart r hr
      simp only [Bool.and_eq_true, decide_eq_true_eq, not_and]
      omega
    rw [flushSheet_go fair cut lt, none]
    exact copySheet_eq slice
  · have empty : t = [] := bytes_eq_zero.mp (by have := slice?_bytes slice; omega)
    rw [flushSheet_stay (Nat.le_refl lo), empty, List.append_nil]

theorem strike_leaf (fair : press.Fair) (slice : slice? lo hi press.source = some t)
    (apart : ∀ r ∈ press.revisions, r.lo < r.hi ∧ (r.hi ≤ lo ∨ hi ≤ r.lo)) (above : Text) :
    ([.start lo [], .reach hi] : List Stroke).foldlM press.strike ⟨above, lo⟩ =
      .ok ⟨above ++ t, hi⟩ := by
  rw [List.foldlM_cons, strike_start, flushSheet_stay (Nat.le_refl lo)]
  exact (strike_reach press _ hi).trans (flushSheet_copy fair slice apart above)

theorem strike_puts (ts : List Text) (sheet : Sheet) :
    (ts.map Stroke.put).foldlM press.strike sheet = .ok (sheet.add ts.flatten) := by
  induction ts generalizing sheet with
  | nil =>
    show Except.ok sheet = _
    simp [Sheet.add]
  | cons t ts ih =>
    rw [List.map_cons, List.foldlM_cons]
    show (ts.map Stroke.put).foldlM press.strike (sheet.add t) = _
    rw [ih]
    simp [Sheet.add, List.append_assoc]

end Press

namespace Document

variable {source : Text} {doc doc' : Document} {p x : NodeId} {s : Span}

theorem strokesAt_put {t : Text} {q : Option NodeId} (linked : doc.Linked)
    (node : doc.node x = { kind := .text t, span := none, parent := q }) :
    doc.strokesAt p x = [t].map .put := by
  have valid : x < doc.nodes.size := by
    by_contra out
    rw [node_of_size_le doc (Nat.le_of_not_lt out)] at node
    cases node
  have leaf : doc.children x = [] := congrArg Node.children node
  unfold strokesAt strokesBehind
  rw [gather_eq linked valid, leaf]
  unfold strokesOf Document.span Document.kind
  rw [node]
  rfl

theorem strokesAt_note {h e : NodeId} {c : Comment} {q : Option NodeId} (linked : doc.Linked)
    (hole : doc.node h = { kind := .hole, span := none, parent := q, children := [e] })
    (slot : doc.node e =
      { kind := .emptyHole, span := none, parent := some h, inner := [c] }) :
    doc.strokesAt p h = [['\x7b'], c.render, ['\x7d']].map .put := by
  have hold : doc.Holds h e := by
    unfold Holds Document.children
    rw [hole]
    exact List.mem_singleton_self e
  have kids : doc.children h = [e] := congrArg Node.children hole
  have leaf : doc.children e = [] := congrArg Node.children slot
  have inside : doc.gather doc.strokesOf e = [.put c.render] := by
    rw [gather_eq linked (linked.child_lt hold), leaf]
    unfold strokesOf Document.span Document.kind
    rw [slot]
    rfl
  have flat : doc.strokesInside h [(e, [.put c.render])] = [.put c.render] := by
    unfold strokesInside strokesInside strokesEntering strokesBehind Document.kind
    rw [hole, slot]
    simp [inserted]
  unfold strokesAt strokesBehind
  rw [gather_eq linked hold.parent_lt, kids, List.map_singleton, inside]
  unfold strokesOf Document.span Document.kind
  rw [hole]
  dsimp only
  rw [flat]
  rfl

theorem tailText_text {A : List NodeId} {t : Text} (value : doc.text? x = some t) :
    doc.tailText (A ++ [x]).reverse = doc.tailText A.reverse ++ t := by
  rw [List.reverse_append, List.reverse_singleton, List.singleton_append, tailText, value]

theorem tailText_solid {A : List NodeId} (solid : doc.text? x = none) :
    doc.tailText (A ++ [x]).reverse = [] := by
  rw [List.reverse_append, List.reverse_singleton, List.singleton_append, tailText, solid]

section Children

variable (woven : doc.Woven source) (reached : doc.Reaches p)
variable (markup : (doc.kind p).hasMarkupChildren = true)

include woven

/-- No revised comment is empty or touches a text. -/
theorem Woven.apart {t : Text} (within : doc.Reaches x) (value : doc.text? x = some t)
    (span : doc.span x = some s) :
    ∀ r ∈ (Press.of doc source).revisions, r.lo < r.hi ∧ (r.hi ≤ s.lo ∨ s.hi ≤ r.lo) := by
  intro r hr
  refine ⟨?_, woven.clear.apart woven.sound within value span r hr⟩
  obtain ⟨-, -, -, j, hj, c, hc, -, -, u, hu, lo, hi⟩ :=
    (Press.fair_of_sound woven.sound).each r hr
  obtain ⟨slot, mem⟩ := mem_allComments.mp hc
  rw [← lo, ← hi]
  exact woven.seamless.wide u ⟨j, slot, c, hj, mem, hu⟩

include reached

theorem Woven.strike_text {t : Text} (hold : doc.Holds p x) (value : doc.text? x = some t)
    (span : doc.span x = some s) (above : Text) :
    (doc.strokesAt p x).foldlM (Press.of doc source).strike ⟨above, s.lo⟩ =
      .ok ⟨above ++ t, s.hi⟩ := by
  have sound := woven.sound
  have within := reached.child hold
  obtain ⟨leaf, silent, slice⟩ := (sound.each x within).text t value
  rw [strokesAt_leaf sound.linked (sound.linked.child_lt hold) span leaf silent]
  exact Press.strike_leaf (Press.fair_of_sound sound) (slice s span) (woven.apart within value span)
    above

include markup

theorem Woven.strokesAt_spanned (hold : doc.Holds p x) (span : doc.span x = some s) :
    doc.strokesAt p x = .start s.lo [] :: (doc.strokesInside x
      ((doc.children x).map fun c => (c, doc.gather doc.strokesOf c)) ++ [.reach s.hi]) := by
  have front : inserted (doc.node x).leading = [] :=
    woven.unadorned p x .leading reached markup hold nofun
  have back : inserted (doc.node x).trailing = [] :=
    woven.unadorned p x .trailing reached markup hold nofun
  unfold strokesAt strokesBehind
  rw [woven.sound.gather_start (reached.child hold) span, front, back]
  exact List.append_nil _

theorem Woven.token_of_child (hold : doc.Holds p x) (solid : doc.text? x = none)
    (span : doc.span x = some s) : doc.Token x s := by
  refine ⟨reached.child hold, woven.sound.ne_root_of_holds hold, solid, fun empty => ?_, span⟩
  obtain ⟨u, hu, -⟩ := woven.sound.parent_span reached hold span
  have hole := (woven.snug.slots p x u s reached hold empty hu span).1
  rw [hole] at markup
  cases markup

theorem Woven.stops_le (hold : doc.Holds p x) (span : doc.span x = some s) :
    ∀ st ∈ doc.strokesAt p x, ∀ n ∈ st.stops, n ≤ s.hi := by
  have bound : doc.Bound source x (· ≤ s.hi) :=
    { lower := fun _ _ _ le high => Nat.le_trans le high
      remark := fun y slot r below _ remark _ _ =>
        (woven.seamless.inside p x y s slot r reached markup hold below span remark).2 }
  refine bound.stops_at woven.sound woven.braced woven.snug reached hold fun u hu => ?_
  cases span.symm.trans hu
  exact Nat.le_refl _

theorem Woven.strike_pos (hold : doc.Holds p x) (span : doc.span x = some s) {sheet mid : Sheet}
    (here : sheet.pos = s.lo)
    (ran : (doc.strokesAt p x).foldlM (Press.of doc source).strike sheet = .ok mid) :
    mid.pos = s.hi := by
  have fair := Press.fair_of_sound woven.sound
  have fits := woven.sound.fits (reached.child hold) span
  have start : Cut source sheet.pos := here ▸ fits.lo
  have each : ∀ st ∈ doc.strokesAt p x, st.Fits source := by
    intro st mem
    rcases List.mem_append.mp mem with mem | mem
    · exact fits_gather woven.sound woven.braced x (reached.child hold) st mem
    · exact fits_strokesBehind woven.sound reached hold st mem
  have low : sheet.pos ≤ s.hi := by
    rw [here]
    exact fits.le
  have high := Press.strikeAll_pos fair start each
    (woven.stops_le reached markup hold span) low ran
  -- the last stroke goes up to the end
  rw [woven.strokesAt_spanned reached markup hold span, ← List.cons_append, List.foldlM_append] at ran
  obtain ⟨before, front, last⟩ := bind_eq_ok ran
  rw [Press.strike_reach] at last
  have stop := Press.flushSheet_pos fair (Press.strikeAll_cut start front) fits.hi last
  omega

theorem Woven.strike_spanless (hold : doc.Holds p x) (spanless : doc.span x = none) {sheet mid : Sheet}
    (ran : (doc.strokesAt p x).foldlM (Press.of doc source).strike sheet = .ok mid) :
    mid.pos = sheet.pos ∧ ∀ t, doc.text? x = some t → mid.text = sheet.text ++ t := by
  have linked := woven.sound.linked
  have put : ∀ {t : Text} {q : Option NodeId},
      doc.node x = { kind := .text t, span := none, parent := q } →
      mid.pos = sheet.pos ∧ ∀ u, doc.text? x = some u → mid.text = sheet.text ++ u := by
    intro t q node
    rw [strokesAt_put linked node, Press.strike_puts] at ran
    cases ran
    refine ⟨rfl, fun u value => ?_⟩
    cases (text?_of_node node rfl).symm.trans value
    simp [Sheet.add]
  rcases ((woven.sound.each p reached).arranged markup).part hold spanless with
    ⟨_, _, c, hole, slot, -⟩ | ⟨_, _, node, -⟩ | ⟨_, _, node, -⟩
  · rw [strokesAt_note linked hole slot, Press.strike_puts] at ran
    cases ran
    refine ⟨rfl, fun t value => ?_⟩
    unfold text? Document.kind at value
    rw [hole] at value
    cases value
  · exact put node
  · exact put node

/-- When neighbouring children have been printed, the source is spent up to the end of the last one
that has a span, and the texts at their end were written last. -/
theorem Woven.strike_children {A : List NodeId} (held : ∀ y ∈ A, doc.Holds p y) {lo n : Nat}
    (abut : doc.Abut lo n (doc.inSource A)) {sheet mid : Sheet} (here : sheet.pos = lo)
    (ran : (A.flatMap (doc.strokesAt p)).foldlM (Press.of doc source).strike sheet = .ok mid) :
    mid.pos = n ∧ ∃ above, mid.text = above ++ doc.tailText A.reverse := by
  induction A using List.reverseRecOn generalizing n mid with
  | nil =>
    cases ran
    exact ⟨here.trans abut, sheet.text, (List.append_nil _).symm⟩
  | append_singleton A y ih =>
    rw [inSource_append] at abut
    obtain ⟨m, front, back⟩ := abut_append.mp abut
    rw [List.flatMap_append, List.flatMap_singleton, List.foldlM_append] at ran
    obtain ⟨before, first, last⟩ := bind_eq_ok ran
    obtain ⟨pos, above, text⟩ := ih (fun z hz => held z (List.mem_append_left _ hz)) front first
    have hold := held y (by simp)
    have solid : doc.text? y = none → ∃ above, mid.text = above ++ doc.tailText (A ++ [y]).reverse := by
      intro none
      rw [tailText_solid none]
      exact ⟨mid.text, (List.append_nil _).symm⟩
    cases span : doc.span y with
    | none =>
      obtain ⟨stays, put⟩ := woven.strike_spanless reached markup hold span last
      rw [inSource_of_spanless (by simpa using span)] at back
      refine ⟨stays.trans (pos.trans back), ?_⟩
      cases value : doc.text? y with
      | none => exact solid value
      | some t =>
        refine ⟨above, ?_⟩
        rw [put t value, text, tailText_text value, List.append_assoc]
    | some s =>
      rw [inSource_of_spanned (by simp [span])] at back
      obtain ⟨u, hu, low, high⟩ := back
      cases span.symm.trans hu
      have high : s.hi = n := high
      refine ⟨(woven.strike_pos reached markup hold span (pos.trans low.symm) last).trans high, ?_⟩
      cases value : doc.text? y with
      | none => exact solid value
      | some t =>
        have same : before = ⟨before.text, s.lo⟩ := by rw [low, ← pos]
        rw [same, woven.strike_text reached hold value span] at last
        cases last
        refine ⟨above, ?_⟩
        show before.text ++ t = _
        rw [text, tailText_text value, List.append_assoc]

omit markup in
theorem Woven.strike_texts {G : List NodeId} (held : ∀ g ∈ G, doc.Holds p g)
    (texts : ∀ g ∈ G, ∃ t, doc.text? g = some t ∧ '\n' ∉ t) {lo n : Nat} (cut : Cut source lo)
    (abut : doc.Abut lo n G) : ∃ lead, slice? lo n source = some lead ∧ '\n' ∉ lead ∧
      ∀ above, (G.flatMap (doc.strokesAt p)).foldlM (Press.of doc source).strike ⟨above, lo⟩ =
        .ok ⟨above ++ lead, n⟩ := by
  induction G generalizing lo with
  | nil =>
    obtain rfl : lo = n := abut
    refine ⟨[], ?_, nofun, fun above => by rw [List.append_nil]; rfl⟩
    obtain ⟨a, b, split, rfl⟩ := cut
    exact slice?_eq_some.mpr ⟨a, b, by rw [List.append_nil, split], rfl, rfl⟩
  | cons g G ih =>
    obtain ⟨s, span, rfl, rest⟩ := abut
    obtain ⟨t, value, free⟩ := texts g List.mem_cons_self
    have hold := held g List.mem_cons_self
    have slice := ((woven.sound.each g (reached.child hold)).text t value).2.2 s span
    obtain ⟨lead, more, free', run⟩ := ih (fun z hz => held z (List.mem_cons_of_mem g hz))
      (fun z hz => texts z (List.mem_cons_of_mem g hz)) (slice?_cuts slice).2.1 rest
    refine ⟨t ++ lead, slice?_join slice more, by simp [free, free'], fun above => ?_⟩
    rw [List.flatMap_cons, List.foldlM_append, woven.strike_text reached hold value span]
    show List.foldlM _ _ _ = _
    rw [run, List.append_assoc]

theorem Woven.strike_onward (hold : doc.Holds p x) (span : doc.span x = some s)
    (seen : ∀ t, doc.text? x = some t → allBlank t = false) {W : List Stroke}
    (fits : ∀ st ∈ W, st.Fits source) {above : Text} {sheet : Sheet}
    (ran : (doc.strokesAt p x ++ W).foldlM (Press.of doc source).strike ⟨above, s.lo⟩ = .ok sheet) :
    ∃ a c b w, source = a ++ c :: b ∧ bytes a = s.lo ∧ sheet.text = above ++ c :: w ∧
      (∀ other, (doc.strokesAt p x ++ W).foldlM (Press.of doc source).strike ⟨other, s.lo⟩ =
        .ok ⟨other ++ c :: w, sheet.pos⟩) ∧
      (Press.of doc source).Onward s.lo c (doc.strokesAt p x ++ W) := by
  have sound := woven.sound
  have fair := Press.fair_of_sound sound
  have within := reached.child hold
  cases value : doc.text? x with
  | some t =>
    obtain ⟨r, d, y, rfl, run, ink⟩ := (run_or_ink t).resolve_left fun run => by
      have blank := run.allBlank
      rw [seen t value] at blank
      cases blank
    have first : ∃ c t, r ++ d :: y = c :: t := by
      cases r with
      | nil => exact ⟨d, y, rfl⟩
      | cons c r => exact ⟨c, r ++ d :: y, rfl⟩
    obtain ⟨c, t, shape⟩ := first
    obtain ⟨leaf, silent, slice⟩ := (sound.each x within).text _ value
    obtain ⟨a, b, split, lo, -⟩ := slice?_eq_some.mp (slice s span)
    have onward : (Press.of doc source).Onward s.lo c (doc.strokesAt p x ++ W) := by
      rw [strokesAt_leaf sound.linked (sound.linked.child_lt hold) span leaf silent]
      refine Press.leaf_onward fair (shape ▸ slice s span) (fun none => ?_)
        (woven.apart within value span)
      rw [none d (by rw [← shape]; simp)] at ink
      cases ink
    -- behind the blanks at the start of the text something can be seen
    have copied : ∀ other, (doc.strokesAt p x ++ W).foldlM (Press.of doc source).strike ⟨other, s.lo⟩ =
        W.foldlM (Press.of doc source).strike (Sheet.under ⟨d :: y, s.hi⟩ (other ++ r)) := by
      intro other
      rw [List.foldlM_append, woven.strike_text reached hold value span]
      show List.foldlM _ _ _ = _
      rw [Sheet.under, List.append_assoc]
    have headed : Sheet.Headed ⟨d :: y, s.hi⟩ d := ⟨ink, y, rfl⟩
    rw [copied] at ran
    obtain ⟨w, text, all⟩ := Press.headed_onward
      (fun above _ _ h => Press.strikeAll_below above h W) headed ran
    obtain ⟨v, more⟩ : ∃ v, r ++ d :: w = c :: v := by
      cases r with
      | nil =>
        obtain ⟨rfl, -⟩ := List.cons.inj shape
        exact ⟨w, rfl⟩
      | cons e r =>
        obtain ⟨rfl, -⟩ := List.cons.inj shape
        exact ⟨r ++ d :: w, rfl⟩
    refine ⟨a, c, t ++ b, v, ?_, lo, ?_, fun other => ?_, onward⟩
    · rw [split, shape, List.append_assoc, List.cons_append]
    · rw [text, List.append_assoc, more]
    · rw [copied, all, List.append_assoc, more]
  | none =>
    have token := woven.token_of_child reached markup hold value span
    obtain ⟨a, c, b, split, lo, ink⟩ := woven.snug.starts x s token
    have dark : Page.isSpaceOrTab c = false := by
      by_contra blank
      rw [isBlank_of_isSpaceOrTab (Bool.not_eq_false _ ▸ blank)] at ink
      cases ink
    have free : ∀ r ∈ (Press.of doc source).revisions, r.lo ≠ bytes a := by
      intro r hr
      obtain ⟨-, -, -, j, hj, k, hk, -, -, u, hu, low, -⟩ := fair.each r hr
      obtain ⟨slot, mem⟩ := mem_allComments.mp hk
      rw [← low, lo]
      exact woven.snug.distinct x s j slot u token ⟨hj, k, mem, hu⟩
    have own := woven.strokesAt_spanned reached markup hold span
    have opens : Press.Opens (bytes a) (doc.strokesAt p x ++ W) := by
      rw [own, lo]
      simp only [List.cons_append, List.append_assoc]
      exact .skip (Nat.le_refl _) (sound.opens woven.snug woven.anchored x token W)
    have each : ∀ st ∈ doc.strokesAt p x ++ W, st.Fits source := by
      intro st mem
      rcases List.mem_append.mp mem with mem | mem
      · rcases List.mem_append.mp mem with mem | mem
        · exact fits_gather sound woven.braced x within st mem
        · exact fits_strokesBehind sound reached hold st mem
      · exact fits st mem
    rw [← lo] at ran ⊢
    obtain ⟨w, text, all⟩ := opens.run fair split dark free each ran
    exact ⟨a, c, b, w, split, rfl, text, all, opens.onward fair split dark free each⟩

end Children

def StopsBy (lo : Nat) (strokes : List Stroke) : Prop := ∀ st ∈ strokes, ∀ n ∈ st.stops, n ≤ lo

theorem Woven.step_before {q b : NodeId} {A C : List NodeId} (woven : doc.Woven source)
    (token : doc.Token p s) (within : doc.Reaches q) (below : doc.Below b p)
    (split : doc.children q = A ++ b :: C) :
    ∃ L R, (∀ v, doc.strokesOf q (A.map (fun c => (c, doc.gather doc.strokesOf c)) ++ (b, v) ::
        C.map fun c => (c, doc.gather doc.strokesOf c)) = L ++ v ++ R) ∧
      ∀ U, StopsBy s.lo U → StopsBy s.lo (L ++ U) := by
  have sound := woven.sound
  have held : ∀ y ∈ A ++ b :: C, doc.Holds q y := fun y hy => by
    unfold Holds
    rw [split]
    exact hy
  have hold := held b (by simp)
  obtain ⟨w, hw, front, -⟩ := sound.below_span (within.child hold) below token.span
  obtain ⟨u, hu, low, -⟩ := sound.parent_span within hold hw
  have ordered := (sound.each q within).ordered
  rw [split] at ordered
  have bound : ∀ y, doc.Bound source y (· ≤ s.lo) := fun y =>
    { lower := fun _ _ _ le high => Nat.le_trans le high
      remark := fun z slot r _ other remark place front => by
        obtain ⟨v, hv⟩ := Option.ne_none_iff_exists'.mp (woven.snug.owned z slot r remark)
        exact woven.snug.behind z v slot r p s other hv remark place token (front v hv) }
  obtain ⟨R, strokes⟩ := sound.strokesOf_around within split (by rw [hw]; exact nofun) hu
  refine ⟨_, R, strokes, fun U stops st mem n stop => ?_⟩
  rcases List.mem_append.mp mem with mem | mem
  · rcases List.mem_cons.mp mem with rfl | mem
    · rw [List.mem_singleton.mp stop]
      exact Nat.le_trans low front
    · obtain ⟨y, hy, mem⟩ := List.mem_flatMap.mp mem
      refine (bound y).stops_at sound woven.braced woven.snug within
        (held y (List.mem_append_left _ hy)) (fun v hv => ?_) st mem n stop
      exact Nat.le_trans
        ((List.pairwise_append.mp ordered).2.2 y hy b List.mem_cons_self v w hv hw) front
  · exact stops st mem n stop

theorem Woven.token_of_markup (woven : doc.Woven source) (reached : doc.Reaches p)
    (markup : (doc.kind p).hasMarkupChildren = true) (span : doc.span p = some s) :
    doc.Token p s := by
  refine ⟨reached, ?_, text?_of_markup markup, ?_, span⟩
  · rintro rfl
    rw [woven.sound.root_kind] at markup
    cases markup
  · intro empty
    rw [empty] at markup
    cases markup

theorem Woven.strokes_around {A B N C : List NodeId} (woven : doc.Woven source)
    (splice : doc.Splice doc' p A B N C) (reached : doc.Reaches p)
    (markup : (doc.kind p).hasMarkupChildren = true) (span : doc.span p = some s) (size : Nat) :
    ∃ U V, StopsBy s.lo U ∧
      doc.strokes size = U ++ .start s.lo (inserted (doc.node p).leading) ::
        ((A ++ B ++ C).flatMap (doc.strokesAt p) ++ V) ∧
      doc'.strokes size = U ++ .start s.lo (inserted (doc.node p).leading) ::
        (A.flatMap (doc.strokesAt p) ++ N.flatMap (doc'.strokesAt p) ++
          C.flatMap (doc.strokesAt p) ++ V) := by
  have sound := woven.sound
  have token := woven.token_of_markup reached markup span
  obtain ⟨U, V, old, new, stops⟩ := gather_path sound.linked (splice.linked' sound.linked)
    (motive := fun _ U => StopsBy s.lo U) nofun reached sound.root_lt
    (Nat.lt_of_lt_of_le sound.root_lt splice.grows)
    (fun q b A C within below split => woven.step_before token within below split)
    (fun j hj outside => splice.strokes_alike sound hj fun e => outside (e ▸ .refl)) splice.grows
  obtain ⟨here, here'⟩ := splice.strokes_here sound reached markup span
  refine ⟨U, .reach s.hi :: (V ++ [.reach size]), stops, ?_, ?_⟩
  · unfold strokes
    rw [old, here]
    simp only [List.append_assoc, List.cons_append, List.nil_append]
  · unfold strokes
    rw [new, here']
    simp only [List.append_assoc, List.cons_append, List.nil_append]

theorem Woven.strike_front {A : List NodeId} {U : List Stroke} {cs : List Comment} {n : Nat}
    {mid : Sheet} (woven : doc.Woven source) (reached : doc.Reaches p)
    (markup : (doc.kind p).hasMarkupChildren = true) (span : doc.span p = some s)
    (held : ∀ y ∈ A, doc.Holds p y) (abut : doc.Abut s.lo n (doc.inSource A)) (stops : StopsBy s.lo U)
    (fits : ∀ st ∈ U, st.Fits source)
    (ran : (U ++ .start s.lo cs :: A.flatMap (doc.strokesAt p)).foldlM
      (Press.of doc source).strike {} = .ok mid) :
    mid.pos = n ∧ ∃ above, mid.text = above ++ doc.tailText A.reverse := by
  have fair := Press.fair_of_sound woven.sound
  have zero : Cut source (Sheet.pos {}) := Cut.zero _
  rw [List.foldlM_append] at ran
  obtain ⟨first, front, rest⟩ := bind_eq_ok ran
  have low := Press.strikeAll_pos fair zero fits stops (Nat.zero_le s.lo) front
  rw [List.foldlM_cons] at rest
  obtain ⟨start, led, back⟩ := bind_eq_ok rest
  obtain ⟨flat, flushed, put⟩ := bind_eq_ok led
  have here : start.pos = s.lo := by
    rw [Press.leadSheet_pos put, Press.flushSheet_pos fair (Press.strikeAll_cut zero front)
      (woven.sound.fits reached span).lo flushed]
    exact Nat.max_eq_right low
  exact woven.strike_children reached markup held abut here back

theorem Woven.strike_back {G : List NodeId} {W : List Stroke} {n : Nat} {above : Text}
    {sheet : Sheet} (woven : doc.Woven source) (reached : doc.Reaches p)
    (markup : (doc.kind p).hasMarkupChildren = true) (held : ∀ g ∈ G, doc.Holds p g)
    (texts : ∀ g ∈ G, ∃ t, doc.text? g = some t ∧ '\n' ∉ t) (cut : Cut source n)
    (abut : doc.Abut n s.lo G) (hold : doc.Holds p x) (span : doc.span x = some s)
    (seen : ∀ t, doc.text? x = some t → allBlank t = false) (fits : ∀ st ∈ W, st.Fits source)
    (ran : (G.flatMap (doc.strokesAt p) ++ (doc.strokesAt p x ++ W)).foldlM
      (Press.of doc source).strike ⟨above, n⟩ = .ok sheet) :
    ∃ lead a c b w, slice? n s.lo source = some lead ∧ '\n' ∉ lead ∧ source = a ++ c :: b ∧
      bytes a = s.lo ∧ (∀ other, (G.flatMap (doc.strokesAt p)).foldlM (Press.of doc source).strike
        ⟨other, n⟩ = .ok ⟨other ++ lead, s.lo⟩) ∧
      (∀ other, (doc.strokesAt p x ++ W).foldlM (Press.of doc source).strike ⟨other, s.lo⟩ =
        .ok ⟨other ++ c :: w, sheet.pos⟩) ∧
      (Press.of doc source).Onward s.lo c (doc.strokesAt p x ++ W) := by
  obtain ⟨lead, slice, free, copied⟩ := woven.strike_texts reached held texts cut abut
  rw [List.foldlM_append, copied] at ran
  obtain ⟨a, c, b, w, split, lo, -, all, onward⟩ :=
    woven.strike_onward reached markup hold span seen fits ran
  exact ⟨lead, a, c, b, w, slice, free, split, lo, copied, all, onward⟩

theorem Noted.strokes_new {A C : List NodeId} {lead : Option Text} {body gap : Text}
    (noted : doc.Noted doc' p A C lead body gap) (linked : doc.Linked) :
    (noteIds doc.nodes.size lead).flatMap (doc'.strokesAt p) =
      (lead.toList ++ [['\x7b'], (noteOf body).render, ['\x7d'], gap]).map .put := by
  have linked' := noted.splice.linked' linked
  have note := strokesAt_note (p := p) linked' noted.hole noted.slot
  have behind := strokesAt_put (p := p) linked' noted.behind
  cases lead with
  | none =>
    have behind : doc'.strokesAt p (doc.nodes.size + 2) = [gap].map .put := behind
    rw [noteIds, List.flatMap_cons, List.flatMap_singleton, note, behind]
    rfl
  | some u =>
    have front := strokesAt_put (p := p) linked' (noted.front u rfl)
    have behind : doc'.strokesAt p (doc.nodes.size + 3) = [gap].map .put := behind
    rw [noteIds, List.flatMap_cons, List.flatMap_cons, List.flatMap_singleton, front, note, behind]
    rfl

theorem Noted.revisionsOf_eq {A C : List NodeId} {lead : Option Text} {body gap : Text}
    (noted : doc.Noted doc' p A C lead body gap) (sound : doc.Sound source)
    (reached : doc.Reaches p) : Press.revisionsOf doc' = Press.revisionsOf doc := by
  refine noted.splice.revisionsOf_eq sound reached nofun fun j new c hc => ?_
  obtain ⟨slot, mem⟩ := mem_allComments.mp hc
  rw [(noted.comments_new new slot mem).2]
  rfl

def noteRow (body : Text) : Text := ['\x7b'] ++ (noteOf body).render ++ ['\x7d']

/-- What two pages show in front of a child that starts at the offset `lo`: a text that the second one
has between the children `A` of an element, which end at the offset `n`, and the texts `G` on the line
of the child. -/
structure Inset (source : Text) (doc : Document) (p : NodeId) (A G : List NodeId) (n lo : Nat)
    (more before after : Text) : Prop where
  seam : ∃ u, doc.span p = some u ∧ doc.Abut u.lo n (doc.inSource A)
  near : doc.Abut n lo G
  spelled : ∃ above lead, slice? n lo source = some lead ∧ '\n' ∉ lead ∧
    before = above ++ doc.tailText A.reverse ++ lead ∧
    after = above ++ doc.tailText A.reverse ++ more ++ lead

theorem Noted.print_between {A G R : List NodeId} {lead : Option Text} {body gap : Text}
    (noted : doc.Noted doc' p A (G ++ x :: R) lead body gap) (woven : doc.Woven source)
    (sound' : doc'.Sound source) (braced' : doc'.Braced source)
    (reached : doc.Reaches p) (markup : (doc.kind p).hasMarkupChildren = true)
    (texts : ∀ g ∈ G, doc.span g ≠ none ∧ ∃ t, doc.text? g = some t ∧ '\n' ∉ t)
    (span : doc.span x = some s) (seen : ∀ t, doc.text? x = some t → allBlank t = false) :
    ∃ n before after rest a c b, doc.PartsAt source s.lo before (c :: rest) ∧
      doc'.PartsAt source s.lo after (c :: rest) ∧ source = a ++ c :: b ∧ bytes a = s.lo ∧
      Inset source doc p A G n s.lo (lead.getD [] ++ noteRow body ++ gap) before after := by
  have sound := woven.sound
  obtain ⟨u, above⟩ := Option.ne_none_iff_exists'.mp (sound.span_of_markup reached markup)
  have split : doc.children p = A ++ (G ++ x :: R) := by
    rw [noted.splice.split, List.append_nil]
  have held : ∀ y ∈ A ++ (G ++ x :: R), doc.Holds p y := fun y hy => by
    unfold Holds
    rw [split]
    exact hy
  -- the spans of the children meet at the seam
  have abut := woven.seamless.abut p u reached markup above
  rw [split, inSource_append] at abut
  obtain ⟨n, front, back⟩ := abut_append.mp abut
  rw [inSource_append, inSource_of_spanned fun g hg => (texts g hg).1] at back
  obtain ⟨m, between, here⟩ := abut_append.mp back
  have next : doc.inSource (x :: R) = x :: doc.inSource R :=
    List.filter_cons_of_pos (by rw [span]; rfl)
  rw [next] at here
  obtain ⟨v, hv, low, -⟩ := here
  cases span.symm.trans hv
  subst low
  -- the strokes of both
  obtain ⟨U, V, stops, old, new⟩ := woven.strokes_around noted.splice reached markup above source.bytes
  obtain ⟨sheet, ran, -⟩ := sound.strike_ok woven.braced
  have fits := sound.fits_strokes woven.braced
  have regroup : doc.strokes source.bytes =
      (U ++ .start u.lo (inserted (doc.node p).leading) :: A.flatMap (doc.strokesAt p)) ++
        (G.flatMap (doc.strokesAt p) ++
          (doc.strokesAt p x ++ (R.flatMap (doc.strokesAt p) ++ V))) := by
    rw [old]
    simp only [List.append_nil, List.flatMap_append, List.flatMap_cons, List.append_assoc,
      List.cons_append]
  have regroup' : doc'.strokes source.bytes =
      (U ++ .start u.lo (inserted (doc.node p).leading) :: A.flatMap (doc.strokesAt p)) ++
        ((lead.toList ++ [['\x7b'], (noteOf body).render, ['\x7d'], gap]).map .put ++
          (G.flatMap (doc.strokesAt p) ++
            (doc.strokesAt p x ++ (R.flatMap (doc.strokesAt p) ++ V)))) := by
    rw [new, noted.strokes_new sound.linked]
    simp only [List.flatMap_append, List.flatMap_cons, List.append_assoc, List.cons_append]
  rw [regroup] at ran fits
  rw [List.foldlM_append] at ran
  obtain ⟨mid, first, rest⟩ := bind_eq_ok ran
  obtain ⟨pos, top, text⟩ := woven.strike_front reached markup above
    (fun y hy => held y (List.mem_append_left _ hy)) front stops
    (fun st mem => fits st (List.mem_append_left _ (List.mem_append_left _ mem))) first
  have cut : Cut source n := pos ▸ Press.strikeAll_cut (Cut.zero source) first
  have place : mid = ⟨mid.text, n⟩ := by rw [← pos]
  rw [place] at rest
  obtain ⟨ahead, a, c, b, w, slice, free, src, lo, copied, all, onward⟩ := woven.strike_back reached
    markup (fun g hg => held g (by simp [hg])) (fun g hg => (texts g hg).2) cut between
    (held x (by simp)) span seen (fun st mem => fits st (by simp only [List.mem_append] at mem ⊢; tauto))
    rest
  -- the strokes up to the child and from there on, without the comment and with it
  have revisions := noted.revisionsOf_eq sound reached
  have same : (Press.of _ source).strike = _ := Press.strike_congr noted.splice.eol revisions
  refine ⟨n, top ++ doc.tailText A.reverse ++ ahead,
    top ++ doc.tailText A.reverse ++ (lead.getD [] ++ noteRow body ++ gap) ++ ahead, w, a, c, b, ?_, ?_,
    src, lo, ⟨u, above, front⟩, between, top, ahead, slice, free, rfl, rfl⟩
  · refine partsAt_of_strokes sound woven.braced (U := (U ++ .start u.lo (inserted
      (doc.node p).leading) :: A.flatMap (doc.strokesAt p)) ++ G.flatMap (doc.strokesAt p))
      (by rw [regroup]; simp only [List.append_assoc]) ?_ (all _) onward
    rw [List.foldlM_append, first, place, text]
    exact copied _
  · refine partsAt_of_strokes sound' braced' (U := (U ++ .start u.lo (inserted
      (doc.node p).leading) :: A.flatMap (doc.strokesAt p)) ++ ((lead.toList ++ [['\x7b'],
        (noteOf body).render, ['\x7d'], gap]).map .put ++ G.flatMap (doc.strokesAt p)))
      (by rw [regroup']; simp only [List.append_assoc]) ?_ (same.symm ▸ all _) ?_
    · rw [same, List.foldlM_append, first]
      show List.foldlM _ mid _ = _
      rw [List.foldlM_append, Press.strike_puts, place, text]
      have put : (lead.toList ++ [['\x7b'], (noteOf body).render, ['\x7d'], gap]).flatten =
          lead.getD [] ++ noteRow body ++ gap := by
        cases lead <;> simp [noteRow]
      show List.foldlM _ (Sheet.mk (top ++ doc.tailText A.reverse ++ _) n) _ = _
      rw [copied, put]
    · intro page page' pos ran
      rw [Press.perform_congr noted.splice.eol revisions] at ran
      exact onward page page' pos ran

end Document
end Quell
