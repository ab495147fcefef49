import Quell.Proofs.Print.Parted

/-!
Above the line of a target.

A new leading comment changes one stroke, that of the start of its node. Where spans hold their
tokens, printing has come from an earlier line when it gets there, and goes on with the first
character of the node. So a directive in front of a target stands on the line above it, and a target
that starts its line gets exactly one line more above it: `annotateOne_above`.
-/
namespace Quell

open Text Relation

/-- Only spaces and tabs stand between the start of the line and the offset. -/
def OnlyBlanks (source : Text) (n : Nat) : Prop :=
  ∃ a b, source = a ++ b ∧ bytes a = n ∧ Run (lastLine a)

structure Passed (source : Text) (lo n : Nat) : Prop where
  le : n ≤ lo
  apart : OnlyBlanks source lo → LineApart source n lo

namespace Passed

variable {source : Text} {lo m n : Nat}

theorem lower (h : Passed source lo n) (cut : Cut source m) (le : m ≤ n) : Passed source lo m :=
  ⟨Nat.le_trans le h.le, fun blanks => (h.apart blanks).lower cut le⟩

theorem of_apart (h : LineApart source n lo) : Passed source lo n := ⟨h.le, fun _ => h⟩

theorem of_ink (ink : InkBefore source n) (le : n ≤ lo) : Passed source lo n := by
  refine ⟨le, fun blanks => ?_⟩
  obtain ⟨a, b, split, rfl, run⟩ := blanks
  obtain ⟨x, y, split', rfl, seen⟩ := ink
  obtain ⟨m, rfl, rfl⟩ := exists_middle (split'.symm.trans split) le
  refine ⟨m, slice?_eq_some.mpr ⟨x, b, split, rfl, (bytes_append x m).symm⟩, ?_⟩
  -- without a line feed between, the ink would stand among the blanks
  by_contra free
  rw [lastLine_append_free free] at run
  have blank : Run (lastLine x) := fun c hc => run c (List.mem_append_left m hc)
  rw [blank.allBlank] at seen
  cases seen

end Passed

theorem Span.Fits.apart {source : Text} {s t : Span} (hs : s.Fits source) (ht : t.Fits source)
    (le : s.lo ≤ t.lo) (ne : s.startLine ≠ t.startLine) : LineApart source s.lo t.lo := by
  obtain ⟨m, slice⟩ := hs.lo.slice ht.lo le
  refine ⟨m, slice, ?_⟩
  by_contra free
  have lines := lineOf_slice slice
  unfold breaks at lines
  rw [List.count_eq_zero.mpr free, Nat.add_zero, ← hs.startLine, ← ht.startLine] at lines
  exact ne lines.symm

def Ahead (source : Text) (lo : Nat) (strokes : List Stroke) : Prop :=
  Press.Led strokes ∧ ∀ st ∈ strokes, ∀ n ∈ st.stops, Passed source lo n

/-- What stands in front of a target before and after: the row ends a line, and the next one comes as
far as the target. If that starts its line in the source, then the row has a line of its own, and
nothing else changes. -/
def RowAbove (source : Text) (lo : Nat) (eol row before after : Text) : Prop :=
  ∃ front indent, Run indent ∧ after = front ++ row ++ eol ++ indent ∧
    Press.MakesRoom eol indent before front ∧
    (OnlyBlanks source lo → front = before ∧ ∃ above, LineStart above ∧ front = above ++ indent)

theorem takeWhile_run {t w : Text} {c : Char} (run : Run t) (seen : Page.isSpaceOrTab c = false) :
    (t ++ c :: w).takeWhile Page.isSpaceOrTab = t := by
  rw [List.takeWhile_append_of_pos run, List.takeWhile_cons_of_neg (by simp [seen]),
    List.append_nil]

theorem run_takeWhile (t : Text) : Run (t.takeWhile Page.isSpaceOrTab) :=
  fun _ => List.mem_takeWhile_imp

namespace Press

variable {press : Press} {a b : Text} {c : Char} {U T : List Stroke} {cs : List Comment}

theorem flush_ahead {mid : Sheet} (fair : press.Fair) (split : press.source = a ++ c :: b)
    (ahead : Ahead press.source (bytes a) U) (fits : ∀ st ∈ U, st.Fits press.source)
    (ends : ∀ r ∈ press.revisions, r.hi ≤ bytes a → Passed press.source (bytes a) r.hi)
    (ran : U.foldlM press.strike {} = .ok mid) :
    ∃ t, press.flushSheet mid (bytes a) = .ok ⟨t, bytes a⟩ ∧
      (OnlyBlanks press.source (bytes a) → lastLine t = lastLine a) := by
  have start : Cut press.source mid.pos := strikeAll_cut (Cut.zero _) ran
  have cut : Cut press.source (bytes a) := ⟨a, c :: b, split, rfl⟩
  have early := strikeAll_led fair ahead.1 fits ahead.2 ran
  have le : mid.pos ≤ bytes a := by
    rcases early with rfl | passed
    · exact Nat.zero_le _
    · exact passed.le
  obtain ⟨t, flushed⟩ := flushSheet_ok fair start cut
  rw [Nat.max_eq_right le] at flushed
  refine ⟨_, flushed, fun blanks => ?_⟩
  exact flush_lastLine fair split start (early.imp_right (·.apart blanks))
    (fun r hr le => (ends r hr le).apart blanks) flushed

theorem run_more {k : Comment} {s : Sheet} (fair : press.Fair) (split : press.source = a ++ c :: b)
    (seen : isBlank c = false) (ahead : Ahead press.source (bytes a) U)
    (opens : Opens (bytes a) T) (fits : ∀ st ∈ U ++ T, st.Fits press.source)
    (free : ∀ r ∈ press.revisions, r.lo ≠ bytes a)
    (ends : ∀ r ∈ press.revisions, r.hi ≤ bytes a → Passed press.source (bytes a) r.hi)
    (ran : (U ++ .start (bytes a) cs :: T).foldlM press.strike {} = .ok s) :
    ∃ before after w, (U ++ [Stroke.start (bytes a) cs]).foldlM press.strike {} = .ok ⟨before, bytes a⟩ ∧
      T.foldlM press.strike ⟨before, bytes a⟩ = .ok ⟨before ++ c :: w, s.pos⟩ ∧
      (U ++ [Stroke.start (bytes a) (cs ++ [k])]).foldlM press.strike {} = .ok ⟨after, bytes a⟩ ∧
      T.foldlM press.strike ⟨after, bytes a⟩ = .ok ⟨after ++ c :: w, s.pos⟩ ∧
      RowAbove press.source (bytes a) press.eol k.render before after := by
  have dark : Page.isSpaceOrTab c = false := by
    by_contra blank
    rw [isBlank_of_isSpaceOrTab (Bool.not_eq_false _ ▸ blank)] at seen
    cases seen
  rw [List.foldlM_append] at ran
  obtain ⟨mid, front, rest⟩ := bind_eq_ok ran
  obtain ⟨t, flushed, line⟩ := flush_ahead fair split ahead
    (fun st mem => fits st (List.mem_append_left T mem)) ends front
  have lead : ∀ cs, press.strike mid (.start (bytes a) cs) =
      press.leadSheet ⟨t, bytes a⟩ (bytes a) cs := by
    intro cs
    rw [strike, flushed]
    rfl
  obtain ⟨before, start, led, more, room, first⟩ := @lead_more press ⟨t, bytes a⟩ (bytes a) _ _
    (lineIndent_eq fair split) (firstOnLine_eq split) cs k
  have arrives : ∀ {cs top}, press.leadSheet ⟨t, bytes a⟩ (bytes a) cs = .ok top →
      (U ++ [Stroke.start (bytes a) cs]).foldlM press.strike {} = .ok top := by
    intro cs top led
    rw [List.foldlM_append, front]
    show List.foldlM press.strike mid [Stroke.start (bytes a) cs] = _
    rw [List.foldlM_cons, lead, led]
    rfl
  rw [List.foldlM_cons, lead, led] at rest
  obtain ⟨w, text, others⟩ := opens.run fair split dark free
    (fun st mem => fits st (List.mem_append_right U mem)) rest
  refine ⟨before, _, w, arrives led, others _, arrives more, others _, start, _, run_takeWhile _, rfl,
    room, fun blanks => ?_⟩
  obtain ⟨a', b', split', same, run⟩ := id blanks
  cases (append_inj_bytes (split'.symm.trans split) same).1
  obtain ⟨rfl, shape⟩ := first run.allBlank
  rw [takeWhile_run run dark] at shape ⊢
  obtain ⟨z, here, -, fresh⟩ := lastLine_spec t
  rw [line blanks] at here
  obtain ⟨above, eq, fresh'⟩ := rows_indent cs fresh
  rw [← here, ← shape] at eq
  exact ⟨rfl, above, fresh', eq⟩

end Press

namespace Document

variable {source : Text} {doc doc' : Document} {id p : NodeId} {line : Nat} {s : Span}

structure Aimed (source : Text) (doc : Document) (line : Nat) (id p : NodeId) (s : Span) : Prop where
  sound : doc.Sound source
  snug : doc.Snug source
  anchored : doc.Anchored
  found : ∃ rest, doc.startingOn line = id :: rest
  hold : doc.Holds p id
  plain : (doc.kind p).hasMarkupChildren = false
  span : doc.span id = some s

structure Leads (doc doc' : Document) (id : NodeId) (cs : List Comment) : Prop where
  eol : doc'.eol = doc.eol
  size : doc'.nodes.size = doc.nodes.size
  tree : ∀ j, doc'.kind j = doc.kind j ∧ doc'.span j = doc.span j ∧
    doc'.children j = doc.children j ∧ doc'.parent j = doc.parent j
  here : (doc'.node id).leading = cs
  rest : ∀ j slot, ¬ (j = id ∧ slot = .leading) →
    (doc'.node j).comments slot = (doc.node j).comments slot

theorem leads_setComments (valid : id < doc.nodes.size) (cs : List Comment) :
    doc.Leads (doc.update id (·.setComments .leading cs)) id cs where
  eol := eol_update ..
  size := size_update ..
  tree := tree_setComments
  here := by
    have here := @comments_update doc id .leading cs valid id .leading
    rw [if_pos ⟨rfl, rfl⟩] at here
    exact here
  rest := by
    intro j slot other
    rw [comments_update valid, if_neg other]

namespace Leads

variable {cs : List Comment} (leads : doc.Leads doc' id cs)

include leads

theorem linked' (linked : doc.Linked) : doc'.Linked :=
  linked.of_same (fun j => (leads.tree j).2.2.1) fun j => (leads.tree j).2.2.2

theorem trailing_eq (j : NodeId) : (doc'.node j).trailing = (doc.node j).trailing :=
  leads.rest j .trailing nofun

theorem alikeAt {j : NodeId} (other : j ≠ id) : AlikeAt doc doc' doc.strokesOf doc'.strokesOf j := by
  obtain ⟨kind, span, children, -⟩ := leads.tree j
  refine ⟨children, fun kids _ => strokesOf_congr kind span (fun slot => ?_) kids fun k _ => ?_⟩
  · exact leads.rest j slot fun h => other h.1
  · exact ⟨(leads.tree k.1).2.1, leads.trailing_eq k.1⟩

theorem gather_here (sound : doc.Sound source) (reached : doc.Reaches id)
    (span : doc.span id = some s) : doc'.gather doc'.strokesOf id =
      .start s.lo (inserted cs) :: (doc.strokesInside id
        ((doc.children id).map fun c => (c, doc.gather doc.strokesOf c)) ++ [.reach s.hi]) := by
  have linked := sound.linked
  have linked' := leads.linked' linked
  have kids : ∀ c ∈ doc.children id,
      doc'.gather doc'.strokesOf c = doc.gather doc.strokesOf c := by
    intro c hold
    have lt := linked.child_lt hold
    refine gather_congr linked linked' lt (by rwa [leads.size]) fun j below => leads.alikeAt ?_
    rintro rfl
    exact linked.not_below_of_holds hold below
  have same : ((doc.children id).map fun c => (c, doc'.gather doc'.strokesOf c)) =
      (doc.children id).map fun c => (c, doc.gather doc.strokesOf c) :=
    List.map_congr_left fun c hc => by rw [kids c hc]
  obtain ⟨kind, span', children, -⟩ := leads.tree id
  have valid : id < doc'.nodes.size := by
    rw [leads.size]
    exact sound.reaches_lt reached
  have inside := strokesInside_congr kind span' (leads.rest id .inner nofun)
    ((doc.children id).map fun c => (c, doc.gather doc.strokesOf c))
    fun k _ => ⟨(leads.tree k.1).2.1, leads.trailing_eq k.1⟩
  rw [gather_eq linked' valid, children, same, strokesOf_spanned (span'.trans span), leads.here,
    inside]

theorem revisionsOf_eq (sound : doc.Sound source)
    (same : cs.filter (·.span.isSome) = (doc.node id).leading.filter (·.span.isSome)) :
    Press.revisionsOf doc' = Press.revisionsOf doc := by
  have preorder : doc'.preorder = doc.preorder := by
    have root_lt : root < doc'.nodes.size := by
      rw [leads.size]
      exact sound.root_lt
    rw [preorder_eq, preorder_eq]
    exact gather_congr sound.linked (leads.linked' sound.linked) sound.root_lt root_lt
      fun j _ => ⟨(leads.tree j).2.2.1, fun _ _ => rfl⟩
  apply revisionsOf_congr
  rw [preorder, List.filter_flatMap, List.filter_flatMap]
  congr 1
  funext j
  have leading : (doc'.node j).leading.filter (·.span.isSome) =
      (doc.node j).leading.filter (·.span.isSome) := by
    by_cases here : j = id
    · rw [here, leads.here, same]
    · have kept : (doc'.node j).leading = (doc.node j).leading :=
        leads.rest j .leading fun h => here h.1
      rw [kept]
  have inner : (doc'.node j).inner = (doc.node j).inner := leads.rest j .inner nofun
  unfold Node.allComments
  rw [List.filter_append, List.filter_append, List.filter_append, List.filter_append, leading,
    leads.trailing_eq, inner]

end Leads

namespace Aimed

variable (aimed : doc.Aimed source line id p s)

include aimed

theorem reached_parent : doc.Reaches p := by
  obtain ⟨rest, found⟩ := aimed.found
  obtain ⟨-, -, q, link, within, -⟩ := aimed.sound.first_spec found
  cases ((aimed.sound.linked.agree p id).mp aimed.hold).symm.trans link
  exact within

theorem solid_child {c : NodeId} (hold : doc.Holds p c) : doc.text? c = none := by
  by_contra text
  obtain ⟨value, text⟩ := Option.ne_none_iff_exists'.mp text
  have markup := (aimed.sound.each p aimed.reached_parent).texts c value hold text
  rw [aimed.plain] at markup
  cases markup

theorem token : doc.Token id s := by
  obtain ⟨rest, found⟩ := aimed.found
  obtain ⟨reached, starts, q, link, within, outer⟩ := aimed.sound.first_spec found
  cases ((aimed.sound.linked.agree p id).mp aimed.hold).symm.trans link
  refine ⟨reached, starts.1, aimed.solid_child aimed.hold, fun empty => ?_, aimed.span⟩
  obtain ⟨u, hu, -⟩ := aimed.sound.parent_span within aimed.hold aimed.span
  obtain ⟨hole, -, -, line⟩ := aimed.snug.slots p id u s within aimed.hold empty hu aimed.span
  rcases outer with rfl | ⟨t, ht, ne⟩
  · rw [aimed.sound.root_kind] at hole
    cases hole
  · obtain ⟨v, hv, startLine⟩ := starts.2.2
    cases hu.symm.trans ht
    cases hv.symm.trans aimed.span
    exact ne (line.trans startLine)

/-- Whatever is above the target starts on an earlier line, but for the root. -/
theorem above {q b : NodeId} (reached : doc.Reaches q) (proper : q ≠ root) (hold : doc.Holds q b)
    (below : doc.Below b id) {u : Span} (span : doc.span q = some u) : LineApart source u.lo s.lo := by
  have sound := aimed.sound
  have linked := sound.linked
  obtain ⟨rest, found⟩ := aimed.found
  obtain ⟨-, starts, r, link, within, outer⟩ := sound.first_spec found
  cases ((linked.agree p id).mp aimed.hold).symm.trans link
  -- the path from the node to the target leads through the parent of the target
  have through : doc.Below q p := by
    rcases ReflTransGen.cases_tail below with rfl | ⟨r, front, last⟩
    · rw [linked.parent_unique aimed.hold hold]
      exact .refl
    · rw [linked.parent_unique aimed.hold last]
      exact ReflTransGen.head hold front
  rcases outer with rfl | ⟨t, ht, ne⟩
  · rcases ReflTransGen.cases_tail through with rfl | ⟨r, -, last⟩
    · exact absurd rfl proper
    · exact absurd rfl (sound.ne_root_of_holds last)
  · obtain ⟨v, hv, startLine⟩ := starts.2.2
    cases aimed.span.symm.trans hv
    rw [← startLine] at ne
    have fits := sound.fits within ht
    obtain ⟨lo, -⟩ := (sound.each p within).nested t id s ht aimed.hold aimed.span
    have apart := fits.apart (sound.fits aimed.token.reached aimed.span) lo ne
    obtain ⟨w, hw, low, -⟩ := sound.below_span reached through ht
    cases span.symm.trans hw
    exact apart.lower (sound.fits reached span).lo low

theorem remark_passed {y : NodeId} (proper : y ≠ root) {slot : Slot} {r : Span}
    (remark : doc.RemarkIn y slot r) (place : slot ≠ .leading)
    (front : ∀ u, doc.span y = some u → u.hi ≤ s.lo) : Passed source s.lo r.hi := by
  have snug := aimed.snug
  obtain ⟨u, hu⟩ := Option.ne_none_iff_exists'.mp (snug.owned y slot r remark)
  have le := snug.behind y u slot r id s proper hu remark place aimed.token (front u hu)
  exact .of_ink (snug.remarkEnds y slot r remark) le

theorem bound (x : NodeId) : doc.Bound source x (Passed source s.lo) where
  lower := fun _ _ cut le passed => passed.lower cut le
  remark := fun _ _ _ _ proper remark place front =>
    aimed.remark_passed proper remark place fun u hu => (front u hu).le

theorem spanned_of_below {b : NodeId} (reached : doc.Reaches b) (below : doc.Below b id) :
    ∃ w, doc.span b = some w := by
  obtain ⟨w, hw, -⟩ := aimed.sound.below_span reached below aimed.span
  exact ⟨w, hw⟩

theorem sibling_passed {q b x : NodeId} {A C : List NodeId} (reached : doc.Reaches q)
    (split : doc.children q = A ++ b :: C) (below : doc.Below b id) (mem : x ∈ A) {u : Span}
    (span : doc.span x = some u) : Passed source s.lo u.hi := by
  have sound := aimed.sound
  have hold : doc.Holds q b := by
    unfold Holds
    rw [split]
    simp
  have held : doc.Holds q x := by
    unfold Holds
    rw [split]
    exact List.mem_append_left _ mem
  obtain ⟨w, hw⟩ := aimed.spanned_of_below (reached.child hold) below
  have ordered := (sound.each q reached).ordered
  rw [split] at ordered
  have le : u.hi ≤ w.lo :=
    (List.pairwise_append.mp ordered).2.2 x mem b List.mem_cons_self u w span hw
  rcases ReflTransGen.cases_head below with rfl | ⟨c, step, rest⟩
  · cases hw.symm.trans aimed.span
    cases sound.linked.parent_unique hold aimed.hold
    have full : doc.kind x ≠ .emptyHole := by
      intro empty
      obtain ⟨v, hv, -⟩ := sound.parent_span reached held span
      have only := (aimed.snug.slots p x v u reached held empty hv span).2.1
      have length := congrArg List.length (only.symm.trans split)
      simp only [List.length_append, List.length_cons, List.length_nil] at length
      have := List.length_pos_of_mem mem
      omega
    have token : doc.Token x u :=
      ⟨reached.child held, aimed.sound.ne_root_of_holds held, aimed.solid_child held, full, span⟩
    exact .of_ink (aimed.snug.ends x u token) le
  · have apart := aimed.above (reached.child hold) (aimed.sound.ne_root_of_holds hold) step rest hw
    exact .of_apart (apart.lower (sound.fits (reached.child held) span).hi le)

theorem siblings_passed {q b : NodeId} {A C : List NodeId} (braced : doc.Braced source)
    (reached : doc.Reaches q) (split : doc.children q = A ++ b :: C) (below : doc.Below b id) :
    ∀ st ∈ A.flatMap (doc.strokesAt q), ∀ n ∈ st.stops, Passed source s.lo n := by
  intro st mem
  obtain ⟨x, hx, mem⟩ := List.mem_flatMap.mp mem
  have held : doc.Holds q x := by
    unfold Holds
    rw [split]
    exact List.mem_append_left _ hx
  exact (aimed.bound x).stops_at aimed.sound braced aimed.snug reached held
    (fun v hv => aimed.sibling_passed reached split below hx hv) st mem

theorem led_children {A C : List NodeId} {b : NodeId} (split : doc.children root = A ++ b :: C)
    {U : List Stroke} (led : Press.Led U) : Press.Led (A.flatMap (doc.strokesAt root) ++ U) := by
  cases A with
  | nil => exact led
  | cons x A =>
    have held : doc.Holds root x := by
      unfold Holds
      rw [split]
      exact List.mem_cons_self
    have reached : doc.Reaches x := Reaches.child .refl held
    -- no child of a program lacks a span
    have spanned : doc.span x ≠ none := by
      intro spanless
      have kind := aimed.sound.root_kind
      rcases (aimed.sound.each root .refl).ghosts x held spanless with h | ⟨h, -⟩ | ⟨h, -⟩ <;>
        rw [kind] at h <;> cases h
    obtain ⟨u, hu⟩ := Option.ne_none_iff_exists'.mp spanned
    unfold strokesAt
    rw [List.flatMap_cons, aimed.sound.gather_start reached hu]
    exact trivial

def Before (source : Text) (lo : Nat) (q : NodeId) (U : List Stroke) : Prop :=
  if q = root then ∃ U', U = .start 0 [] :: U' ∧ Ahead source lo U' else Ahead source lo U

theorem before_step {q b : NodeId} {A C : List NodeId} (braced : doc.Braced source)
    (reached : doc.Reaches q) (split : doc.children q = A ++ b :: C) (below : doc.Below b id) :
    ∃ L R, (∀ v, doc.strokesOf q (A.map (fun c => (c, doc.gather doc.strokesOf c)) ++ (b, v) ::
        C.map fun c => (c, doc.gather doc.strokesOf c)) = L ++ v ++ R) ∧
      ∀ U, Before source s.lo b U → Before source s.lo q (L ++ U) := by
  have hold : doc.Holds q b := by
    unfold Holds
    rw [split]
    simp
  obtain ⟨u, hu⟩ := aimed.spanned_of_below reached (ReflTransGen.head hold below)
  obtain ⟨w, hw⟩ := aimed.spanned_of_below (reached.child hold) below
  have passed := aimed.siblings_passed braced reached split below
  obtain ⟨R, strokes⟩ := aimed.sound.strokesOf_around reached split (by rw [hw]; exact nofun) hu
  refine ⟨_, R, strokes, fun U before => ?_⟩
  unfold Before at before ⊢
  rw [if_neg (aimed.sound.ne_root_of_holds hold)] at before
  obtain ⟨led, rest⟩ := before
  have all : ∀ st ∈ A.flatMap (doc.strokesAt q) ++ U, ∀ n ∈ st.stops, Passed source s.lo n := by
    intro st mem
    rcases List.mem_append.mp mem with mem | mem
    · exact passed st mem
    · exact rest st mem
  split_ifs with top
  · cases top
    obtain ⟨v, hv, zero⟩ := aimed.snug.top
    cases hu.symm.trans hv
    rw [zero, aimed.anchored.top]
    exact ⟨_, rfl, aimed.led_children split led, all⟩
  · refine ⟨trivial, fun st mem n stop => ?_⟩
    rw [List.cons_append] at mem
    rcases List.mem_cons.mp mem with rfl | mem
    · rw [List.mem_singleton.mp stop]
      exact .of_apart (aimed.above reached top hold below hu)
    · exact all st mem n stop

theorem strokes_around {cs : List Comment} (braced : doc.Braced source) (leads : doc.Leads doc' id cs)
    (size : Nat) :
    ∃ U T, Ahead source s.lo U ∧ Press.Opens s.lo T ∧
      doc.strokes size = .start 0 [] :: (U ++ .start s.lo (inserted (doc.node id).leading) :: T) ∧
      doc'.strokes size = .start 0 [] :: (U ++ .start s.lo (inserted cs) :: T) := by
  have sound := aimed.sound
  have token := aimed.token
  have root_lt : root < doc'.nodes.size := by
    rw [leads.size]
    exact sound.root_lt
  have nil : Before source s.lo id [] := by
    unfold Before
    rw [if_neg token.proper]
    exact ⟨trivial, nofun⟩
  obtain ⟨U, V, old, new, before⟩ := gather_path sound.linked (leads.linked' sound.linked) nil
    token.reached sound.root_lt root_lt
    (fun q b A C reached below split => aimed.before_step braced reached split below)
    (fun j _ outside => leads.alikeAt fun here => outside (here ▸ .refl))
    (Nat.le_of_eq leads.size.symm)
  obtain ⟨U', rfl, ahead⟩ := before
  rw [sound.gather_start token.reached aimed.span] at old
  rw [leads.gather_here sound token.reached aimed.span] at new
  have opens := sound.opens aimed.snug aimed.anchored id token (V ++ [.reach size])
  refine ⟨U', _, ahead, opens, ?_, ?_⟩
  · unfold strokes
    rw [old]
    simp
  · unfold strokes
    rw [new]
    simp

theorem revision_passed {r : Revision} (mem : r ∈ (Press.of doc source).revisions) :
    r.lo ≠ s.lo ∧ (r.hi ≤ s.lo → Passed source s.lo r.hi) := by
  have fair := Press.fair_of_sound aimed.sound
  obtain ⟨-, -, -, j, reached, k, hk, -, -, u, span, lo, hi⟩ := fair.each r mem
  obtain ⟨slot, hk⟩ := mem_allComments.mp hk
  have remark : doc.RemarkIn j slot u := ⟨reached, k, hk, span⟩
  rw [← lo, ← hi]
  exact ⟨aimed.snug.distinct id s j slot u aimed.token remark,
    .of_ink (aimed.snug.remarkEnds j slot u remark)⟩

theorem print_more {k : Comment} (braced : doc.Braced source) (fresh : k.span = none)
    (sound' : (doc.appendComment id .leading k).Sound source)
    (braced' : (doc.appendComment id .leading k).Braced source) :
    ∃ before after rest a c b, doc.PartsAt source s.lo before (c :: rest) ∧
      (doc.appendComment id .leading k).PartsAt source s.lo after (c :: rest) ∧
      source = a ++ c :: b ∧ bytes a = s.lo ∧
      RowAbove source s.lo doc.eol.text k.render before after := by
  have sound := aimed.sound
  have token := aimed.token
  have fair := Press.fair_of_sound sound
  obtain ⟨a, c, b, split, lo, seen⟩ := aimed.snug.starts id s token
  have dark : Page.isSpaceOrTab c = false := by
    by_contra blank
    rw [isBlank_of_isSpaceOrTab (Bool.not_eq_false _ ▸ blank)] at seen
    cases seen
  have valid := sound.reaches_lt token.reached
  have leads : doc.Leads (doc.appendComment id .leading k) id ((doc.node id).leading ++ [k]) := by
    rw [appendComment_eq]
    exact leads_setComments valid _
  have added : inserted ((doc.node id).leading ++ [k]) = inserted (doc.node id).leading ++ [k] := by
    simp [inserted, Comment.isInserted, fresh]
  have revisions := leads.revisionsOf_eq sound (by simp [fresh])
  have fair' := Press.fair_of_sound sound'
  obtain ⟨U, T, ahead, opens, old, new⟩ := aimed.strokes_around braced leads source.bytes
  obtain ⟨sheet, ran, -⟩ := sound.strike_ok braced
  have fits := sound.fits_strokes braced
  rw [old] at ran fits
  rw [← lo] at ahead opens ran fits old new ⊢
  have inside : ∀ st ∈ U ++ T, st.Fits source := by
    intro st mem
    refine fits st (List.mem_cons_of_mem _ ?_)
    rcases List.mem_append.mp mem with mem | mem
    · exact List.mem_append_left _ mem
    · exact List.mem_append_right _ (List.mem_cons_of_mem _ mem)
  have free := fun r mem => lo ▸ (aimed.revision_passed (r := r) mem).1
  have begin : ∀ strokes, (Stroke.start 0 [] :: strokes).foldlM (Press.of doc source).strike {} =
      strokes.foldlM (Press.of doc source).strike {} := by
    intro strokes
    rw [List.foldlM_cons, Press.strike_start, Press.flushSheet_stay (Nat.le_refl 0)]
    rfl
  rw [begin] at ran
  obtain ⟨before, after, w, above, onward, above', onward', row⟩ := Press.run_more fair split seen
    ahead opens inside free (fun r mem => lo ▸ (aimed.revision_passed mem).2) ran
  have behind : ∀ st ∈ T, st.Fits source := fun st mem => inside st (List.mem_append_right U mem)
  refine ⟨before, after, w, a, c, b, ?_, ?_, split, rfl, row⟩
  · refine partsAt_of_strokes (U := .start 0 [] :: (U ++ [.start (bytes a) _])) sound braced ?_
      ((begin _).trans above) onward (opens.onward fair split dark free behind)
    rw [old]
    simp
  · have same : (Press.of _ source).strike = _ := Press.strike_congr leads.eol revisions
    refine partsAt_of_strokes (U := .start 0 [] :: (U ++ [.start (bytes a) _])) (W := T) sound' braced'
      ?_ (same.symm ▸ (begin _).trans above') (same.symm ▸ onward') ?_
    · rw [new, added]
      simp
    · have kept : (Press.of (doc.appendComment id .leading k) source).revisions =
          (Press.of doc source).revisions := revisions
      exact opens.onward fair' split dark (kept ▸ free) behind

end Aimed

variable {o : AnnotateOptions} {rule : Text} {one two : Document}

/-- The row that a new directive in front of its target makes. -/
def rowOf (o : AnnotateOptions) (rule : Text) : Text :=
  Comment.delimit .line (directiveText o .nextLine rule .line)

theorem besideComment_row (above : o.inline = false) :
    (besideComment o rule).2.render = rowOf o rule := by
  unfold besideComment
  rw [above]
  rfl

theorem rowOf_break (tidy : '\n' ∉ rule) (brief : '\n' ∉ o.message) : '\n' ∉ rowOf o rule := by
  have keyword : '\n' ∉ Directive.Form.nextLine.keyword := by decide
  have separator : '\n' ∉ Directive.separator := by decide
  simp [rowOf, Comment.delimit, directiveText, Directive.encode, Directive.single, joinWith, tidy,
    brief, keyword, separator]

theorem ofMerge_ne_inserted (m : Comment.Merge) : Resolution.ofMerge m ≠ some .inserted := by
  cases m <;> exact nofun

theorem inserted_beside (sound : doc.Sound source) (above : o.inline = false)
    (called : doc.annotateOne o line rule = .ok (doc', .inserted))
    (located : doc.locate line = some (.node id (some p)))
    (plain : (doc.kind p).hasMarkupChildren = false) :
    (∃ rest, doc.startingOn line = id :: rest) ∧ doc.Holds p id ∧
      doc' = doc.appendComment id .leading (besideComment o rule).2 := by
  obtain ⟨_, _, result, call⟩ := annotateOne_ok sound o line rule
  cases called.symm.trans result
  have aimed : ∀ {j : NodeId} {rest : List NodeId} {t : Target}, doc.startingOn line = j :: rest →
      doc.aim j = t → t = .node id (some p) := by
    rintro j rest t found rfl
    rw [sound.locate_eq, found] at located
    exact Option.some.inj located
  generalize answer : Resolution.inserted = r at call
  cases call with
  | missed => cases answer
  | tail found aim => cases aimed found aim
  | closing found aim =>
    cases aimed found aim
    rw [attachBeforeClosing_childless o rule plain] at answer
    cases answer
  | among found aim _ _ attach =>
    cases aimed found aim
    cases attach with
    | childless => cases answer
    | own markup =>
      rw [plain] at markup
      cases markup
    | placed markup =>
      rw [plain] at markup
      cases markup
  | beside found aim =>
    cases aimed found aim
    refine ⟨⟨_, found⟩, (sound.linked.agree p id).mpr (parent_of_aim aim), ?_⟩
    have slot : (besideComment o rule).1 = .leading := by
      unfold besideComment
      rw [above]
      rfl
    rcases attachOrdinary_cases o doc id rule with ⟨r, merged, eq⟩ | ⟨-, ⟨r, merged, eq⟩ | ⟨-, eq⟩⟩
    · rw [eq] at answer
      cases answer
      exact absurd merged (ofMerge_ne_inserted _)
    · rw [eq] at answer
      cases answer
      exact absurd merged (ofMerge_ne_inserted _)
    · rw [eq, slot]

/-- A directive that a call puts in outside of elements, above the code, after any run of calls on a
well-formed document whose spans hold their tokens: in what is printed it ends a line, and the target
starts the next one. If only spaces and tabs stand in front of the target in its line of the source,
then one line with the same indentation is added above that line, and the rest is as before. -/
theorem annotateOne_above (wf : doc.WellFormed source) (braced : doc.Braced source)
    (snug : doc.Snug source) (calls : doc.Calls one) (above : o.inline = false)
    (tidy : '\n' ∉ rule) (brief : '\n' ∉ o.message)
    (called : one.annotateOne o line rule = .ok (two, .inserted))
    (located : one.locate line = some (.node id (some p)))
    (plain : (one.kind p).hasMarkupChildren = false) (span : one.span id = some s) :
    ∃ before after rest a c b, one.PartsAt source s.lo before (c :: rest) ∧
      two.PartsAt source s.lo after (c :: rest) ∧ source = a ++ c :: b ∧ bytes a = s.lo ∧
      '\n' ∉ rowOf o rule ∧ RowAbove source s.lo one.eol.text (rowOf o rule) before after := by
  obtain ⟨sound, frame⟩ := calls.frame wf.sound
  obtain ⟨sound', frame'⟩ := Calls.frame (calls.tail ⟨o, line, rule, _, called⟩) wf.sound
  obtain ⟨found, hold, rfl⟩ := inserted_beside sound above called located plain
  have aimed : one.Aimed source line id p s :=
    ⟨sound, calls.snug wf.sound snug, calls.anchored wf, found, hold, plain, span⟩
  obtain ⟨before, after, rest, a, c, b, old, new, split, lo, raised⟩ :=
    aimed.print_more (frame.braced braced) (besideComment_span o rule) sound' (frame'.braced braced)
  rw [besideComment_row above] at raised
  exact ⟨before, after, rest, a, c, b, old, new, split, lo, rowOf_break tidy brief, raised⟩

end Document
end Quell
