import Quell.Proofs.Annotate.Above
import Quell.Proofs.Annotate.Governs
import Quell.Proofs.Print.Fresh

/-!
In front of an alternate.

There a directive goes to the end of the block before: behind its last statement and the comments
that follow it, or behind the brace and the comments of an empty block. Printing copies the source
up to there, puts in one row, and copies the rest. So the lines between the directive and the
alternate are those that the source has there: `annotateOne_tail`.
-/
namespace Quell

open Text Relation

/-- Only blanks stand between the offset and the end of its line. -/
def BlankBehind (source : Text) (n : Nat) : Prop :=
  ∃ a b, source = a ++ b ∧ bytes a = n ∧ b.firstLine.allBlank = true

/-- The new text is the source with a row put in at an offset, on a line of its own. The row stands on
one line of the new text, and what stands at a later offset of the source stands on another one. -/
def RowBehind (source eol row : Text) (n lo : Nat) (new : Text) (rowLine codeLine : Nat) : Prop :=
  ∃ a m b indent resume, source = a ++ m ++ b ∧ bytes a = n ∧ bytes (a ++ m) = lo ∧
    Run indent ∧ (resume = [] ∨ ∃ run, Run run ∧ resume = eol ++ run) ∧
    new = a ++ eol ++ indent ++ row ++ resume ++ m ++ b ∧
    (LineIndex.of new).lineOf (bytes (a ++ eol ++ indent)) = rowLine ∧
    (LineIndex.of new).lineOf (bytes (a ++ eol ++ indent ++ row ++ resume ++ m)) = codeLine

theorem lineOf_below {row : Text} (brief : '\n' ∉ row) (front gap rest : Text) :
    (LineIndex.of (front ++ row ++ gap ++ rest)).lineOf (bytes (front ++ row ++ gap)) =
      (LineIndex.of (front ++ row ++ gap ++ rest)).lineOf (bytes front) + gap.breaks := by
  have none : row.breaks = 0 := List.count_eq_zero.mpr brief
  have found : slice? (bytes front) (bytes (front ++ row ++ gap)) (front ++ row ++ gap ++ rest) =
      some (row ++ gap) := by
    refine slice?_eq_some.mpr ⟨front, rest, by simp only [List.append_assoc], rfl, ?_⟩
    simp only [bytes_append, Nat.add_assoc]
  rw [lineOf_slice found, breaks_append, none, Nat.zero_add]

/-- A row on a line of its own at a cut of the source. Code behind it starts right below if it was on
the line of the cut, or on the next one with nothing else on that line. -/
theorem rowBehind_of_row {source row a m b indent run : Text} (ending : LineEnding)
    (split : source = a ++ m ++ b) (brief : '\n' ∉ row) (margin : Run indent) (blanks : Run run) :
    ∃ rowLine codeLine, RowBehind source ending.text row (bytes a) (bytes (a ++ m))
        (a ++ (ending.text ++ indent ++ row ++
          if (m ++ b).firstLine.allBlank then [] else ending.text ++ run) ++ (m ++ b))
        rowLine codeLine ∧
      (rowLine + 1 = codeLine ↔
        BlankBehind source (bytes a) ∧ source.BreaksBetween (bytes a) (bytes (a ++ m)) 1 ∨
        ¬ BlankBehind source (bytes a) ∧ source.BreaksBetween (bytes a) (bytes (a ++ m)) 0) := by
  have between : ∀ n, source.BreaksBetween (bytes a) (bytes (a ++ m)) n ↔ m.breaks = n := by
    have found : slice? (bytes a) (bytes (a ++ m)) source = some m :=
      slice?_eq_some.mpr ⟨a, b, split, rfl, (bytes_append a m).symm⟩
    intro n
    constructor
    · rintro ⟨m', hm', count⟩
      cases found.symm.trans hm'
      exact count
    · exact fun count => ⟨m, found, count⟩
  have behind : BlankBehind source (bytes a) ↔ (m ++ b).firstLine.allBlank = true := by
    have split := split
    rw [List.append_assoc] at split
    constructor
    · rintro ⟨a', b', split', same, blank⟩
      rwa [← (append_inj_bytes (split'.symm.trans split) same).2]
    · exact fun blank => ⟨a, m ++ b, split, rfl, blank⟩
  rw [between, between, behind]
  generalize more : (if (m ++ b).firstLine.allBlank = true then [] else ending.text ++ run) = resume
  have shape : a ++ (ending.text ++ indent ++ row ++ resume) ++ (m ++ b) =
      a ++ ending.text ++ indent ++ row ++ resume ++ m ++ b := by simp only [List.append_assoc]
  have below := lineOf_below brief (a ++ ending.text ++ indent) (resume ++ m) b
  rw [breaks_append] at below
  simp only [← List.append_assoc] at below
  rw [shape]
  refine ⟨_, _, ⟨a, m, b, indent, resume, split, rfl, rfl, margin, ?_, rfl, rfl, rfl⟩, ?_⟩
  · rw [← more]
    split
    · exact .inl rfl
    · exact .inr ⟨run, blanks, rfl⟩
  · have one : (ending.text ++ run).breaks = 1 := by
      rw [breaks_append, ending.breaks_text, blanks.breaks]
    rw [below]
    by_cases blank : (m ++ b).firstLine.allBlank = true
    · rw [if_pos blank] at more
      subst more
      simp only [blank, breaks, List.count_nil, not_true_eq_false, true_and, false_and, or_false]
      omega
    · rw [if_neg blank] at more
      subst more
      rw [one]
      simp only [blank, not_false_eq_true, false_and, true_and, false_or, Bool.false_eq_true]
      omega

namespace Press

variable {press : Press} {a b t indent : Text} {k : Comment}

def lineRun (a b : Text) : Text := (lastLine a ++ b).takeWhile Page.isSpaceOrTab

theorem run_lineRun (a b : Text) : Run (lineRun a b) := run_takeWhile _

theorem trail_row (fair : press.Fair) (split : press.source = a ++ b)
    (own : k.placement = .trailing true) (kind : k.kind = .line) :
    press.trailSheet indent ⟨t, bytes a⟩ k = .ok ⟨t ++ (press.eol ++ indent ++ k.render ++
      if b.firstLine.allBlank then [] else press.eol ++ lineRun a b), bytes a⟩ := by
  have rest : press.slice (bytes a) press.size = .ok b := by
    refine slice_eq (slice?_eq_some.mpr ⟨a, [], by rw [split, List.append_nil], rfl, ?_⟩)
    rw [fair.size, split, bytes_append]
  have follows : press.followsAt (bytes a) = .ok (!b.firstLine.allBlank) := by
    unfold followsAt
    rw [rest]
    rfl
  have resume : press.lineIndent (bytes a) = .ok (lineRun a b) := lineIndent_eq fair split
  unfold trailSheet
  rw [own, kind]
  dsimp only
  rw [follows]
  cases b.firstLine.allBlank with
  | true => simp [bind, Except.bind, pure, Except.pure, Sheet.add]
  | false => simp [bind, Except.bind, pure, Except.pure, Sheet.add, resume]

end Press

namespace Document

variable {source : Text} {doc doc' : Document} {o : AnnotateOptions} {rule : Text} {line : Nat}
variable {block last : NodeId} {s u : Span} {k : Comment}

/-- Where the content of a block ends: behind its last statement and the comments that follow it, or
behind the brace and the comments of an empty block. -/
def contentEnd (doc : Document) (block : NodeId) (s : Span) : Nat :=
  match (doc.children block).getLast? with
  | some last =>
    (endsOf (doc.node last).trailing).foldl max (((doc.span last).map (·.hi)).getD 0)
  | none => (endsOf (doc.node block).inner).foldl max (s.lo + 1)

def PrintsRow (doc : Document) (source : Text) (n : Nat) (k : Comment) : Prop :=
  ∃ a b indent, source = a ++ b ∧ bytes a = n ∧ Run indent ∧
    doc.print source = .ok (a ++ (doc.eol.text ++ indent ++ k.render ++
      if b.firstLine.allBlank then [] else doc.eol.text ++ Press.lineRun a b) ++ b)

theorem writes_row {press : Press} (fair : press.Fair) {a b indent : Text}
    (split : press.source = a ++ b) {Z : List Stroke} {bound : Nat} {margin : Quell.Margin}
    (reach : ∀ x y, press.source = x ++ y → bytes x ≤ bound →
      Z.foldlM press.strike ⟨x, bytes x⟩ = .ok ⟨a, bytes a⟩)
    (margin_eq : press.marginText margin = .ok indent) (own : k.placement = .trailing true)
    (kind : k.kind = .line) (x y : Text) (front : press.source = x ++ y) (le : bytes x ≤ bound) :
    (Z ++ [Stroke.behind none margin [k]]).foldlM press.strike ⟨x, bytes x⟩ = .ok ⟨a ++ (press.eol ++
      indent ++ k.render ++ if b.firstLine.allBlank then [] else press.eol ++ Press.lineRun a b),
      bytes a⟩ := by
  rw [List.foldlM_append, reach x y front le]
  show [Stroke.behind none margin [k]].foldlM press.strike ⟨a, bytes a⟩ = _
  have trailed := @Press.trail_row press a b a indent k fair split own kind
  simp only [List.foldlM_cons, List.foldlM_nil, Press.strike, margin_eq, bind, Except.bind, trailed]
  rfl

theorem strike_anchor (press : Press) (sheet : Sheet) (n : Nat) (anchor : Option Nat)
    (margin : Quell.Margin) (cs : List Comment) :
    [Stroke.reach n, Stroke.behind anchor margin cs].foldlM press.strike sheet =
      (Stroke.reach n :: anchor.toList.map Stroke.reach ++ [Stroke.behind none margin cs]).foldlM
        press.strike sheet := by
  cases anchor with
  | none => rfl
  | some m =>
    simp only [Option.toList_some, List.map_cons, List.map_nil, List.cons_append, List.nil_append,
      List.foldlM_cons, List.foldlM_nil, Press.strike, bind_pure]

theorem foldl_max_option (n : Nat) (ends : List Nat) :
    ends.foldl max n = (ends.max?.toList).foldl max n := by
  rw [List.foldl_max]
  cases ends.max? with
  | none => simp
  | some m => simp

theorem strike_reaches {press : Press} (plain : press.revisions = [])
    (size : press.size = bytes press.source) {n : Nat} {anchor : Option Nat}
    (cut : Cut press.source n) (cuts : ∀ m ∈ anchor, Cut press.source m) {a b : Text}
    (split : press.source = a ++ b) (stop : bytes a = anchor.toList.foldl max n) (x y : Text)
    (front : press.source = x ++ y) (le : bytes x ≤ n) :
    (.reach n :: anchor.toList.map Stroke.reach).foldlM press.strike ⟨x, bytes x⟩ =
      .ok ⟨a, bytes a⟩ := by
  obtain ⟨m, y', rfl, here, first⟩ := @Press.flush_plain press x y x n plain size front cut
  rw [Nat.max_eq_right le] at here
  rw [← List.append_assoc] at front
  rw [List.foldlM_cons, Press.strike, first]
  show (anchor.toList.map Stroke.reach).foldlM press.strike ⟨x ++ m, bytes (x ++ m)⟩ = _
  cases anchor with
  | none =>
    obtain ⟨rfl, -⟩ := append_inj_bytes (front.symm.trans split) (here.trans stop.symm)
    rfl
  | some p =>
    obtain ⟨m', y'', rfl, there, second⟩ := @Press.flush_plain press (x ++ m) y' (x ++ m) p plain size
      front (cuts p rfl)
    rw [← List.append_assoc] at front
    rw [here] at there
    obtain ⟨rfl, -⟩ := append_inj_bytes (front.symm.trans split) (there.trans stop.symm)
    simp only [Option.toList_some, List.map_cons, List.map_nil]
    rw [Press.strike_reach, second]

structure Trails (doc doc' : Document) (id : NodeId) (cs : List Comment) : Prop where
  eol : doc'.eol = doc.eol
  size : doc'.nodes.size = doc.nodes.size
  tree : ∀ j, doc'.kind j = doc.kind j ∧ doc'.span j = doc.span j ∧
    doc'.children j = doc.children j ∧ doc'.parent j = doc.parent j
  here : (doc'.node id).trailing = cs
  rest : ∀ j slot, ¬ (j = id ∧ slot = .trailing) →
    (doc'.node j).comments slot = (doc.node j).comments slot

theorem trails_appendComment {id : NodeId} (valid : id < doc.nodes.size) (k : Comment) :
    doc.Trails (doc.appendComment id .trailing k) id ((doc.node id).trailing ++ [k]) where
  eol := by rw [appendComment_eq]; exact eol_update ..
  size := by rw [appendComment_eq]; exact size_update ..
  tree j := by rw [appendComment_eq]; exact tree_setComments j
  here := by
    have here := comments_appendComment valid .trailing k id .trailing
    rw [if_pos ⟨rfl, rfl⟩] at here
    exact here
  rest j slot other := by rw [comments_appendComment valid, if_neg other]

section Behind

variable {cs : List Comment} (wf : doc.WellFormed source) (trails : doc.Trails doc' last cs)
variable (hold : doc.Holds block last)

include wf trails hold

theorem Trails.alikeAt {j : NodeId} (other : j ≠ block) :
    AlikeAt doc doc' doc.strokesOf doc'.strokesOf j := by
  obtain ⟨kind, span, children, -⟩ := trails.tree j
  refine ⟨children, fun kids names => ?_⟩
  have leading : (doc'.node j).leading = (doc.node j).leading := trails.rest j .leading nofun
  have inner : (doc'.node j).inner = (doc.node j).inner := trails.rest j .inner nofun
  have inside := strokesInside_congr kind span inner kids fun k hk => by
    refine ⟨(trails.tree k.1).2.1, trails.rest k.1 .trailing fun same => ?_⟩
    have held : doc.Holds j last := by
      unfold Holds
      rw [← names, ← same.1]
      exact List.mem_map_of_mem hk
    have up := (wf.linked.agree _ _).mp held
    exact other (Option.some.inj (up.symm.trans ((wf.linked.agree _ _).mp hold)))
  unfold strokesOf
  rw [span, kind, leading, inner, inside]

omit hold in
theorem Trails.linked : doc'.Linked :=
  wf.linked.of_same (fun j => (trails.tree j).2.2.1) fun j => (trails.tree j).2.2.2

theorem Trails.gather_child {c : NodeId} (held : doc.Holds block c) :
    doc'.gather doc'.strokesOf c = doc.gather doc.strokesOf c := by
  have lt := wf.linked.child_lt held
  refine gather_congr wf.linked (trails.linked wf) lt (by rwa [trails.size]) fun j below => ?_
  refine trails.alikeAt wf hold ?_
  rintro rfl
  exact wf.linked.not_below_of_holds held below

theorem Trails.gather_block {A : List NodeId} (split : doc.children block = A ++ [last])
    (reached : doc.Reaches block) (hs : doc.span block = some s) (hu : doc.span last = some u)
    (new : inserted cs = [k]) (ends : endsOf cs = endsOf (doc.node last).trailing) :
    doc'.gather doc'.strokesOf block = .start s.lo [] :: (A ++ [last]).flatMap
      (doc.gather doc.strokesOf) ++ [.behind (endsOf (doc.node last).trailing).max? (.line u.lo) [k]] ++
      [.reach s.hi] := by
  obtain ⟨kind, span, children, -⟩ := trails.tree block
  have valid : block < doc'.nodes.size := by
    rw [trails.size]
    exact wf.sound.reaches_lt reached
  have spanned : ∀ c, doc.Holds block c → ∃ t, doc'.span c = some t := by
    intro c held
    obtain ⟨t, ht, -⟩ := (wf.each c (reached.child held)).spanned
    exact ⟨t, (trails.tree c).2.1.trans ht⟩
  have leading : inserted (doc'.node block).leading = [] := by
    have same : (doc'.node block).leading = (doc.node block).leading :=
      trails.rest block .leading nofun
    rw [same]
    exact wf.inserted_eq_nil reached .leading
  have kids : (doc.children block).map (fun c => (c, doc'.gather doc'.strokesOf c)) =
      (doc.children block).map fun c => (c, doc.gather doc.strokesOf c) :=
    List.map_congr_left fun c hc => by rw [trails.gather_child wf hold hc]
  have entering : ∀ k ∈ (doc.children block).map fun c => (c, doc.gather doc.strokesOf c),
      ∀ later, doc'.strokesEntering block k.1 later = [] := by
    intro k hk later
    obtain ⟨c, hc, rfl⟩ := List.mem_map.mp hk
    obtain ⟨t, ht⟩ := spanned c hc
    simp [strokesEntering, ht]
  have silent : ∀ c ∈ A, doc'.strokesBehind c block = [] := by
    intro c hc
    have held : doc.Holds block c := by
      unfold Holds
      rw [split]
      exact List.mem_append_left _ hc
    have ne : c ≠ last := by
      rintro rfl
      have nodup := wf.linked.nodup block
      rw [split] at nodup
      exact (List.nodup_append.mp nodup).2.2 c hc c List.mem_cons_self rfl
    have same : (doc'.node c).trailing = (doc.node c).trailing :=
      trails.rest c .trailing fun h => ne h.1
    have none : inserted (doc.node c).trailing = [] := wf.inserted_eq_nil (reached.child held) .trailing
    simp [strokesBehind, same, none]
  have behind : doc'.strokesBehind last block =
      [.behind (endsOf (doc.node last).trailing).max? (.line u.lo) [k]] := by
    have margin : doc'.marginOf last block = .line u.lo := by
      unfold marginOf
      rw [(trails.tree last).2.1, hu]
    unfold strokesBehind
    rw [trails.here, new, ends, margin]
  rw [gather_eq (trails.linked wf) valid, children, kids, strokesOf_spanned (span.trans hs),
    leading, strokesInside_flat entering, List.flatMap_map, split, List.flatMap_append,
    List.flatMap_append, List.flatMap_congr fun c hc => by rw [silent c hc, List.append_nil]]
  simp [behind]

theorem Trails.printsRow {A : List NodeId} (split : doc.children block = A ++ [last])
    (reached : doc.Reaches block) (hs : doc.span block = some s) (hu : doc.span last = some u)
    (new : inserted cs = [k]) (ends : endsOf cs = endsOf (doc.node last).trailing)
    (plain : Press.revisionsOf doc' = []) (sound : doc'.Sound source)
    (own : k.placement = .trailing true) (kind : k.kind = .line) :
    doc'.PrintsRow source (doc.contentEnd block s) k := by
  have fair := Press.fair_of_sound sound
  have reached' := reached.child hold
  have fits := wf.sound.fits reached' hu
  have anchors : ∀ m ∈ (endsOf (doc.node last).trailing).max?, Cut source m := fun m hm =>
    cut_endsOf wf.sound reached' .trailing (List.max?_mem hm)
  have stop : doc.contentEnd block s =
      (endsOf (doc.node last).trailing).max?.toList.foldl max u.hi := by
    unfold contentEnd
    rw [split, List.getLast?_concat]
    dsimp only
    rw [hu, foldl_max_option]
    rfl
  have cut : Cut source (doc.contentEnd block s) := by
    rw [stop]
    exact foldl_max_keeps fits.hi fun m mem => anchors m (Option.mem_toList.mp mem)
  obtain ⟨a, b, halves, here⟩ := cut
  obtain ⟨c, d, halves', start⟩ := fits.lo
  have margin : (Press.of doc' source).marginText (.line u.lo) = .ok (Press.lineRun c d) := by
    rw [← start]
    exact Press.lineIndent_eq fair halves'
  refine ⟨a, b, Press.lineRun c d, halves, here, Press.run_lineRun c d, ?_⟩
  have gathered : doc'.gather doc'.strokesOf block =
      (.start s.lo [] :: A.flatMap (doc.gather doc.strokesOf) ++
        .start u.lo [] :: (doc.children last).flatMap (doc.gather doc.strokesOf)) ++
      [.reach u.hi, .behind (endsOf (doc.node last).trailing).max? (.line u.lo) [k]] ++
      [.reach s.hi] := by
    rw [trails.gather_block wf hold split reached hs hu new ends, List.flatMap_append,
      List.flatMap_singleton, wf.gather_eq reached' hu]
    simp
  have front := wf.onward_before split reached hs hu
  have low : s.lo ≤ u.hi :=
    Nat.le_trans ((wf.each block reached).nested s last u hs hold hu).1 fits.le
  refine wf.print_block reached hs (trails.linked wf) (Nat.le_of_eq trails.size.symm)
    (fun j _ outside => trails.alikeAt wf hold fun here => outside (here ▸ .refl)) plain gathered low
    front (wf.onward_reach reached hs) halves fun x y parts le => ?_
  rw [strike_anchor]
  exact writes_row fair halves (strike_reaches plain rfl fits.hi anchors halves (here.trans stop))
    margin own kind x y parts le

end Behind

structure Filled (doc doc' : Document) (block : NodeId) (k : Comment) : Prop where
  size : doc'.nodes.size = doc.nodes.size + 1
  here : doc'.node block = { doc.node block with children := [doc.nodes.size] }
  rest : ∀ j, j < doc.nodes.size → j ≠ block → doc'.node j = doc.node j
  new : doc'.node doc.nodes.size =
    { kind := .empty, span := none, parent := some block, trailing := [k] }

theorem filled_addPlaceholder (valid : block < doc.nodes.size) (empty : doc.children block = [])
    (k : Comment) : doc.Filled
      ((doc.addPlaceholder block).1.appendComment doc.nodes.size .trailing k) block k := by
  obtain ⟨splice, size, node⟩ := addPlaceholder_spec valid
  have other : ∀ j, j ≠ doc.nodes.size →
      ((doc.addPlaceholder block).1.appendComment doc.nodes.size .trailing k).node j =
        (doc.addPlaceholder block).1.node j := by
    intro j ne
    rw [appendComment_eq, node_update_ne _ ne]
  constructor
  · rw [appendComment_eq, size_update, size]
  · rw [other block (Nat.ne_of_lt valid), splice.here, empty]
    rfl
  · intro j lt ne
    rw [other j (Nat.ne_of_lt lt), splice.rest j lt ne nofun]
  · unfold appendComment
    rw [node_update, if_pos ⟨rfl, by rw [size]; exact Nat.lt_succ_self _⟩, node]
    rfl

section Filled

variable (wf : doc.WellFormed source) (filled : doc.Filled doc' block k)
variable (reached : doc.Reaches block)

include wf filled reached

omit wf reached in
/-- A node keeps all but its children. -/
theorem Filled.content {j : NodeId} (lt : j < doc.nodes.size) :
    doc'.kind j = doc.kind j ∧ doc'.span j = doc.span j ∧
      ∀ slot, (doc'.node j).comments slot = (doc.node j).comments slot := by
  unfold kind span
  by_cases here : j = block
  · rw [here, filled.here]
    exact ⟨rfl, rfl, fun slot => by cases slot <;> rfl⟩
  · rw [filled.rest j lt here]
    exact ⟨rfl, rfl, fun _ => rfl⟩

omit reached in
theorem Filled.alikeAt {j : NodeId} (reached' : doc.Reaches j) (other : j ≠ block) :
    AlikeAt doc doc' doc.strokesOf doc'.strokesOf j := by
  have lt := wf.sound.reaches_lt reached'
  obtain ⟨kind, span, comments⟩ := filled.content lt
  refine ⟨by unfold children; rw [filled.rest j lt other], fun kids names => ?_⟩
  refine strokesOf_congr kind span comments kids fun k hk => ?_
  have held : doc.Holds j k.1 := by
    unfold Holds
    rw [← names]
    exact List.mem_map_of_mem hk
  obtain ⟨-, span', comments'⟩ := filled.content (wf.linked.child_lt held)
  exact ⟨span', comments' .trailing⟩

theorem Filled.gather_block (linked : doc'.Linked) (kind : doc.kind block = .block)
    (hs : doc.span block = some s) (new : k.span = none) :
    doc'.gather doc'.strokesOf block = [.start s.lo []] ++
      [.inside (some (s.lo + 1)) (endsOf (doc.node block).inner),
        .behind none (.nested (some s.lo)) [k]] ++ [.reach s.hi] := by
  have valid := wf.sound.reaches_lt reached
  obtain ⟨kind', span', comments'⟩ := filled.content valid
  have children' : doc'.children block = [doc.nodes.size] := by
    unfold children
    rw [filled.here]
  have leading : inserted (doc'.node block).leading = [] := by
    have same : (doc'.node block).leading = (doc.node block).leading := comments' .leading
    rw [same]
    exact wf.inserted_eq_nil reached .leading
  have inner : (doc'.node block).inner = (doc.node block).inner := comments' .inner
  have ghost : doc'.span doc.nodes.size = none := by
    unfold span
    rw [filled.new]
  have nothing : doc'.gather doc'.strokesOf doc.nodes.size = [] := by
    have empty : doc'.kind doc.nodes.size = .empty := by
      unfold Document.kind
      rw [filled.new]
    rw [Document.gather_eq linked (by rw [filled.size]; exact Nat.lt_succ_self _), strokesOf, ghost,
      empty]
  have entering : doc'.strokesEntering block doc.nodes.size [] =
      [.inside (some (s.lo + 1)) (endsOf (doc.node block).inner)] := by
    simp [strokesEntering, ghost, kind'.trans kind, span'.trans hs, inner]
  have behind : doc'.strokesBehind doc.nodes.size block =
      [.behind none (.nested (some s.lo)) [k]] := by
    have margin : doc'.marginOf doc.nodes.size block = .nested (some s.lo) := by
      unfold marginOf
      rw [ghost, span', hs]
      rfl
    unfold strokesBehind
    rw [margin, filled.new]
    simp [inserted, Comment.isInserted, endsOf, new]
  rw [Document.gather_eq linked (by rw [filled.size]; exact Nat.lt_succ_of_lt valid), children',
    List.map_singleton, strokesOf_spanned (span'.trans hs), leading, nothing, strokesInside,
    List.map_nil, entering, behind, strokesInside]
  rfl

theorem Filled.printsRow (sound : doc'.Sound source) (braced : doc.Braced source)
    (kind : doc.kind block = .block) (empty : doc.children block = []) (hs : doc.span block = some s)
    (new : k.span = none) (plain : Press.revisionsOf doc' = []) (own : k.placement = .trailing true)
    (line : k.kind = .line) : doc'.PrintsRow source (doc.contentEnd block s) k := by
  have fair := Press.fair_of_sound sound
  have fits := wf.sound.fits reached hs
  have stop : doc.contentEnd block s = (endsOf (doc.node block).inner).foldl max (s.lo + 1) := by
    unfold contentEnd
    rw [empty]
    rfl
  have cut : Cut source (doc.contentEnd block s) := by
    rw [stop]
    exact foldl_max_keeps (braced block reached kind s hs) fun _ mem =>
      cut_endsOf wf.sound reached .inner mem
  have beyond : s.lo < doc.contentEnd block s := by
    rw [stop, List.foldl_max]
    exact Nat.lt_of_lt_of_le (Nat.lt_succ_self _) (Nat.le_max_left _ _)
  obtain ⟨a, b, halves, here⟩ := id cut
  obtain ⟨c, d, halves', start⟩ := id fits.lo
  have margin : (Press.of doc' source).marginText (.nested (some s.lo)) =
      .ok (Press.lineRun c d ++ Press.indentUnit (Press.lineRun c d)) := by
    have indent : (Press.of doc' source).lineIndent s.lo = .ok (Press.lineRun c d) := by
      rw [← start]
      exact Press.lineIndent_eq fair halves'
    rw [Press.marginText, indent]
    rfl
  have blanks : Run (Press.lineRun c d ++ Press.indentUnit (Press.lineRun c d)) := by
    intro x hx
    rcases List.mem_append.mp hx with hx | hx
    · exact Press.run_lineRun c d x hx
    · unfold Press.indentUnit at hx
      split at hx <;> simp at hx <;> rw [hx] <;> rfl
  refine ⟨a, b, _, halves, here, blanks, ?_⟩
  have front : ∀ st ∈ [Stroke.start s.lo []], Onward (Within source 0 s.lo) st := by
    intro st mem
    rw [List.mem_singleton.mp mem]
    exact .start ⟨fits.lo, Nat.zero_le _, Nat.le_refl _⟩
  have reach : ∀ x y, source = x ++ y → bytes x ≤ s.lo →
      [Stroke.inside (some (s.lo + 1)) (endsOf (doc.node block).inner)].foldlM
        (Press.of doc' source).strike ⟨x, bytes x⟩ = .ok ⟨a, bytes a⟩ := by
    intro x y parts le
    obtain ⟨m, y', rfl, there, flushed⟩ := @Press.flush_plain (Press.of doc' source) x y x _ plain rfl
      parts cut
    rw [Nat.max_eq_right (by omega)] at there
    rw [← List.append_assoc] at parts
    obtain ⟨rfl, -⟩ := append_inj_bytes (parts.symm.trans halves) (there.trans here.symm)
    rw [stop] at flushed
    simp only [List.foldlM_cons, List.foldlM_nil, Press.strike, Option.getD_some, flushed, bind,
      Except.bind, pure, Except.pure]
  exact wf.print_block reached hs sound.linked (by rw [filled.size]; exact Nat.le_succ _)
    (fun j reached' outside => filled.alikeAt wf reached' fun here => outside (here ▸ .refl))
    plain (filled.gather_block wf reached sound.linked kind hs new) (Nat.le_refl _) front
    (wf.onward_reach reached hs) halves (writes_row fair halves reach margin own line)

end Filled

/-- No comment is revised if all but one are as they were. -/
theorem Frame.plain (frame : doc.Frame doc') (wf : doc.WellFormed source) (sound : doc'.Sound source)
    (own : k.revised = false) (each : ∀ id, id < doc'.nodes.size → ∀ slot,
      ∀ c ∈ (doc'.node id).comments slot,
        id < doc.nodes.size ∧ c ∈ (doc.node id).comments slot ∨ c = k) :
    Press.revisionsOf doc' = [] := by
  refine revisionsOf_eq_nil fun id mem slot c hc => ?_
  have reached := (mem_preorder sound.linked sound.root_lt).mp mem
  rcases each id (sound.reaches_lt reached) slot c hc with ⟨lt, old⟩ | rfl
  · exact ((wf.each id (frame.back id reached lt)).remarks slot c old).1
  · exact own

section Prints

variable (wf : doc.WellFormed source) (frame : doc.Frame doc') (sound : doc'.Sound source)
variable (reached : doc.Reaches block) (kind : doc.kind block = .block)
variable (hs : doc.span block = some s)

include wf frame sound reached kind hs

theorem prints_filled (braced : doc.Braced source) (empty : doc.children block = [])
    (result : attachBehindLast o (doc.addPlaceholder block).1 block rule = (doc', .inserted)) :
    doc'.PrintsRow source (doc.contentEnd block s) (behindComment o rule) := by
  have valid := wf.sound.reaches_lt reached
  have found : ((doc.addPlaceholder block).1.children block).getLast? = some doc.nodes.size := by
    rw [addPlaceholder_children valid empty]
    rfl
  rcases attachBehindLast_cases o rule found with ⟨r, merged, e⟩ | ⟨-, e⟩
  · cases result.symm.trans e
    exact absurd merged (ofMerge_ne_inserted _)
  · cases result.symm.trans e
    have filled := filled_addPlaceholder valid empty (behindComment o rule)
    refine filled.printsRow wf reached sound braced kind empty hs rfl ?_ rfl rfl
    refine frame.plain (k := behindComment o rule) wf sound rfl fun id lt slot c hc => ?_
    rw [filled.size] at lt
    rcases Nat.lt_or_eq_of_le (Nat.le_of_lt_succ lt) with old | rfl
    · rw [(filled.content old).2.2 slot] at hc
      exact .inl ⟨old, hc⟩
    · rw [filled.new] at hc
      cases slot with
      | leading => cases hc
      | trailing => exact .inr (List.mem_singleton.mp hc)
      | inner => cases hc

omit kind in
theorem prints_trailed (found : (doc.children block).getLast? = some last)
    (result : attachBehindLast o doc block rule = (doc', .inserted)) :
    doc'.PrintsRow source (doc.contentEnd block s) (behindComment o rule) := by
  have hold : doc.Holds block last := List.mem_of_getLast? found
  have valid := wf.linked.child_lt hold
  obtain ⟨A, split⟩ := List.getLast?_eq_some_iff.mp found
  obtain ⟨u, hu, -⟩ := (wf.each last (reached.child hold)).spanned
  rcases attachBehindLast_cases o rule found with ⟨r, merged, e⟩ | ⟨-, e⟩
  · cases result.symm.trans e
    exact absurd merged (ofMerge_ne_inserted _)
  · cases result.symm.trans e
    have trails := trails_appendComment valid (behindComment o rule)
    have none : inserted (doc.node last).trailing = [] :=
      wf.inserted_eq_nil (reached.child hold) .trailing
    have new : inserted ((doc.node last).trailing ++ [behindComment o rule]) =
        [behindComment o rule] := by
      unfold inserted at none ⊢
      rw [List.filter_append, none]
      rfl
    have ends : endsOf ((doc.node last).trailing ++ [behindComment o rule]) =
        endsOf (doc.node last).trailing := by
      unfold endsOf
      rw [List.filterMap_append]
      exact List.append_nil _
    refine trails.printsRow wf hold split reached hs hu new ends ?_ sound rfl rfl
    refine frame.plain (k := behindComment o rule) wf sound rfl fun id lt slot c hc => ?_
    rw [trails.size] at lt
    rw [comments_appendComment valid] at hc
    by_cases here : id = last ∧ slot = .trailing
    · rw [if_pos here] at hc
      obtain ⟨rfl, rfl⟩ := here
      rcases List.mem_append.mp hc with old | new
      · exact .inl ⟨lt, old⟩
      · exact .inr (List.mem_singleton.mp new)
    · rw [if_neg here] at hc
      exact .inl ⟨lt, hc⟩

theorem attachToBlockTail_prints (braced : doc.Braced source)
    (result : attachToBlockTail o doc block rule = (doc', .inserted)) :
    doc'.PrintsRow source (doc.contentEnd block s) (behindComment o rule) := by
  unfold attachToBlockTail at result
  by_cases empty : doc.children block = []
  · rw [empty, List.isEmpty_nil, if_pos rfl] at result
    dsimp only at result
    cases settled : Resolution.ofMerge (doc.mergeInto block .inner rule).2 with
    | some r =>
      rw [settled] at result
      cases result
      exact absurd settled (ofMerge_ne_inserted _)
    | none =>
      rw [settled, mergeInto_unsettled settled] at result
      exact prints_filled wf frame sound reached kind hs braced empty result
  · rw [if_neg (mt List.isEmpty_iff.mp empty)] at result
    obtain ⟨last, found⟩ := Option.ne_none_iff_exists'.mp (mt List.getLast?_eq_none_iff.mp empty)
    exact prints_trailed wf frame sound reached hs found result

end Prints

theorem Filed.contentEnd_le (filed : doc.Filed) (wf : doc.WellFormed source)
    (reached : doc.Reaches block) (kind : doc.kind block = .block) (hs : doc.span block = some s)
    (wide : s.lo < s.hi) : doc.contentEnd block s ≤ s.hi := by
  have ends : ∀ id slot, doc.Reaches id → (id = block ∧ slot = .inner ∨
      doc.Holds block id ∧ slot = .trailing) → ∀ n ∈ endsOf ((doc.node id).comments slot),
      n ≤ s.hi := by
    intro id slot inside place n mem
    obtain ⟨c, hc, t, ht, rfl⟩ := mem_endsOf mem
    exact filed.within wf.sound kind inside place hc ht hs
  unfold contentEnd
  split
  · rename_i last found
    have hold : doc.Holds block last := List.mem_of_getLast? found
    obtain ⟨u, hu, -⟩ := (wf.each last (reached.child hold)).spanned
    rw [hu]
    exact foldl_max_keeps (Q := (· ≤ s.hi)) ((wf.each block reached).nested s last u hs hold hu).2
      (ends last .trailing (reached.child hold) (.inr ⟨hold, rfl⟩))
  · exact foldl_max_keeps (Q := (· ≤ s.hi)) wide (ends block .inner reached (.inl ⟨rfl, rfl⟩))

/-- A directive in front of an alternate is printed in a row of its own where the content of the block
before ends. The alternate starts on the next line of what is printed if it starts on the line where
that content ends, or on the next one with nothing but blanks behind the content. -/
theorem annotateOne_tail {path : Text} (read : read? path source = .ok (some doc))
    (wf : doc.WellFormed source) (braced : doc.Braced source)
    (wide : ∀ s, doc.span block = some s → s.lo < s.hi) (tidy : '\n' ∉ rule)
    (brief : '\n' ∉ o.message) (located : doc.locate line = some (.blockTail block))
    (called : doc.annotateOne o line rule = .ok (doc', .inserted)) :
    ∃ s code t new rowLine codeLine, doc.span block = some s ∧
      (doc.startingOn line).head? = some code ∧ doc.span code = some t ∧ t.startLine = line ∧
      doc'.print source = .ok new ∧
      RowBehind source doc.eol.text (rowOf o rule) (doc.contentEnd block s) t.lo new rowLine
        codeLine ∧
      (rowLine + 1 = codeLine ↔
        BlankBehind source (doc.contentEnd block s) ∧
          source.BreaksBetween (doc.contentEnd block s) t.lo 1 ∨
        ¬ BlankBehind source (doc.contentEnd block s) ∧
          source.BreaksBetween (doc.contentEnd block s) t.lo 0) := by
  have sound := wf.sound
  have calls : doc.Calls doc' := ReflTransGen.single ⟨o, line, rule, .inserted, called⟩
  obtain ⟨sound', frame⟩ := calls.frame sound
  obtain ⟨reached, kind⟩ := sound.reaches_of_tail located
  obtain ⟨s, hs, -⟩ := (wf.each block reached).spanned
  have result : attachToBlockTail o doc block rule = (doc', .inserted) := by
    unfold annotateOne at called
    rw [located] at called
    exact Except.ok.inj called
  obtain ⟨a, b, indent, split, here, margin, printed⟩ :=
    attachToBlockTail_prints wf frame sound' reached kind hs braced result
  rw [sound.locate_eq] at located
  obtain ⟨code, found, aim⟩ := Option.map_eq_some_iff.mp located
  obtain ⟨rest, found⟩ := List.head?_eq_some_iff.mp found
  obtain ⟨reached', ⟨-, -, t, ht, start⟩, -⟩ := sound.first_spec found
  have le : bytes a ≤ t.lo := by
    rw [here]
    refine Nat.le_trans ?_ (sound.front_of_aim reached' aim hs ht)
    exact (filed_read? read sound).contentEnd_le wf reached kind hs (wide s hs)
  obtain ⟨a', b', split', lo⟩ := (sound.fits reached' ht).lo
  obtain ⟨m, rfl, rfl⟩ := exists_middle (split.symm.trans split') (by rw [lo]; exact le)
  obtain ⟨rowLine, codeLine, row, adjacent⟩ := rowBehind_of_row doc.eol
    split' (rowOf_break tidy brief) margin (Press.run_lineRun a (m ++ b'))
  rw [lo, here] at row adjacent
  rw [frame.eol] at printed
  exact ⟨s, code, t, _, rowLine, codeLine, hs, by rw [found]; rfl, ht, start, printed, row, adjacent⟩

/-- An alternate on the line on which the block before it ends. -/
def compactSource : Text := "if (a) \x7b\n  x;\n\x7d else if (b) \x7b\x7d".toList

def compactSample : Document where
  nodes := #[
    { kind := .program, span := some ⟨0, 30, 1, 3⟩, children := [1] },
    { kind := .conditional, span := some ⟨0, 30, 1, 3⟩, parent := some 0, children := [2, 3, 6] },
    { kind := .expression, span := some ⟨4, 5, 1, 1⟩, parent := some 1 },
    { kind := .block, span := some ⟨7, 15, 1, 3⟩, parent := some 1, children := [4] },
    { kind := .statement, span := some ⟨11, 13, 2, 2⟩, parent := some 3, children := [5] },
    { kind := .expression, span := some ⟨11, 12, 2, 2⟩, parent := some 4 },
    { kind := .conditional, span := some ⟨21, 30, 3, 3⟩, parent := some 1, children := [7, 8] },
    { kind := .expression, span := some ⟨25, 26, 3, 3⟩, parent := some 6 },
    { kind := .block, span := some ⟨28, 30, 3, 3⟩, parent := some 6 }]

set_option maxRecDepth 100000 in
theorem annotateOne_tail_compact : read? "a.js".toList compactSource = .ok (some compactSample) ∧
    compactSample.WellFormed compactSource ∧ compactSample.Braced compactSource ∧
    compactSample.locate 3 = some (.blockTail 3) ∧
    ∃ doc', compactSample.annotateOne briefOptions 3 ['r'] = .ok (doc', .inserted) ∧
      ∃ s code t new rowLine codeLine, compactSample.span 3 = some s ∧
        (compactSample.startingOn 3).head? = some code ∧ compactSample.span code = some t ∧
        t.startLine = 3 ∧ doc'.print compactSource = .ok new ∧
        RowBehind compactSource compactSample.eol.text (rowOf briefOptions ['r'])
          (compactSample.contentEnd 3 s) t.lo new rowLine codeLine ∧
        (rowLine + 1 = codeLine ↔
          BlankBehind compactSource (compactSample.contentEnd 3 s) ∧
            compactSource.BreaksBetween (compactSample.contentEnd 3 s) t.lo 1 ∨
          ¬ BlankBehind compactSource (compactSample.contentEnd 3 s) ∧
            compactSource.BreaksBetween (compactSample.contentEnd 3 s) t.lo 0) := by
  have read : read? "a.js".toList compactSource = .ok (some compactSample) := by
    apply read?_of_inOrder
    unfold compactSample compactSource
    simp only [String.reduceToList]
    decide +kernel
  have wf : compactSample.WellFormed compactSource := wellFormed_of_reads (by decide)
  have braced : compactSample.Braced compactSource := braced_of_table (by decide)
  have located : compactSample.locate 3 = some (.blockTail 3) := by decide
  obtain ⟨doc', called⟩ : ∃ doc', compactSample.annotateOne briefOptions 3 ['r'] =
      .ok (doc', .inserted) := ⟨_, rfl⟩
  have wide : ∀ s, compactSample.span 3 = some s → s.lo < s.hi := by
    intro s hs
    cases hs
    decide
  exact ⟨read, wf, braced, located, doc', called,
    annotateOne_tail read wf braced wide (by decide) (by decide) located called⟩

theorem exists_read_inserted {path text new rule : Text} {o : AnnotateOptions} {line : Nat} {t : Target}
    (h : (readInOrder? path text).any (fun doc => decide (doc.locate line = some t) &&
      (doc.annotateOne o line rule).toOption.any fun x =>
        decide (x.2 = .inserted ∧ x.1.print text = .ok new)) = true) :
    ∃ doc doc', read? path text = .ok (some doc) ∧ doc.locate line = some t ∧
      doc.annotateOne o line rule = .ok (doc', .inserted) ∧ doc'.print text = .ok new := by
  obtain ⟨doc, read, passes⟩ := (Option.any_eq_true _ _).mp h
  obtain ⟨located, called⟩ := (Bool.and_eq_true _ _).mp passes
  obtain ⟨⟨doc', r⟩, answer, printed⟩ := (Option.any_eq_true _ _).mp called
  obtain ⟨rfl, printed⟩ := of_decide_eq_true printed
  refine ⟨doc, doc', read?_of_inOrder read, of_decide_eq_true located, ?_, printed⟩
  cases result : doc.annotateOne o line rule with
  | error e =>
    rw [result] at answer
    cases answer
  | ok x =>
    rw [result] at answer
    cases answer
    rfl

set_option maxRecDepth 100000 in
/-- A blank line in front of the closing brace stays below the directive, which then speaks about the
blank line: the directive is on the third line of what is printed, the alternate on the fifth. -/
theorem annotateOne_tail_gapped :
    (∃ doc doc', read? "a.js".toList "if (a) \x7b\n  x;\n\n\x7d else if (b) \x7b\x7d".toList =
        .ok (some doc) ∧
      doc.locate 4 = some (.blockTail 3) ∧
      doc.annotateOne briefOptions 4 ['r'] = .ok (doc', .inserted) ∧
      doc'.print "if (a) \x7b\n  x;\n\n\x7d else if (b) \x7b\x7d".toList = .ok
        ("if (a) \x7b\n  x;\n  ".toList ++ rowOf briefOptions ['r'] ++ "\n\n\x7d else ".toList ++
          "if (b) \x7b\x7d".toList)) ∧
    breaks ("if (a) \x7b\n  x;\n  ".toList) = 2 ∧
    breaks ("if (a) \x7b\n  x;\n  ".toList ++ rowOf briefOptions ['r'] ++ "\n\n\x7d else ".toList) =
      4 := by
  have row : rowOf briefOptions ['r'] = "// eslint-disable-next-line r -- m".toList := by decide
  rw [row]
  simp only [String.reduceToList]
  exact ⟨exists_read_inserted (by decide +kernel), by decide, by decide⟩

end Document
end Quell
