import Quell.Proofs.Annotate.Among
import Quell.Proofs.Document.Around

/-!
The first node of a line, once the texts around it are cut.

When the siblings of a target are segmented, a part of a text in front of it can come to be the first
node of its line. Such a part stands in the group on the line, between the target and the place where
a markup comment goes: `Spot.head`.
-/
namespace Quell.Document

open Text Relation

structure Fore (doc : Document) (p target x : NodeId) : Prop where
  before : [x, target].Sublist (doc.children p)
  flat : ∀ b, [x, b, target].Sublist (doc.children p) → ¬ doc.Gap b
  value : ∃ t, doc.text? x = some t ∧ '\n' ∉ t
  whole : doc.Whole x

def Heads (doc : Document) (line : Nat) (p target : NodeId) : Prop :=
  ∃ x rest, doc.startingOn line = x :: rest ∧ (x = target ∨ doc.Fore p target x)

theorem Heads.hits {source : Text} {doc : Document} {line : Nat} {p target : NodeId}
    (heads : doc.Heads line p target) (sound : doc.Sound source)
    (markup : (doc.kind p).hasMarkupChildren = true) (hold : doc.Holds p target)
    (aim : doc.Starts line target) : doc.Hits line p target := by
  obtain ⟨x, rest, found, first⟩ := heads
  refine ⟨sound.outer_line found ?_ ?_, aim.2.2⟩
  · rcases first with rfl | fore
    · exact hold
    · exact fore.before.subset (by simp)
  · rintro rfl
    rw [sound.root_kind] at markup
    cases markup

theorem sublist_swap {xs A B N C : List NodeId} (sub : xs.Sublist (A ++ B ++ C))
    (stay : ∀ x ∈ xs, x ∉ B) : xs.Sublist (A ++ N ++ C) := by
  have kept := sub.filter fun x => decide (x ∉ B)
  have all : xs.filter (fun x => decide (x ∉ B)) = xs :=
    List.filter_eq_self.mpr fun x hx => decide_eq_true (stay x hx)
  have none : B.filter (fun x => decide (x ∉ B)) = [] :=
    List.filter_eq_nil_iff.mpr fun x hx => by simp [hx]
  rw [List.filter_append, List.filter_append, all, none, List.append_nil] at kept
  refine kept.trans ?_
  exact (List.filter_sublist.trans (List.sublist_append_left A N)).append List.filter_sublist

section Slit

variable {source : Text} {doc doc' : Document} {p target id x : NodeId} {A C : List NodeId}
variable {line : Nat}

theorem Sound.whole_before_gap (sound : doc.Sound source) (reached : doc.Reaches p)
    (markup : (doc.kind p).hasMarkupChildren = true) {b : NodeId}
    (sub : [x, b, target].Sublist (doc.children p)) (gap : doc.Gap b)
    (head : doc.kind x ≠ .openingTag) (last : doc.kind target ≠ .closingTag) : doc.Whole x := by
  obtain ⟨o, body, tail, closing, layout, -, -, tidy⟩ := (sound.each p reached).arranged markup
  refine tidy x b target ?_ gap
  have front : x ∉ [o] := by
    rw [List.mem_singleton]
    rintro rfl
    exact head layout.opening.1
  rw [layout.split] at sub
  have inner : [x, b, target].Sublist (body ++ tail ++ closing) := sublist_right front sub
  rcases layout.closing with rfl | ⟨c, rfl, kind, -⟩
  · rw [List.append_nil] at inner
    exact inner
  · obtain ⟨l, r, e, hl, hr⟩ := List.sublist_append_iff.mp inner
    rcases List.sublist_singleton.mp hr with rfl | rfl
    · rw [List.append_nil] at e
      exact e ▸ hl
    · have ends : [x, b, target].getLast? = some c := by rw [e, List.getLast?_concat]
      cases ends
      exact absurd kind last

theorem Recut.spanned_new {parts : List Text} {s : Span} (recut : doc.Recut doc' p A id C parts)
    (span : doc.span id = some s) {n : NodeId} (h : n ∈ List.range' doc.nodes.size parts.length) :
    doc'.span n ≠ none := by
  obtain ⟨i, lt, rfl⟩ := List.mem_range'.mp h
  have node := recut.part i parts[i] (List.getElem?_eq_getElem lt)
  rw [Nat.one_mul, span_of_node node, span]
  exact nofun

/-- A cut elsewhere leaves a part of the line where it is. -/
theorem Fore.recut {parts : List Text} {s : Span} (fore : doc.Fore p target x)
    (recut : doc.Recut doc' p A id C parts) (sound : doc.Sound source) (reached : doc.Reaches p)
    (span : doc.span id = some s) (apart : x ≠ id) (other : target ≠ id) :
    doc'.Fore p target x := by
  have hold : ∀ {y : NodeId}, y ∈ doc.children p → y ≠ id → doc.Keeps doc' y := fun h ne =>
    (recut.stays sound reached span h ne).2
  have old : ∀ {y : NodeId}, y ∈ doc.children p →
      y ∉ List.range' doc.nodes.size parts.length := by
    intro y hy new
    exact absurd (recut.splice.fresh y new).1 (Nat.not_le_of_lt (sound.linked.child_lt hy))
  have hx := fore.before.subset (show x ∈ [x, target] by simp)
  have ht := fore.before.subset (show target ∈ [x, target] by simp)
  have keeps := hold hx apart
  obtain ⟨t, value, free⟩ := fore.value
  refine ⟨?_, fun b sub gap => ?_, ⟨t, keeps.text?_eq.trans value, free⟩, keeps.whole fore.whole⟩
  · have before := fore.before
    rw [recut.splice.split] at before
    rw [recut.splice.children_here]
    exact sublist_swap before (by simp [apart, other])
  · have held : doc'.Holds p b := sub.subset (show b ∈ [x, b, target] by simp)
    rw [recut.splice.children_here] at sub
    have new : b ∉ List.range' doc.nodes.size parts.length := fun hb =>
      recut.spanned_new span hb gap.span_eq
    have back : [x, b, target].Sublist (doc.children p) := by
      rw [recut.splice.split]
      refine sublist_swap sub ?_
      simp only [List.mem_cons, List.not_mem_nil, or_false, forall_eq_or_imp, forall_eq]
      exact ⟨old hx, new, old ht⟩
    have hb : b ∈ doc.children p := back.subset (by simp)
    have stays := ((recut.splice.holds_old sound.linked (sound.reaches_lt reached)
      (sound.linked.child_lt hb)).mp held).2
    exact fore.flat b back (((hold hb (by simpa using stays)).gap_iff recut.splice.eol).mp gap)

theorem Recut.leaf_parts {parts : List Text} (recut : doc.Recut doc' p A id C parts)
    (linked : doc.Linked) {f : NodeId} (h : f ∈ (List.range' doc.nodes.size parts.length).flatMap
      (doc'.gather inOrder)) : f ∈ List.range' doc.nodes.size parts.length := by
  obtain ⟨n, hn, below⟩ := List.mem_flatMap.mp h
  obtain ⟨i, lt, rfl⟩ := List.mem_range'.mp hn
  have node := recut.part i parts[i] (List.getElem?_eq_getElem lt)
  have leaf : doc'.children (doc.nodes.size + 1 * i) = [] := by
    unfold children
    rw [Nat.one_mul, node]
  have valid : doc.nodes.size + 1 * i < doc'.nodes.size := by
    rw [recut.size, Nat.one_mul]
    omega
  rw [gather_eq (recut.splice.linked' linked) valid, leaf] at below
  rw [List.mem_singleton.mp below]
  exact hn

theorem Recut.fore {t : Text} {s : Span} (recut : doc.Recut doc' p A id C t.segments)
    (sound : doc.Sound source) (reached : doc.Reaches p)
    (markup : (doc.kind p).hasMarkupChildren = true) (span : doc.span id = some s)
    (value : doc.text? id = some t) (loose : ¬ Settled t) (behind : target ∈ C)
    (last : doc.kind target ≠ .closingTag) {f : NodeId}
    (part : f ∈ List.range' doc.nodes.size t.segments.length)
    (solid : doc'.isBlankText f = false) : doc'.Fore p target f := by
  have kids := recut.splice.children_here
  obtain ⟨i, lt, rfl⟩ := List.mem_range'.mp part
  rw [Nat.one_mul] at part solid ⊢
  have node := recut.part i t.segments[i] (List.getElem?_eq_getElem lt)
  have text := text?_of_node node rfl
  have fragment := fragment_of_mem_segments (List.getElem_mem lt)
  have ink : allBlank t.segments[i] = false := by
    unfold isBlankText at solid
    rw [text] at solid
    exact solid
  have notA : doc.nodes.size + i ∉ A := by
    intro h
    have old : doc.Holds p (doc.nodes.size + i) := by
      unfold Holds
      rw [recut.splice.split]
      simp [h]
    exact absurd (sound.linked.child_lt old) (Nat.not_lt_of_le (Nat.le_add_right _ _))
  refine ⟨?_, fun b sub gap => ?_, ⟨_, text, fragment.free_of_not_blank ink⟩, fun u hu => ?_⟩
  · rw [kids, List.append_assoc]
    refine List.Sublist.trans ?_ (List.sublist_append_right A _)
    exact (List.singleton_sublist.mpr part).append (List.singleton_sublist.mpr behind)
  · rw [kids, List.append_assoc] at sub
    have tail : [b, target].Sublist (List.range' doc.nodes.size t.segments.length ++ C) :=
      ((List.sublist_cons_self _ _).trans (sublist_right notA sub))
    have new : b ∉ List.range' doc.nodes.size t.segments.length := fun hb =>
      recut.spanned_new span hb gap.span_eq
    have pair := sublist_right new tail
    have whole : [id, b, target].Sublist (doc.children p) := by
      rw [recut.splice.split, List.append_assoc]
      exact (pair.cons_cons id).trans (List.sublist_append_right A _)
    have hb : b ∈ doc.children p := whole.subset (by simp)
    have nodup := sound.linked.nodup p
    have apart : b ≠ id := by
      rintro rfl
      rw [recut.splice.split, List.append_assoc] at nodup
      have tail := (List.nodup_append.mp nodup).2.1
      exact (List.nodup_cons.mp tail).1 (pair.subset (by simp))
    have keeps := (recut.stays sound reached span hb apart).2
    refine loose (sound.whole_before_gap reached markup whole ((keeps.gap_iff recut.splice.eol).mp gap)
      (plain_of_text value).1 last t value)
  · cases text.symm.trans hu
    exact fragment.settled

theorem Heads.slit (heads : doc.Heads line p target) (slit : Slit p target doc doc')
    (sound : doc.Sound source) (reached : doc.Reaches p)
    (markup : (doc.kind p).hasMarkupChildren = true) (hold : doc.Holds p target)
    (starts : doc.starts? line target = true) (last : doc.kind target ≠ .closingTag) :
    doc'.Heads line p target := by
  obtain ⟨A, id, C, t, s, ne, span, value, loose, recut⟩ := slit
  obtain ⟨x, rest, found, kind⟩ := heads
  have apart : x ≠ id := by
    rintro rfl
    rcases kind with e | fore
    · exact ne e
    · exact loose (fore.whole t value)
  have stays : x = target ∨ doc'.Fore p target x :=
    kind.imp_right fun fore => fore.recut recut sound reached span apart (Ne.symm ne)
  obtain ⟨U, V, old, now, front⟩ :=
    recut.splice.startingOn_around sound.linked sound.root_lt reached line
  cases U with
  | cons u U =>
    rw [found] at old
    cases old
    exact ⟨x, _, now, stays⟩
  | nil =>
    -- Nothing starts on the line in front of the text that is cut, so the target stands behind it.
    have behind : target ∈ C := by
      unfold Holds at hold
      rw [recut.splice.split] at hold
      simp only [List.mem_append, List.mem_singleton] at hold
      rcases hold with (h | h) | h
      · exact nomatch front target h starts
      · exact absurd h (Ne.symm ne)
      · exact h
    have quiet : [id].filter (doc.starts? line) = [] := by
      rw [List.filter_eq_nil_iff]
      intro y hy started
      rw [List.mem_singleton.mp hy] at started
      rw [found, List.nil_append, List.filter_cons_of_pos started] at old
      cases old
      exact apart rfl
    rw [found, quiet, List.nil_append, List.nil_append] at old
    rw [← old] at now
    cases new : (List.flatMap (doc'.gather inOrder)
        (List.range' doc.nodes.size t.segments.length)).filter (doc'.starts? line) with
    | nil =>
      rw [new] at now
      exact ⟨x, rest, now, stays⟩
    | cons f fs =>
      rw [new] at now
      have mem : f ∈ (List.flatMap (doc'.gather inOrder)
          (List.range' doc.nodes.size t.segments.length)).filter (doc'.starts? line) := by
        rw [new]
        exact List.mem_cons_self
      obtain ⟨inside, started⟩ := List.mem_filter.mp mem
      have part := recut.leaf_parts sound.linked inside
      refine ⟨f, fs ++ x :: rest, now, .inr ?_⟩
      exact recut.fore sound reached markup span value loose behind last part
        (starts?_iff.mp started).2.1

theorem Heads.slits (slits : Slits p target doc doc') (heads : doc.Heads line p target)
    (sound : doc.Sound source) (reached : doc.Reaches p)
    (markup : (doc.kind p).hasMarkupChildren = true) (hold : doc.Holds p target)
    (starts : doc.starts? line target = true) (last : doc.kind target ≠ .closingTag) :
    doc'.Heads line p target := by
  induction slits with
  | refl => exact heads
  | @tail mid _ before slit ih =>
    obtain ⟨sound', reached', kind, keeps⟩ := Slits.spec before sound reached markup
    obtain ⟨hold', kind', span'⟩ := keeps hold
    refine ih.slit slit sound' reached' (by rw [kind]; exact markup) hold' ?_ ?_
    · rw [starts?_congr kind' span']
      exact starts
    · rw [kind']
      exact last

end Slit

section Spot

variable {source : Text} {doc : Document} {p target x first : NodeId}
variable {X₁ X₂ R closing : List NodeId} {line : Nat}

theorem OnLine.not_endsAbove (on : doc.OnLine line x) : ¬ doc.EndsAbove line x := by
  rintro (⟨t, value, breaks⟩ | ⟨none, s, span, other⟩)
  · rcases on.2 with ⟨u, hu, free⟩ | ⟨none, -⟩
    · cases value.symm.trans hu
      exact free breaks
    · cases value.symm.trans none
  · rcases on.2 with ⟨u, hu, -⟩ | ⟨-, u, hu, same⟩
    · cases none.symm.trans hu
    · cases span.symm.trans hu
      exact other same

/-- There is one way to tell a group from what stands above it. -/
theorem Group.unique {Y₁ Y₂ : List NodeId} (group : doc.Group line X₁ X₂)
    (group' : doc.Group line Y₁ Y₂) (same : X₁ ++ X₂ = Y₁ ++ Y₂) : X₁ = Y₁ ∧ X₂ = Y₂ := by
  have one : ∀ {A B Z : List NodeId}, doc.Group line (A ++ Z) B → (∀ z ∈ Z, doc.OnLine line z) →
      Z = [] := by
    intro A B Z above on
    rcases List.eq_nil_or_concat Z with rfl | ⟨Z', z, rfl⟩
    · rfl
    · have here := above.above z (by simp)
      exact absurd here (on z (by simp)).not_endsAbove
  rcases List.append_eq_append_iff.mp same with ⟨Z, rfl, rfl⟩ | ⟨Z, rfl, rfl⟩
  · have := one group' fun z hz => group.on z (by simp [hz])
    subst this
    simp
  · have := one group fun z hz => group'.on z (by simp [hz])
    subst this
    simp

theorem mem_before {y z : NodeId} {P S : List NodeId} (nodup : (P ++ z :: S).Nodup)
    (sub : [y, z].Sublist (P ++ z :: S)) : y ∈ P := by
  obtain ⟨l, r, e, hl, hr⟩ := List.sublist_append_iff.mp sub
  have apart := List.nodup_middle.mp nodup
  have notin := (List.nodup_cons.mp apart).1
  match l, e with
  | [], e =>
    subst e
    rcases List.sublist_cons_iff.mp hr with h | ⟨r', e, h⟩
    · exact absurd (List.mem_append_right P (h.subset (by simp))) notin
    · cases e
      exact absurd (List.mem_append_right P (h.subset (by simp))) notin
  | a :: l, e =>
    have head : y = a := by simpa using congrArg List.head? e
    rw [head]
    exact hl.subset List.mem_cons_self

/-- A part of the line in front of a target stands in the group on the line. -/
theorem Spot.head (spot : doc.Spot p target line first X₁ X₂ R closing) (sound : doc.Sound source)
    (reached : doc.Reaches p) (fore : doc.Fore p target x) (starts : doc.Starts line x)
    (aim : doc.Starts line target) : x ∈ X₂ := by
  have split := spot.layout.split
  have nodup := sound.linked.nodup p
  have shape : doc.children p = (first :: (X₁ ++ X₂)) ++ target :: (R ++ closing) := by
    rw [split]
    simp
  obtain ⟨t, value, free⟩ := fore.value
  have before := fore.before
  rw [shape] at nodup before
  have mem := mem_before nodup before
  rcases List.mem_cons.mp mem with rfl | mem
  · exact absurd spot.layout.opening.1 (plain_of_text value).1
  rcases List.mem_append.mp mem with above | on
  · -- Above the line the last sibling would have to start on the line and to end above it.
    obtain ⟨A, B, rfl⟩ := List.append_of_mem above
    exfalso
    rcases List.eq_nil_or_concat B with rfl | ⟨B', b, rfl⟩
    · rcases spot.group.above x (by simp) with ⟨u, hu, breaks⟩ | ⟨none, -⟩
      · cases value.symm.trans hu
        exact free breaks
      · cases value.symm.trans none
    · rw [List.concat_eq_append] at *
      have between : [x, b, target].Sublist (doc.children p) := by
        have pair : [x, b].Sublist (x :: (B' ++ [b])) :=
          (List.singleton_sublist.mpr (by simp)).cons_cons x
        have front : [x, b].Sublist (first :: (A ++ x :: (B' ++ [b]) ++ X₂)) :=
          ((pair.trans (List.sublist_append_right A _)).trans (List.sublist_append_left _ X₂)).cons first
        rw [shape]
        exact front.append (List.singleton_sublist.mpr List.mem_cons_self)
      have order := (sound.each p reached).ordered.sublist between
      simp only [List.pairwise_cons, List.mem_cons, List.not_mem_nil, or_false, forall_eq_or_imp,
        forall_eq, List.Pairwise.nil, and_true, false_implies, implies_true] at order
      have ends := spot.group.above b (by
        rw [← List.cons_append, ← List.append_assoc, List.getLast?_concat]
        rfl)
      have held : ∀ {y : NodeId}, y ∈ [x, b, target] → doc.Reaches y := fun hy =>
        reached.child (between.subset hy)
      obtain ⟨-, -, s, hs, sline⟩ := starts
      obtain ⟨-, -, u, hu, uline⟩ := aim
      have fits := sound.fits (held (by simp)) hs
      rcases spot.rows.mem (show b ∈ A ++ x :: (B' ++ [b]) by simp) with spanned | note | gap
      · obtain ⟨v, hv⟩ := Option.ne_none_iff_exists'.mp spanned
        have fits' := sound.fits (held (by simp)) hv
        have fits'' := sound.fits (held (by simp)) hu
        have low := fits.endLine_le fits' (order.1.1 s v hs hv)
        have high := fits'.endLine_le fits'' (order.2 v u hv hu)
        have := fits.lines_le
        have := fits'.lines_le
        rcases ends with ⟨w, hw, breaks⟩ | ⟨-, v', hv', other⟩
        · have inside := ((sound.each b (held (by simp))).text w hw).2.2 v hv
          have count := fits'.endLine_eq inside
          have : 0 < Text.breaks w := List.count_pos_iff.mpr breaks
          omega
        · cases hv.symm.trans hv'
          omega
      · rcases ends with ⟨w, hw, -⟩ | ⟨-, v, hv, -⟩
        · cases note.text?_eq.symm.trans hw
        · cases note.span_eq.symm.trans hv
      · exact fore.flat b between gap
  · exact on

end Spot

end Quell.Document
