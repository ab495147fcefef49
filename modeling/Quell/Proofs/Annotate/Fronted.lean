import Quell.Proofs.Annotate.Head
import Quell.Proofs.Print.Around

/-!
A markup comment above the line of a target.

Once a call among siblings is settled, the comment that covers its rule stands above the group on the
line, whichever node has come to be the first one there. So a second call ends at the same comment.
It may cut a text on the way, which prints as before: `Ready.again`.
-/
namespace Quell.Document

open Text Relation

variable {source : Text} {doc doc' : Document} {o : AnnotateOptions} {rule : Text} {line : Nat}
variable {p target : NodeId}

structure Fronted (doc : Document) (rule : Text) (line : Nat) (p target o : NodeId)
    (X Y S : List NodeId) (e : NodeId) : Prop where
  split : doc.children p = o :: (X ++ Y ++ target :: S)
  tag : doc.kind o = .openingTag
  group : doc.Group line X Y
  whole : ∀ x ∈ X ++ Y, doc.Whole x
  slot : doc.nearestSlot X = some e
  covers : doc.Covers e .inner rule

theorem commentSlot_congr {h : NodeId} (kind : doc'.kind h = doc.kind h)
    (children : doc'.children h = doc.children h)
    (inner : ∀ c, doc.Holds h c → doc'.kind c = doc.kind c) :
    doc'.commentSlot h = doc.commentSlot h := by
  unfold commentSlot
  rw [kind, children]
  unfold Holds at inner
  generalize doc.children h = cs at inner
  cases doc.kind h with
  | hole =>
    cases cs with
    | nil => rfl
    | cons c cs =>
      dsimp only
      rw [inner c List.mem_cons_self]
  | _ => rfl

theorem nearestSlot_congr {X : List NodeId} (text : ∀ x ∈ X, doc'.text? x = doc.text? x)
    (slot : ∀ x ∈ X, doc'.commentSlot x = doc.commentSlot x) :
    doc'.nearestSlot X = doc.nearestSlot X := by
  have blank : ∀ x ∈ X, doc'.isBlankText x = doc.isBlankText x := by
    intro x hx
    unfold isBlankText
    rw [text x hx]
  have found : X.reverse.find? (!doc'.isBlankText ·) = X.reverse.find? (!doc.isBlankText ·) := by
    have all : ∀ x ∈ X.reverse, doc'.isBlankText x = doc.isBlankText x := fun x hx =>
      blank x (List.mem_reverse.mp hx)
    generalize X.reverse = xs at all
    induction xs with
    | nil => rfl
    | cons x xs ih =>
      rw [List.find?_cons, List.find?_cons, all x List.mem_cons_self,
        ih fun y hy => all y (List.mem_cons_of_mem _ hy)]
  unfold nearestSlot
  rw [found]
  cases hit : X.reverse.find? (!doc.isBlankText ·) with
  | none => rfl
  | some x => exact slot x (List.mem_reverse.mp (List.mem_of_find?_eq_some hit))

theorem Group.transport {X Y : List NodeId} (group : doc.Group line X Y)
    (same : ∀ x ∈ X ++ Y, doc'.text? x = doc.text? x ∧ doc'.span x = doc.span x) :
    doc'.Group line X Y := by
  refine ⟨fun x hx => ?_, fun b hb => ?_⟩
  · obtain ⟨text, span⟩ := same x (List.mem_append_right _ hx)
    unfold OnLine
    rw [text, span]
    exact group.on x hx
  · obtain ⟨text, span⟩ := same b (List.mem_append_left _ (List.mem_of_getLast? hb))
    unfold EndsAbove
    rw [text, span]
    exact group.above b hb

/-- Behind segmentation the merge settles the call. -/
theorem Fronted.place {first e : NodeId} {X Y S : List NodeId}
    (fronted : doc.Fronted rule line p target first X Y S e) (o : AnnotateOptions)
    (sound : doc.Sound source) (reached : doc.Reaches p)
    (markup : (doc.kind p).hasMarkupChildren = true) (spanned : doc.span target ≠ none)
    (plain : doc.kind target ≠ .openingTag ∧ doc.kind target ≠ .closingTag)
    (whole : ∀ x, doc.Holds p x → x = target ∨ doc.Whole x) :
    doc.placeAmong o p target line rule = .ok (doc, .alreadySuppressed) := by
  have hold : doc.Holds p target := by
    unfold Holds
    rw [fronted.split]
    simp
  obtain ⟨o', X₁, X₂, R, closing, spot, position, start⟩ :=
    sound.spot reached markup hold spanned plain whole line
  have nodup := sound.linked.nodup p
  have same : o' :: (X₁ ++ X₂) ++ target :: (R ++ closing) = first :: (X ++ Y) ++ target :: S := by
    rw [List.cons_append, List.cons_append, ← fronted.split, spot.layout.split]
    simp
  have shape : doc.children p = first :: (X ++ Y) ++ target :: S := fronted.split
  rw [shape, ← same] at nodup
  have front := (split_unique nodup same).1
  obtain ⟨rfl, rfl⟩ := spot.group.unique fronted.group (List.cons.inj front).2
  have layout : doc.Layout p o' (X₁ ++ (X₂ ++ target :: R)) closing := by
    rw [← List.append_assoc]
    exact spot.layout
  have inside : ¬ ((1 + (X₁ ++ X₂).length < 1 ||
      1 + (X₁ ++ X₂ ++ target :: R).length ≤ 1 + (X₁ ++ X₂).length) = true) := by
    simp
  unfold placeAmong
  rw [spot.layout.markupRange markup, position]
  dsimp only
  rw [if_neg inside, start, mergeBefore_eq layout markup, fronted.slot]
  dsimp only
  rw [fronted.covers.mergeInto_eq]
  rfl

theorem Splice.commentSlot_eq {q h : NodeId} {A B N C : List NodeId}
    (splice : doc.Splice doc' q A B N C) (linked : doc.Linked) (lt : h < doc.nodes.size)
    (ne : h ≠ q) : doc'.commentSlot h = doc.commentSlot h :=
  commentSlot_congr (splice.content lt).1 (splice.children_rest lt ne) fun _ hc =>
    (splice.content (linked.child_lt hc)).1

theorem Splice.covers {q e : NodeId} {slot : Slot} {A B N C : List NodeId}
    (splice : doc.Splice doc' q A B N C) (lt : e < doc.nodes.size)
    (covers : doc.Covers e slot rule) : doc'.Covers e slot rule := by
  obtain ⟨cs, c, held, suppresses⟩ := covers
  exact ⟨cs, c, ((splice.content lt).2.2 slot).trans held, suppresses⟩

theorem Splice.text?_eq {q h : NodeId} {A B N C : List NodeId}
    (splice : doc.Splice doc' q A B N C) (lt : h < doc.nodes.size) :
    doc'.text? h = doc.text? h := by
  unfold text?
  rw [(splice.content lt).1]

/-- What stands above a group stays above it when a later child list changes. -/
theorem Fronted.splice {first e : NodeId} {X Y S S' : List NodeId} {A B N C : List NodeId}
    (fronted : doc.Fronted rule line p target first X Y S e)
    (splice : doc.Splice doc' p A B N C) (linked : doc.Linked)
    (split : doc'.children p = first :: (X ++ Y ++ target :: S')) :
    doc'.Fronted rule line p target first X Y S' e := by
  have held : ∀ x ∈ first :: (X ++ Y), doc.Holds p x := by
    intro x hx
    have shape : doc.children p = first :: (X ++ Y) ++ target :: S := fronted.split
    unfold Holds
    rw [shape]
    exact List.mem_append_left _ hx
  have lt : ∀ x ∈ first :: (X ++ Y), x < doc.nodes.size := fun x hx => linked.child_lt (held x hx)
  have ne : ∀ x ∈ first :: (X ++ Y), x ≠ p := by
    rintro x hx rfl
    exact linked.not_below_of_holds (held x hx) ReflTransGen.refl
  have above : ∀ x ∈ X, x ∈ first :: (X ++ Y) := fun x hx => by simp [hx]
  have on : ∀ x ∈ X ++ Y, x ∈ first :: (X ++ Y) := fun x hx => List.mem_cons_of_mem _ hx
  obtain ⟨h, hh, inner, -⟩ := nearestSlot_holds fronted.slot
  refine ⟨split, ?_, fronted.group.transport fun x hx => ?_, fun x hx t ht => ?_, ?_, ?_⟩
  · rw [(splice.content (lt first List.mem_cons_self)).1]
    exact fronted.tag
  · exact ⟨splice.text?_eq (lt x (on x hx)), (splice.content (lt x (on x hx))).2.1⟩
  · rw [splice.text?_eq (lt x (on x hx))] at ht
    exact fronted.whole x hx t ht
  · rw [nearestSlot_congr (fun x hx => splice.text?_eq (lt x (above x hx))) fun x hx =>
      splice.commentSlot_eq linked (lt x (above x hx)) (ne x (above x hx))]
    exact fronted.slot
  · exact splice.covers (linked.child_lt inner) fronted.covers

theorem Fronted.slit {first e : NodeId} {X Y S : List NodeId}
    (fronted : doc.Fronted rule line p target first X Y S e) (slit : Slit p target doc doc')
    (sound : doc.Sound source) : ∃ S', doc'.Fronted rule line p target first X Y S' e := by
  obtain ⟨A, id, C, t, s, ne, -, value, loose, recut⟩ := slit
  have shape : doc.children p = first :: (X ++ Y) ++ target :: S := fronted.split
  have held : id ∈ doc.children p := recut.splice.holds_of_mem (List.mem_singleton_self id)
  have nodup := sound.linked.nodup p
  have cut := recut.splice.split
  rw [shape] at held nodup cut
  have later : id ∈ S := by
    rcases List.mem_append.mp held with h | h
    · rcases List.mem_cons.mp h with rfl | h
      · exact absurd fronted.tag (plain_of_text value).1
      · exact absurd (fronted.whole id h t value) loose
    · exact (List.mem_cons.mp h).resolve_left ne
  obtain ⟨S₁, S₂, rfl⟩ := List.append_of_mem later
  have regroup : first :: (X ++ Y) ++ target :: (S₁ ++ id :: S₂) =
      (first :: (X ++ Y) ++ target :: S₁) ++ id :: S₂ := by
    simp
  rw [regroup] at nodup cut
  have same : (first :: (X ++ Y) ++ target :: S₁) ++ id :: S₂ = A ++ id :: C := by
    rw [cut]
    simp
  obtain ⟨rfl, rfl⟩ := split_unique nodup same
  refine ⟨S₁ ++ List.range' doc.nodes.size t.segments.length ++ S₂,
    fronted.splice recut.splice sound.linked ?_⟩
  rw [recut.splice.children_here]
  simp

def Inked (doc : Document) (p : NodeId) : Prop := ∀ x, doc.Holds p x → doc.text? x ≠ some []

theorem not_settled_nil : ¬ Settled [] := by
  unfold Settled
  decide

theorem Whole.ne_nil {x : NodeId} (whole : doc.Whole x) : doc.text? x ≠ some [] := fun h =>
  not_settled_nil (whole [] h)

/-- A cut of an element without empty texts prints as before. -/
theorem Slit.print_eq (slit : Slit p target doc doc') (sound : doc.Sound source)
    (clear : doc.Clear) (reached : doc.Reaches p)
    (markup : (doc.kind p).hasMarkupChildren = true) (inked : doc.Inked p) :
    doc'.print source = doc.print source ∧ doc'.Clear ∧ doc'.Inked p := by
  obtain ⟨A, id, C, t, s, -, span, value, loose, recut⟩ := slit
  have hold := recut.splice.holds_of_mem (List.mem_singleton_self id)
  have edit : Edit default [] doc doc' :=
    .cut reached markup span (fun u hu => settled_of_mem_segments hu) recut (isChain_segments t)
  refine ⟨?_, edit.clear sound clear, ?_⟩
  · cases parts : t.segments with
    | nil =>
      have empty : t = [] := by
        rw [← segments_flatten t, parts]
        rfl
      rw [empty] at value
      exact absurd value (inked id hold)
    | cons u us =>
      rw [parts] at recut
      exact recut.print_eq sound clear reached markup span
  · intro x hx
    unfold Holds at hx
    rw [recut.splice.children_here] at hx
    rcases List.mem_append.mp hx with hx | hx
    · rcases List.mem_append.mp hx with hx | hx
      · have old : doc.Holds p x := by
          unfold Holds
          rw [recut.splice.split]
          simp [hx]
        rw [recut.splice.text?_eq (sound.linked.child_lt old)]
        exact inked x old
      · obtain ⟨i, lt, rfl⟩ := List.mem_range'.mp hx
        have node := recut.part i t.segments[i] (List.getElem?_eq_getElem lt)
        have settled := settled_of_mem_segments (List.getElem_mem lt)
        rw [Nat.one_mul, text?_of_node node rfl]
        intro nil
        rw [Option.some.inj nil] at settled
        exact not_settled_nil settled
    · have old : doc.Holds p x := by
        unfold Holds
        rw [recut.splice.split]
        simp [hx]
      rw [recut.splice.text?_eq (sound.linked.child_lt old)]
      exact inked x old

theorem Slits.print_eq (slits : Slits p target doc doc') (sound : doc.Sound source)
    (clear : doc.Clear) (reached : doc.Reaches p)
    (markup : (doc.kind p).hasMarkupChildren = true) (inked : doc.Inked p) :
    doc'.print source = doc.print source ∧ doc'.Clear ∧ doc'.Inked p := by
  induction slits with
  | refl => exact ⟨rfl, clear, inked⟩
  | @tail mid _ before slit ih =>
    obtain ⟨printed, clear', inked'⟩ := ih
    obtain ⟨sound', reached', kind, -⟩ := Slits.spec before sound reached markup
    obtain ⟨printed', rest⟩ := slit.print_eq sound' clear' reached' (by rw [kind]; exact markup) inked'
    exact ⟨printed'.trans printed, rest⟩

theorem Fronted.slits {first e : NodeId} {X Y S : List NodeId}
    (fronted : doc.Fronted rule line p target first X Y S e) (slits : Slits p target doc doc')
    (sound : doc.Sound source) (reached : doc.Reaches p)
    (markup : (doc.kind p).hasMarkupChildren = true) :
    ∃ S', doc'.Fronted rule line p target first X Y S' e := by
  induction slits with
  | refl => exact ⟨S, fronted⟩
  | @tail mid _ before slit ih =>
    obtain ⟨S', fronted'⟩ := ih
    exact fronted'.slit slit (Slits.spec before sound reached markup).1

/-- A second call for a target below a markup comment that covers the rule. -/
theorem Fronted.again {first e : NodeId} {X Y S : List NodeId}
    (fronted : doc.Fronted rule line p target first X Y S e) (o : AnnotateOptions)
    (sound : doc.Sound source) (clear : doc.Clear) (reached : doc.Reaches p)
    (markup : (doc.kind p).hasMarkupChildren = true) (inked : doc.Inked p)
    (spanned : doc.span target ≠ none)
    (plain : doc.kind target ≠ .openingTag ∧ doc.kind target ≠ .closingTag)
    (own : ∀ e, doc.commentSlot target = some e →
      doc.mergeInto e .inner rule = (doc, .notADirective)) :
    ∃ doc', attachAmongSiblings o doc p target line rule = .ok (doc', .alreadySuppressed) ∧
      doc'.print source = doc.print source := by
  have hold : doc.Holds p target := by
    unfold Holds
    rw [fronted.split]
    simp
  obtain ⟨cut, segmented, slits, whole⟩ := segmentChildren_ok target sound reached markup
  obtain ⟨sound', reached', kind, keep⟩ := slits.spec sound reached markup
  obtain ⟨-, kind', span'⟩ := keep hold
  obtain ⟨S', fronted'⟩ := fronted.slits slits sound reached markup
  refine ⟨cut, ?_, (slits.print_eq sound clear reached markup inked).1⟩
  rw [attachAmong_eq_place o line rule markup own, segmented]
  exact fronted'.place o sound' reached' (by rw [kind]; exact markup) (by rw [span']; exact spanned)
    (by rw [kind']; exact plain) whole

def Unread (doc : Document) (rule : Text) (target : NodeId) : Prop :=
  ∀ e, doc.commentSlot target = some e → doc.mergeInto e .inner rule = (doc, .notADirective)

theorem mergeInto_snd_congr {e : NodeId} {slot : Slot}
    (same : (doc'.node e).comments slot = (doc.node e).comments slot) :
    (doc'.mergeInto e slot rule).2 = (doc.mergeInto e slot rule).2 := by
  unfold mergeInto
  rw [same]

theorem Unread.congr (unread : doc.Unread rule target)
    (slot : doc'.commentSlot target = doc.commentSlot target)
    (same : ∀ e, doc.commentSlot target = some e →
      (doc'.node e).comments .inner = (doc.node e).comments .inner) :
    doc'.Unread rule target := by
  intro e found
  rw [slot] at found
  apply mergeInto_unsettled
  rw [mergeInto_snd_congr (same e found), unread e found]
  rfl

theorem Unread.splice {q : NodeId} {A B N C : List NodeId} (unread : doc.Unread rule target)
    (splice : doc.Splice doc' q A B N C) (linked : doc.Linked) (lt : target < doc.nodes.size)
    (ne : target ≠ q) : doc'.Unread rule target := by
  refine unread.congr (splice.commentSlot_eq linked lt ne) fun e found => ?_
  exact (splice.content (linked.child_lt (commentSlot_holds found).1)).2.2 .inner

theorem Unread.slits (unread : doc.Unread rule target) (slits : Slits p target doc doc')
    (sound : doc.Sound source) (reached : doc.Reaches p)
    (markup : (doc.kind p).hasMarkupChildren = true) (hold : doc.Holds p target) :
    doc'.Unread rule target := by
  induction slits with
  | refl => exact unread
  | @tail mid _ before slit ih =>
    obtain ⟨sound', -, -, keep⟩ := Slits.spec before sound reached markup
    have hold' := (keep hold).1
    obtain ⟨A, id, C, t, s, -, -, -, -, recut⟩ := slit
    refine ih.splice recut.splice sound'.linked (sound'.linked.child_lt hold') ?_
    rintro rfl
    exact sound'.linked.not_below_of_holds hold' ReflTransGen.refl

theorem unread_of_text {t : Text} (value : doc.text? target = some t) :
    doc.Unread rule target := by
  intro e found
  obtain ⟨-, -⟩ := commentSlot_holds found
  unfold commentSlot at found
  unfold text? at value
  cases kind : doc.kind target with
  | text u =>
    rw [kind] at found
    cases found
  | _ =>
    rw [kind] at value
    cases value

def Plain (doc : Document) (id : NodeId) : Prop :=
  doc.kind id ≠ .openingTag ∧ doc.kind id ≠ .closingTag ∧ doc.kind id ≠ .attribute

theorem Plain.congr {id : NodeId} (plain : doc.Plain id) (kind : doc'.kind id = doc.kind id) :
    doc'.Plain id := by
  unfold Plain
  rw [kind]
  exact plain

theorem plain_text {id : NodeId} {t : Text} (value : doc.text? id = some t) : doc.Plain id := by
  refine ⟨(plain_of_text value).1, (plain_of_text value).2, fun kind => ?_⟩
  unfold text? at value
  rw [kind] at value
  cases value

structure Ready (doc : Document) (rule : Text) (line : Nat) (p x : NodeId) : Prop where
  found : ∃ rest, doc.startingOn line = x :: rest
  fronted : ∃ first X Y S e, doc.Fronted rule line p x first X Y S e
  inked : doc.Inked p
  unread : doc.Unread rule x
  plain : doc.Plain x

section Spot

variable {first x : NodeId} {X₁ X₂ R closing : List NodeId}

/-- The first node of the line, seen from the group on it. -/
theorem Heads.spot (heads : doc.Heads line p target)
    (spot : doc.Spot p target line first X₁ X₂ R closing) (sound : doc.Sound source)
    (reached : doc.Reaches p) (aim : doc.Starts line target) (unread : doc.Unread rule target)
    (plain : doc.Plain target) :
    ∃ x rest Y S, doc.startingOn line = x :: rest ∧
      X₂ ++ target :: (R ++ closing) = Y ++ x :: S ∧ (∀ y ∈ Y, y ∈ X₂) ∧
      doc.Unread rule x ∧ doc.Plain x := by
  obtain ⟨x, rest, found, kind⟩ := heads
  rcases kind with rfl | fore
  · exact ⟨x, rest, X₂, R ++ closing, found, rfl, fun _ hy => hy, unread, plain⟩
  · have starts := (sound.mem_startingOn.mp (found ▸ List.mem_cons_self)).2
    obtain ⟨Y, W, rfl⟩ := List.append_of_mem (spot.head sound reached fore starts aim)
    obtain ⟨t, value, -⟩ := fore.value
    refine ⟨x, rest, Y, W ++ target :: (R ++ closing), found, ?_, fun y hy => ?_,
      unread_of_text value, plain_text value⟩
    · simp
    · exact List.mem_append_left _ hy

theorem Spot.merge_ready {e : NodeId} {r : Resolution} (heads : doc.Heads line p target)
    (spot : doc.Spot p target line first X₁ X₂ R closing) (sound : doc.Sound source)
    (reached : doc.Reaches p) (aim : doc.Starts line target) (unread : doc.Unread rule target)
    (plain : doc.Plain target) (inked : doc.Inked p)
    (slot : doc.nearestSlot X₁ = some e) (name : RuleName rule)
    (settled : Resolution.ofMerge (doc.mergeInto e .inner rule).2 = some r) :
    ∃ x, (doc.mergeInto e .inner rule).1.Ready rule line p x := by
  obtain ⟨x, rest, Y, S, found, split, part, unread', plain'⟩ :=
    heads.spot spot sound reached aim unread plain
  obtain ⟨h, above, inner, -⟩ := nearestSlot_holds slot
  have shape : doc.children p = first :: (X₁ ++ Y ++ x :: S) := by
    rw [spot.layout.split, List.append_assoc X₁ Y, ← split]
    simp
  have held : ∀ y ∈ first :: (X₁ ++ Y ++ x :: S), doc.Holds p y := by
    intro y hy
    unfold Holds
    rw [shape]
    exact hy
  have valid : e < doc.nodes.size := sound.linked.child_lt inner
  -- The merge changes comments of the slot alone.
  have tree := fun j => @tree_setComments doc e .inner
    (Comment.mergeLast ((doc.node e).comments .inner) rule).1 j
  have covers := mergeInto_covers valid name settled
  have same : (doc.mergeInto e .inner rule).1 = doc.update e (·.setComments .inner
      (Comment.mergeLast ((doc.node e).comments .inner) rule).1) := rfl
  have started := startingOn_setComments sound.linked sound.root_lt e .inner
    (Comment.mergeLast ((doc.node e).comments .inner) rule).1 line
  have other := @comments_update doc e .inner
    (Comment.mergeLast ((doc.node e).comments .inner) rule).1 valid
  rw [← same] at tree started other
  generalize (doc.mergeInto e .inner rule).1 = doc' at covers tree started other
  have text : ∀ j, doc'.text? j = doc.text? j := by
    intro j
    unfold text?
    rw [(tree j).1]
  have slots : ∀ j, doc'.commentSlot j = doc.commentSlot j := fun j =>
    commentSlot_congr (tree j).1 (tree j).2.2.1 fun c _ => (tree c).1
  have fronted : doc'.Fronted rule line p x first X₁ Y S e := by
    refine ⟨(tree p).2.2.1.trans shape, (tree first).1.trans spot.layout.opening.1, ?_,
      fun y hy t ht => ?_, ?_, covers⟩
    · have group : doc.Group line X₁ Y :=
        ⟨fun y hy => spot.group.on y (part y hy), spot.group.above⟩
      exact group.transport fun y _ => ⟨text y, (tree y).2.1⟩
    · rw [text] at ht
      refine spot.whole y ?_ t ht
      rcases List.mem_append.mp hy with h | h
      · exact List.mem_append_left _ h
      · exact List.mem_append_right _ (part y h)
    · rw [nearestSlot_congr (fun y _ => text y) fun y _ => slots y]
      exact slot
  refine ⟨x, ⟨rest, started.trans found⟩, ⟨first, X₁, Y, S, e, fronted⟩, fun y hy => ?_,
    unread'.congr (slots x) fun e' found' => ?_, ?_⟩
  · rw [text]
    refine inked y ?_
    unfold Holds at hy ⊢
    rw [← (tree p).2.2.1]
    exact hy
  · rw [other]
    refine if_neg ?_
    rintro ⟨rfl, -⟩
    have twice := sound.linked.parent_unique (commentSlot_holds found').1 inner
    subst twice
    have nodup := sound.linked.nodup p
    rw [shape] at nodup
    have apart := List.nodup_append.mp (List.nodup_cons.mp nodup).2
    exact apart.2.2 x (List.mem_append_left _ above) x List.mem_cons_self rfl
  · exact plain'.congr (tree x).1

theorem Noted.nearestSlot_eq {A C : List NodeId} {lead : Option Text} {body gap : Text}
    (noted : doc.Noted doc' p A C lead body gap) (W : List NodeId) {g : NodeId}
    (note : doc'.Note doc.nodes.size) (gaps : doc'.Gap g) :
    doc'.nearestSlot (W ++ [doc.nodes.size, g]) = some (doc.nodes.size + 1) := by
  have regroup : W ++ [doc.nodes.size, g] = (W ++ [doc.nodes.size]) ++ [g] := by simp
  have solid : doc'.isBlankText doc.nodes.size = false := by
    unfold isBlankText
    rw [note.text?_eq]
  rw [regroup, nearestSlot_blank gaps.isBlankText]
  unfold nearestSlot
  rw [List.reverse_append, List.reverse_singleton, List.singleton_append, List.find?_cons, solid]
  show doc'.commentSlot doc.nodes.size = _
  unfold commentSlot kind children
  rw [noted.hole]
  dsimp only
  rw [noted.slot]
  rfl

theorem Noted.covers {A C : List NodeId} {lead : Option Text} {gap : Text}
    (noted : doc.Noted doc' p A C lead (directiveText o .nextLine rule .block) gap)
    (name : RuleName rule) : doc'.Covers (doc.nodes.size + 1) .inner rule := by
  refine ⟨[], noteOf (directiveText o .nextLine rule .block), ?_,
    directiveText_suppresses o .nextLine name _ rfl⟩
  rw [noted.slot]
  rfl

theorem Noted.ready {Z Y S rest : List NodeId} {indent : Text}
    (noted : doc.Noted doc' p (first :: Z) (Y ++ x :: S) none (directiveText o .nextLine rule .block)
      (doc.eol.text ++ indent)) (sound : doc.Sound source) (reached : doc.Reaches p)
    (found : doc.startingOn line = x :: rest) (tag : doc.kind first = .openingTag)
    (on : ∀ y ∈ Y, doc.OnLine line y) (whole : ∀ y ∈ Z ++ Y, doc.Whole y)
    (unread : doc.Unread rule x) (inked : doc.Inked p) (name : RuleName rule)
    (plain : doc.Plain x) (blank : allBlank indent = true)
    (free : '\n' ∉ indent) : doc'.Ready rule line p x := by
  have splice := noted.splice
  obtain ⟨note, gap, -⟩ := noted.parts (directiveText_parses o .nextLine rule .block) rfl blank free
    nofun
  have gap : doc'.Gap (doc.nodes.size + 2) := gap
  have held : ∀ y ∈ first :: Z ++ (Y ++ x :: S), doc.Holds p y := by
    intro y hy
    unfold Holds
    rw [splice.split]
    simpa using hy
  have lt : ∀ y ∈ first :: Z ++ (Y ++ x :: S), y < doc.nodes.size := fun y hy =>
    sound.linked.child_lt (held y hy)
  have mem_Y : ∀ y ∈ Y, y ∈ first :: Z ++ (Y ++ x :: S) := fun y hy => by simp [hy]
  have mem_Z : ∀ y ∈ Z, y ∈ first :: Z ++ (Y ++ x :: S) := fun y hy => by simp [hy]
  have mem_x : x ∈ first :: Z ++ (Y ++ x :: S) := by simp
  have kids : doc'.children p =
      first :: (Z ++ [doc.nodes.size, doc.nodes.size + 2] ++ Y ++ x :: S) := by
    rw [splice.children_here]
    simp [noteIds]
  have slot := noted.nearestSlot_eq Z note gap
  have covers := noted.covers name
  have fronted : doc'.Fronted rule line p x first (Z ++ [doc.nodes.size, doc.nodes.size + 2]) Y S
      (doc.nodes.size + 1) := by
    refine ⟨kids, ?_, ⟨fun y hy => ?_, fun b hb => ?_⟩, fun y hy t ht => ?_, slot, covers⟩
    · rw [(splice.content (lt first (by simp))).1]
      exact tag
    · unfold OnLine
      rw [splice.text?_eq (lt y (mem_Y y hy)), (splice.content (lt y (mem_Y y hy))).2.1]
      exact on y hy
    · obtain rfl : doc.nodes.size + 2 = b := by simpa using hb
      obtain ⟨t, value, breaks, -⟩ := gap.breaks
      exact .inl ⟨t, value, breaks⟩
    · simp only [List.mem_append, List.mem_cons, List.not_mem_nil, or_false] at hy
      rcases hy with (hy | rfl | rfl) | hy
      · rw [splice.text?_eq (lt y (mem_Z y hy))] at ht
        exact whole y (List.mem_append_left _ hy) t ht
      · exact note.whole t ht
      · exact gap.whole t ht
      · rw [splice.text?_eq (lt y (mem_Y y hy))] at ht
        exact whole y (List.mem_append_right _ hy) t ht
  refine ⟨⟨rest, (noted.startingOn_eq sound reached).trans found⟩, ⟨_, _, _, _, _, fronted⟩,
    fun y hy => ?_, ?_, ?_⟩
  · unfold Holds at hy
    rw [splice.children_here] at hy
    rcases List.mem_append.mp hy with hy | hy
    · rcases List.mem_append.mp hy with hy | hy
      · rw [splice.text?_eq (lt y (List.mem_append_left _ hy))]
        exact inked y (held y (List.mem_append_left _ hy))
      · rcases List.mem_pair.mp hy with rfl | rfl
        · exact Whole.ne_nil note.whole
        · exact Whole.ne_nil gap.whole
    · rw [splice.text?_eq (lt y (List.mem_append_right _ hy))]
      exact inked y (held y (List.mem_append_right _ hy))
  · refine unread.splice splice sound.linked (lt x mem_x) ?_
    rintro rfl
    exact sound.linked.not_below_of_holds (held x mem_x) ReflTransGen.refl
  · exact plain.congr (splice.content (lt x mem_x)).1

theorem split_behind_blank {b x : NodeId} {G Y S T : List NodeId} (ne : b ≠ x)
    (split : (b :: G) ++ T = Y ++ x :: S) (part : ∀ y ∈ Y, y ∈ b :: G)
    (nodup : ((b :: G) ++ T).Nodup) :
    ∃ Y', G ++ T = Y' ++ x :: S ∧ ∀ y ∈ Y', y ∈ G := by
  cases Y with
  | nil =>
    cases split
    exact absurd rfl ne
  | cons y Y =>
    rw [split] at nodup
    obtain ⟨rfl, rest⟩ := List.cons.inj (show b :: (G ++ T) = y :: (Y ++ x :: S) from split)
    refine ⟨Y, rest, fun z hz => (List.mem_cons.mp (part z (by simp [hz]))).resolve_left ?_⟩
    rintro rfl
    exact (List.nodup_cons.mp nodup).1 (by simp [hz])

theorem Spot.insert_ready {Z G : List NodeId} {room : Document} {indent : Text}
    (heads : doc.Heads line p target) (spot : doc.Spot p target line first X₁ X₂ R closing)
    (sound : doc.Sound source) (reached : doc.Reaches p)
    (markup : (doc.kind p).hasMarkupChildren = true) (aim : doc.Starts line target)
    (unread : doc.Unread rule target)
    (plain : doc.Plain target) (inked : doc.Inked p)
    (flat : ∀ b ∈ X₁.getLast?, ¬ doc.Gap b) (name : RuleName rule)
    (made : Room doc p target first X₁ X₂ R closing room Z G indent)
    (noted : room.Noted doc' p (first :: Z) (G ++ target :: R ++ closing) none
      (directiveText o .nextLine rule .block) (room.eol.text ++ indent)) :
    ∃ x, doc'.Ready rule line p x := by
  obtain ⟨x, rest, Y, S, found, split, part, unread', plain'⟩ :=
    heads.spot spot sound reached aim unread plain
  have hold : doc.Holds p target := spot.layout.mem_children (by simp)
  obtain ⟨-, roomy⟩ :=
    made.roomy sound reached markup spot (heads.hits sound markup hold aim) flat
  have tag := spot.layout.opening.1
  have nodup := sound.linked.nodup p
  have group : ∀ y ∈ Y, doc.OnLine line y := fun y hy => spot.group.on y (part y hy)
  rw [List.append_assoc, List.cons_append] at noted
  refine ⟨x, ?_⟩
  cases made with
  | @own b G t e own =>
    subst e
    have apart : b ≠ x := by
      rintro rfl
      have starts := (sound.mem_startingOn.mp (found ▸ List.mem_cons_self)).2
      have blank : doc.isBlankText b = true := by
        unfold isBlankText
        rw [own.1]
        exact own.2.2.1
      rw [starts.2.1] at blank
      cases blank
    rw [spot.layout.split] at nodup
    have tail : ((b :: G) ++ target :: (R ++ closing)).Nodup := by
      refine nodup.sublist ?_
      simp
    obtain ⟨Y', split', part'⟩ := split_behind_blank apart split part tail
    rw [split'] at noted
    refine noted.ready sound reached found tag (fun y hy => spot.group.on y (by simp [part' y hy]))
      (fun y hy => ?_) unread' inked name plain' roomy.blank.1 roomy.blank.2
    rcases List.mem_append.mp hy with h | h
    · exact roomy.whole y (List.mem_cons_of_mem _ h)
    · exact spot.whole y (by simp [part' y h])
  | flush _ _ =>
    rw [split] at noted
    refine noted.ready sound reached found tag group (fun y hy => ?_) unread' inked name plain'
      roomy.blank.1 roomy.blank.2
    rcases List.mem_append.mp hy with h | h
    · exact roomy.whole y (List.mem_cons_of_mem _ h)
    · exact spot.whole y (by simp [part y h])
  | @split Z b a run s _ e value span ne blank free recut =>
    subst e
    have splice := recut.splice
    have all : doc.children p = first :: (Z ++ [b] ++ (Y ++ x :: S)) := by
      rw [spot.layout.split, ← split]
      simp
    have held : ∀ y ∈ Y ++ x :: S, doc.Holds p y := by
      intro y hy
      unfold Holds
      rw [all]
      exact List.mem_cons_of_mem _ (List.mem_append_right _ hy)
    have lt : ∀ y ∈ Y ++ x :: S, y < doc.nodes.size := fun y hy =>
      sound.linked.child_lt (held y hy)
    have mem_x : x ∈ Y ++ x :: S := by simp
    have mem_Y : ∀ y ∈ Y, y ∈ Y ++ x :: S := fun y hy => List.mem_append_left _ hy
    have layout := (spot.whole b (by simp) _ value).blank_of_break (by simp)
    have started : room.startingOn line = x :: rest := by
      rw [recut.startingOn_blank sound reached (by simpa using layout), found]
    have x_ne : x ≠ p := by
      rintro rfl
      exact sound.linked.not_below_of_holds (held x mem_x) ReflTransGen.refl
    rw [split] at noted
    refine noted.ready roomy.sound roomy.reached started ?_ (fun y hy => ?_) (fun y hy => ?_)
      (unread'.splice splice sound.linked (lt x mem_x) x_ne) (fun y hy => ?_) name ?_
      roomy.blank.1 roomy.blank.2
    · have hold : doc.Holds p first := by
        unfold Holds
        rw [all]
        exact List.mem_cons_self
      rw [(splice.content (sound.linked.child_lt hold)).1]
      exact tag
    · unfold OnLine
      rw [splice.text?_eq (lt y (mem_Y y hy)), (splice.content (lt y (mem_Y y hy))).2.1]
      exact group y hy
    · rcases List.mem_append.mp hy with h | h
      · exact roomy.whole y (List.mem_cons_of_mem _ h)
      · intro t ht
        rw [splice.text?_eq (lt y (mem_Y y h))] at ht
        exact spot.whole y (List.mem_append_right _ (part y h)) t ht
    · unfold Holds at hy
      rw [splice.children_here] at hy
      rcases List.mem_append.mp hy with hy | hy
      · have front : y ∈ first :: (Z ++ [doc.nodes.size, doc.nodes.size + 1]) := hy
        exact Whole.ne_nil (roomy.whole y front)
      · have old : doc.Holds p y := by
          unfold Holds
          rw [splice.split]
          exact List.mem_append_right _ hy
        rw [splice.text?_eq (sound.linked.child_lt old)]
        exact inked y old
    · exact plain'.congr (splice.content (lt x mem_x)).1

end Spot

theorem aim_of_markup (linked : doc.Linked) {x : NodeId} (hold : doc.Holds p x)
    (markup : (doc.kind p).hasMarkupChildren = true) : doc.aim x = .node x (some p) := by
  have link := (linked.agree p x).mp hold
  have none : doc.branches p = none := by
    unfold branches
    cases kind : doc.kind p with
    | conditional =>
      rw [kind] at markup
      cases markup
    | _ => rfl
  unfold aim
  rw [link]
  dsimp only
  rw [none]

/-- A call for the first node of a line that carries its comment elsewhere. -/
theorem annotateOne_eq (sound : doc.Sound source) {x : NodeId} {rest : List NodeId}
    (found : doc.startingOn line = x :: rest) (o : AnnotateOptions) (rule : Text) :
    doc.annotateOne o line rule = match doc.aim x with
      | .blockTail block => .ok (attachToBlockTail o doc block rule)
      | .node id parent => annotateNode o doc id parent line rule := by
  unfold annotateOne
  rw [sound.locate_eq line, found, List.head?_cons, Option.map_some]
  cases doc.aim x with
  | blockTail block => rfl
  | node id parent => rfl

theorem not_beside_of_markup {x : NodeId} (markup : (doc.kind p).hasMarkupChildren = true)
    (plain : doc.kind x ≠ .attribute) : ¬ doc.Beside x p := by
  rintro (h | h | h)
  · exact plain h
  · rw [h] at markup
    cases markup
  · cases kind : doc.kind p with
    | element =>
      rw [kind] at h
      cases h
    | fragment =>
      rw [kind] at h
      cases h
    | _ =>
      rw [kind] at markup
      cases markup

theorem annotateOne_among (sound : doc.Sound source) {x : NodeId} {rest : List NodeId}
    (found : doc.startingOn line = x :: rest) (hold : doc.Holds p x)
    (markup : (doc.kind p).hasMarkupChildren = true) (last : doc.kind x ≠ .closingTag)
    (plain : doc.kind x ≠ .attribute) (o : AnnotateOptions) (rule : Text) :
    doc.annotateOne o line rule = attachAmongSiblings o doc p x line rule := by
  rw [annotateOne_eq sound found, aim_of_markup sound.linked hold markup]
  dsimp only
  rw [annotateNode_eq, if_neg last, if_neg (not_beside_of_markup markup plain)]

/-- A second call among siblings. -/
theorem Ready.again {x : NodeId} (ready : doc.Ready rule line p x) (o : AnnotateOptions)
    (sound : doc.Sound source) (clear : doc.Clear) (reached : doc.Reaches p)
    (markup : (doc.kind p).hasMarkupChildren = true) :
    ∃ doc', doc.annotateOne o line rule = .ok (doc', .alreadySuppressed) ∧
      doc'.print source = doc.print source := by
  obtain ⟨rest, found⟩ := ready.found
  obtain ⟨first, X, Y, S, e, fronted⟩ := ready.fronted
  have hold : doc.Holds p x := by
    unfold Holds
    rw [fronted.split]
    simp
  obtain ⟨-, -, -, s, span, -⟩ := sound.mem_startingOn.mp (found ▸ List.mem_cons_self)
  obtain ⟨doc', called, printed⟩ := fronted.again o sound clear reached markup ready.inked
    (by rw [span]; exact nofun) ⟨ready.plain.1, ready.plain.2.1⟩ ready.unread
  refine ⟨doc', ?_, printed⟩
  rw [annotateOne_among sound found hold markup ready.plain.2.1 ready.plain.2.2]
  exact called

end Quell.Document
