import Quell.Proofs.Annotate.Fronted

/-!
The same call twice.

The second call finds the rule covered where the first one left it, whatever the first one did to
the tree, and what is printed stays the same: `annotateOne_again`.
-/
namespace Quell

open Text Relation

/-- What a repeated call answers. -/
def Resolution.again : Resolution → Resolution
  | .skipped reason => .skipped reason
  | _ => .alreadySuppressed

theorem Resolution.again_of_merge {m : Comment.Merge} {r : Resolution}
    (h : Resolution.ofMerge m = some r) : r.again = .alreadySuppressed := by
  cases m with
  | notADirective => cases h
  | alreadySuppressed => cases h; rfl
  | merged => cases h; rfl

namespace Document

variable {source : Text} {doc doc' : Document} {o : AnnotateOptions} {rule : Text} {line : Nat}
variable {p target : NodeId}

theorem Calls.clear (calls : doc.Calls doc') (sound : doc.Sound source) (clear : doc.Clear) :
    doc'.Clear := by
  induction calls with
  | refl => exact clear
  | @tail mid _ before called ih =>
    have sound' := (Calls.frame before sound).1
    obtain ⟨o, line, rule, r, call⟩ := called.call sound'
    exact Edits.clear (call.settles sound').edits sound' ih

theorem aim_congr {id : NodeId} (parent : doc'.parent id = doc.parent id)
    (around : ∀ q, doc.parent id = some q → doc'.kind q = doc.kind q ∧
      doc'.children q = doc.children q ∧ ∀ c, doc.Holds q c → doc'.kind c = doc.kind c) :
    doc'.aim id = doc.aim id := by
  unfold aim
  rw [parent]
  cases link : doc.parent id with
  | none => rfl
  | some q =>
    obtain ⟨kind, children, each⟩ := around q link
    unfold Holds at each
    unfold branches
    dsimp only
    rw [kind, children]
    generalize doc.children q = cs at each
    cases doc.kind q with
    | conditional =>
      match cs, each with
      | [], _ => rfl
      | [_], _ => rfl
      | [_, _], _ => rfl
      | _ :: consequent :: alternate :: _, each =>
        dsimp only [List.head?_cons]
        rw [each consequent (by simp)]
    | _ => rfl

section Comments

variable {id : NodeId} {slot : Slot} {cs : List Comment}

theorem aim_setComments (j : NodeId) :
    (doc.update id (·.setComments slot cs)).aim j = doc.aim j :=
  aim_congr (tree_setComments j).2.2.2 fun q _ =>
    ⟨(tree_setComments q).1, (tree_setComments q).2.2.1, fun c _ => (tree_setComments c).1⟩

theorem mergeInto_fst (doc : Document) (id : NodeId) (slot : Slot) (rule : Text) :
    (doc.mergeInto id slot rule).1 = doc.update id (·.setComments slot
      (Comment.mergeLast ((doc.node id).comments slot) rule).1) := rfl

theorem comments_mergeInto (valid : id < doc.nodes.size) {slot' : Slot} (ne : slot' ≠ slot)
    (j : NodeId) : ((doc.mergeInto id slot rule).1.node j).comments slot' =
      (doc.node j).comments slot' := by
  rw [mergeInto_fst, comments_update valid]
  exact if_neg fun h => ne h.2

theorem mergeInto_unread (h : doc.mergeInto id slot rule = (doc, .notADirective))
    (same : (doc'.node id).comments slot = (doc.node id).comments slot) :
    doc'.mergeInto id slot rule = (doc', .notADirective) := by
  apply mergeInto_unsettled
  rw [mergeInto_snd_congr same, h]
  rfl

theorem covers_appendComment (valid : id < doc.nodes.size) {c : Comment}
    (covered : c.Suppresses rule) : (doc.appendComment id slot c).Covers id slot rule := by
  refine ⟨(doc.node id).comments slot, c, ?_, covered⟩
  rw [comments_appendComment valid, if_pos ⟨rfl, rfl⟩]

end Comments

theorem attachOrdinary_covered {id : NodeId} (o : AnnotateOptions)
    (h : doc.Covers id .leading rule ∨
      doc.mergeInto id .leading rule = (doc, .notADirective) ∧ doc.Covers id .trailing rule) :
    attachOrdinary o doc id rule = (doc, .alreadySuppressed) := by
  unfold attachOrdinary
  rcases h with leading | ⟨unread, trailing⟩
  · rw [leading.mergeInto_eq]
    rfl
  · rw [unread]
    dsimp only [Resolution.ofMerge]
    rw [trailing.mergeInto_eq]

theorem attachOrdinary_twice {id : NodeId} (valid : id < doc.nodes.size) (name : RuleName rule)
    (o : AnnotateOptions) : ∃ slot cs, (attachOrdinary o doc id rule).1 =
        doc.update id (·.setComments slot cs) ∧
      attachOrdinary o (attachOrdinary o doc id rule).1 id rule =
        ((attachOrdinary o doc id rule).1, .alreadySuppressed) ∧
      (attachOrdinary o doc id rule).2.again = .alreadySuppressed := by
  rcases attachOrdinary_cases o doc id rule with ⟨r, settled, result⟩ | ⟨unread,
    ⟨r, settled, result⟩ | ⟨-, result⟩⟩
  · rw [result]
    refine ⟨.leading, _, rfl, attachOrdinary_covered o (.inl (mergeInto_covers valid name settled)), ?_⟩
    exact Resolution.again_of_merge settled
  · rw [result]
    refine ⟨.trailing, _, rfl, attachOrdinary_covered o (.inr ⟨?_, mergeInto_covers valid name settled⟩),
      Resolution.again_of_merge settled⟩
    exact mergeInto_unread unread (comments_mergeInto valid (by decide) id)
  · rw [result]
    have covers := @covers_appendComment doc rule id (besideComment o rule).1 valid _
      (besideComment_suppresses o name)
    refine ⟨(besideComment o rule).1, _, appendComment_eq .., attachOrdinary_covered o ?_, rfl⟩
    cases inline : o.inline with
    | false =>
      have slot : (besideComment o rule).1 = .leading := by
        unfold besideComment
        rw [inline]
        rfl
      rw [slot] at covers ⊢
      exact .inl covers
    | true =>
      have slot : (besideComment o rule).1 = .trailing := by
        unfold besideComment
        rw [inline]
        rfl
      rw [slot] at covers ⊢
      refine .inr ⟨mergeInto_unread unread ?_, covers⟩
      rw [comments_appendComment valid, if_neg nofun]

theorem attachToBlockTail_covered {block : NodeId} (o : AnnotateOptions)
    (h : doc.children block = [] ∧ doc.Covers block .inner rule ∨
      ∃ last, (doc.children block).getLast? = some last ∧ doc.Covers last .trailing rule) :
    attachToBlockTail o doc block rule = (doc, .alreadySuppressed) := by
  unfold attachToBlockTail
  rcases h with ⟨empty, inner⟩ | ⟨last, found, trailing⟩
  · rw [empty, List.isEmpty_nil, if_pos rfl, inner.mergeInto_eq]
    rfl
  · have filled : ¬ (doc.children block).isEmpty = true := by
      intro empty
      rw [List.isEmpty_iff.mp empty] at found
      cases found
    rw [if_neg filled]
    unfold attachBehindLast
    rw [found]
    dsimp only
    rw [trailing.mergeInto_eq]
    rfl

theorem attachBehindLast_covers {block last : NodeId} (valid : last < doc.nodes.size)
    (name : RuleName rule) (o : AnnotateOptions)
    (found : (doc.children block).getLast? = some last) :
    ∃ cs, (attachBehindLast o doc block rule).1 = doc.update last (·.setComments .trailing cs) ∧
      (attachBehindLast o doc block rule).1.Covers last .trailing rule ∧
      (attachBehindLast o doc block rule).2.again = .alreadySuppressed := by
  rcases attachBehindLast_cases o rule found with ⟨r, settled, result⟩ | ⟨-, result⟩
  · rw [result]
    exact ⟨_, rfl, mergeInto_covers valid name settled, Resolution.again_of_merge settled⟩
  · rw [result]
    exact ⟨_, appendComment_eq .., covers_appendComment valid
      (directiveText_suppresses o .nextLine name _ rfl), rfl⟩

theorem aim_addPlaceholder {id block : NodeId} (sound : doc.Sound source)
    (reached : doc.Reaches block) (valid : id < doc.nodes.size)
    (aim : doc.aim id = .blockTail block) : (doc.addPlaceholder block).1.aim id = .blockTail block := by
  obtain ⟨splice, -, -⟩ := addPlaceholder_spec (sound.reaches_lt reached)
  obtain ⟨q, link, hold, -⟩ := holds_of_aim aim
  rw [← aim]
  refine aim_congr (splice.parent_rest valid nofun) fun q' link' => ?_
  cases link.symm.trans link'
  have lt := Holds.parent_lt hold
  have ne : q ≠ block := by
    rintro rfl
    exact sound.linked.not_below_of_holds hold ReflTransGen.refl
  exact ⟨(splice.content lt).1, splice.children_rest lt ne, fun c hc =>
    (splice.content (sound.linked.child_lt hc)).1⟩

theorem attachToBlockTail_twice {id block : NodeId} {rest : List NodeId} (sound : doc.Sound source)
    (reached : doc.Reaches block) (found : doc.startingOn line = id :: rest)
    (aim : doc.aim id = .blockTail block) (name : RuleName rule) (o : AnnotateOptions) :
    (attachToBlockTail o doc block rule).1.startingOn line = id :: rest ∧
      (attachToBlockTail o doc block rule).1.aim id = .blockTail block ∧
      attachToBlockTail o (attachToBlockTail o doc block rule).1 block rule =
        ((attachToBlockTail o doc block rule).1, .alreadySuppressed) ∧
      (attachToBlockTail o doc block rule).2.again = .alreadySuppressed := by
  have valid := sound.reaches_lt reached
  have id_lt := sound.reaches_lt (sound.mem_startingOn.mp (found ▸ List.mem_cons_self)).1
  by_cases empty : doc.children block = []
  · have nil : (doc.children block).isEmpty = true := by rw [empty]; rfl
    cases settled : Resolution.ofMerge (doc.mergeInto block .inner rule).2 with
    | some r =>
      have result : attachToBlockTail o doc block rule =
          ((doc.mergeInto block .inner rule).1, r) := by
        unfold attachToBlockTail
        rw [if_pos nil]
        dsimp only
        rw [settled]
      rw [result]
      refine ⟨?_, ?_, attachToBlockTail_covered o (.inl ⟨?_, mergeInto_covers valid name settled⟩),
        Resolution.again_of_merge settled⟩
      · rw [mergeInto_fst, startingOn_setComments sound.linked sound.root_lt]
        exact found
      · rw [mergeInto_fst, aim_setComments]
        exact aim
      · rw [mergeInto_fst, (tree_setComments block).2.2.1]
        exact empty
    | none =>
      have unread := mergeInto_unsettled settled
      have result : attachToBlockTail o doc block rule =
          attachBehindLast o (doc.addPlaceholder block).1 block rule := by
        unfold attachToBlockTail
        rw [if_pos nil, unread]
        rfl
      obtain ⟨splice, size, -⟩ := addPlaceholder_spec valid
      have last : ((doc.addPlaceholder block).1.children block).getLast? = some doc.nodes.size := by
        rw [addPlaceholder_children valid empty]
        rfl
      have linked' := splice.linked' sound.linked
      obtain ⟨cs, same, covers, again⟩ := attachBehindLast_covers
        (by rw [size]; exact Nat.lt_succ_self _) name o last
      rw [result]
      refine ⟨?_, ?_, attachToBlockTail_covered o (.inr ⟨_, ?_, covers⟩), again⟩
      · rw [same, startingOn_setComments linked'
          (Nat.lt_of_lt_of_le sound.root_lt splice.grows), startingOn_addPlaceholder sound reached]
        exact found
      · rw [same, aim_setComments]
        exact aim_addPlaceholder sound reached id_lt aim
      · rw [same, (tree_setComments block).2.2.1]
        exact last
  · have filled : ¬ (doc.children block).isEmpty = true := fun nil =>
      empty (List.isEmpty_iff.mp nil)
    obtain ⟨last, hlast⟩ := Option.ne_none_iff_exists'.mp (mt List.getLast?_eq_none_iff.mp empty)
    have result : attachToBlockTail o doc block rule = attachBehindLast o doc block rule := by
      unfold attachToBlockTail
      rw [if_neg filled]
    have hold : doc.Holds block last := List.mem_of_getLast? hlast
    obtain ⟨cs, same, covers, again⟩ :=
      attachBehindLast_covers (sound.linked.child_lt hold) name o hlast
    rw [result]
    refine ⟨?_, ?_, attachToBlockTail_covered o (.inr ⟨last, ?_, covers⟩), again⟩
    · rw [same, startingOn_setComments sound.linked sound.root_lt]
      exact found
    · rw [same, aim_setComments]
      exact aim
    · rw [same, (tree_setComments block).2.2.1]
      exact hlast

theorem attachBeforeClosing_covered {first e : NodeId} {items closing : List NodeId}
    (layout : doc.Layout p first items closing) (markup : (doc.kind p).hasMarkupChildren = true)
    (slot : doc.nearestSlot items = some e) (covers : doc.Covers e .inner rule)
    (o : AnnotateOptions) : attachBeforeClosing o doc p rule = (doc, .alreadySuppressed) := by
  have whole : doc.Layout p first (items ++ []) closing := by rw [List.append_nil]; exact layout
  have merged : doc.mergeBefore p (1 + items.length) rule = (doc, .alreadySuppressed) := by
    rw [mergeBefore_eq whole markup, slot]
    exact covers.mergeInto_eq
  unfold attachBeforeClosing
  rw [layout.markupRange markup]
  dsimp only
  rw [merged]
  rfl

/-- The layout of an element with a new markup comment at its end. -/
theorem Noted.layout {first c : NodeId} {items : List NodeId} {lead : Option Text}
    {body gap : Text} (noted : doc.Noted doc' p (first :: items) [c] lead body gap)
    (linked : doc.Linked) (layout : doc.Layout p first items [c]) :
    doc'.Layout p first (items ++ noteIds doc.nodes.size lead) [c] := by
  have held : ∀ x ∈ first :: (items ++ [c]), x < doc.nodes.size := by
    intro x hx
    refine linked.child_lt (p := p) ?_
    unfold Holds
    rw [layout.split]
    exact hx
  have same : ∀ x ∈ first :: (items ++ [c]), doc'.kind x = doc.kind x ∧ doc'.span x = doc.span x :=
    fun x hx => ⟨(noted.splice.content (held x hx)).1, (noted.splice.content (held x hx)).2.1⟩
  have front := same first List.mem_cons_self
  have back := same c (by simp)
  refine ⟨?_, ?_, ?_, fun i hi => ?_⟩
  · rw [noted.splice.children_here]
    simp
  · rw [front.1, front.2]
    exact layout.opening
  · refine .inr ⟨c, rfl, ?_⟩
    rcases layout.closing with h | ⟨c', e, kind⟩
    · cases h
    · cases e
      rw [back.1, back.2]
      exact kind
  · rcases List.mem_append.mp hi with h | h
    · rw [(same i (by simp [h])).1]
      exact layout.items i h
    · exact noted.plain h

theorem attachBeforeClosing_twice {id : NodeId} {rest : List NodeId} (sound : doc.Sound source)
    (reached : doc.Reaches p) (markup : (doc.kind p).hasMarkupChildren = true)
    (hold : doc.Holds p id) (kind : doc.kind id = .closingTag)
    (found : doc.startingOn line = id :: rest) (name : RuleName rule) (o : AnnotateOptions) :
    (attachBeforeClosing o doc p rule).1.startingOn line = id :: rest ∧
      (attachBeforeClosing o doc p rule).1.aim id = .node id (some p) ∧
      (attachBeforeClosing o doc p rule).1.kind id = .closingTag ∧
      attachBeforeClosing o (attachBeforeClosing o doc p rule).1 p rule =
        ((attachBeforeClosing o doc p rule).1, .alreadySuppressed) ∧
      (attachBeforeClosing o doc p rule).2.again = .alreadySuppressed := by
  obtain ⟨first, items, layout, ⟨e, r, slot, settled, result⟩ |
    ⟨-, doc', indent, run, noted, result⟩⟩ :=
    attachBeforeClosing_cases o sound reached markup hold kind rule
  · obtain ⟨h, -, inner, -⟩ := nearestSlot_holds slot
    have tree := fun j => @tree_setComments doc e .inner
      (Comment.mergeLast ((doc.node e).comments .inner) rule).1 j
    have covers := mergeInto_covers (sound.linked.child_lt inner) name settled
    rw [result]
    refine ⟨?_, ?_, ?_, ?_, Resolution.again_of_merge settled⟩
    · rw [mergeInto_fst, startingOn_setComments sound.linked sound.root_lt]
      exact found
    · rw [mergeInto_fst, aim_setComments]
      exact aim_of_markup sound.linked hold markup
    · exact (tree id).1.trans kind
    · have layout' : (doc.mergeInto e .inner rule).1.Layout p first items [id] := by
        refine ⟨(tree p).2.2.1.trans layout.split, ?_, ?_, fun i hi => ?_⟩
        · rw [mergeInto_fst, (tree first).1, (tree first).2.1]
          exact layout.opening
        · rcases layout.closing with h | ⟨c, e, closes⟩
          · cases h
          · cases e
            refine .inr ⟨id, rfl, ?_⟩
            rw [mergeInto_fst, (tree id).1, (tree id).2.1]
            exact closes
        · rw [mergeInto_fst, (tree i).1]
          exact layout.items i hi
      refine attachBeforeClosing_covered layout' (by rw [mergeInto_fst, (tree p).1]; exact markup) ?_
        covers o
      refine (nearestSlot_congr (fun x _ => ?_) fun x _ => ?_).trans slot
      · unfold text?
        rw [mergeInto_fst, (tree x).1]
      · exact commentSlot_congr (tree x).1 (tree x).2.2.1 fun c _ => (tree c).1
  · have splice := noted.splice
    have linked' := splice.linked' sound.linked
    have same := splice.content (sound.linked.child_lt hold)
    have valid := sound.reaches_lt reached
    have markup' : (doc'.kind p).hasMarkupChildren = true := by
      rw [(splice.content valid).1]
      exact markup
    have hold' : doc'.Holds p id := by
      unfold Holds
      rw [splice.children_here]
      simp
    have blank : ∀ t ∈ indent, allBlank t = true ∧ '\n' ∉ t := by
      intro t ht
      obtain ⟨-, -, -, blank, free⟩ := trailingIndent_eq_some (run.trans ht)
      exact ⟨blank, free⟩
    obtain ⟨note, gap, -⟩ := noted.parts (directiveText_parses o .nextLine rule .block) rfl
      (by
        cases indent with
        | none => rfl
        | some t => exact (blank t rfl).1)
      (by
        cases indent with
        | none => exact nofun
        | some t => exact (blank t rfl).2)
      (by
        intro u hu
        obtain ⟨t, -, rfl⟩ := Option.map_eq_some_iff.mp hu
        exact indentUnit_spec t)
    rw [result]
    refine ⟨(noted.startingOn_eq sound reached).trans found, aim_of_markup linked' hold' markup',
      same.1.trans kind, ?_, rfl⟩
    refine attachBeforeClosing_covered (noted.layout sound.linked layout) markup' ?_
      (noted.covers name) o
    cases indent with
    | none => exact noted.nearestSlot_eq items note gap
    | some t =>
      have regroup : items ++ noteIds doc.nodes.size (Option.map Press.indentUnit (some t)) =
          (items ++ [doc.nodes.size + 2]) ++ [doc.nodes.size, doc.nodes.size + 3] := by
        simp [noteIds]
      rw [regroup]
      exact noted.nearestSlot_eq _ note gap

/-- The target of a call is where a call behind segmentation expects it. -/
theorem AmongSiblings.again {r : Resolution} (among : AmongSiblings o rule line p target doc doc' r)
    (sound : doc.Sound source) (clear : doc.Clear) (reached : doc.Reaches p)
    (markup : (doc.kind p).hasMarkupChildren = true) (hold : doc.Holds p target)
    (heads : doc.Heads line p target) (aim : doc.Starts line target)
    (unread : doc.Unread rule target) (last : doc.kind target ≠ .closingTag)
    (bare : doc.kind target ≠ .attribute)
    (whole : ∀ x, doc.Holds p x → x = target ∨ doc.Whole x) (name : RuleName rule) :
    ∃ doc'', doc'.annotateOne o line rule = .ok (doc'', r.again) ∧
      doc''.print source = doc'.print source := by
  have inked : doc.Inked p := by
    intro x hx
    rcases whole x hx with rfl | settled
    · intro value
      have blank : doc.isBlankText x = true := by
        unfold isBlankText
        rw [value]
        rfl
      rw [aim.2.1] at blank
      cases blank
    · exact Whole.ne_nil settled
  have settles := among.settles sound reached markup (heads.hits sound markup hold aim)
  have frame := Edits.frame settles.edits sound
  have valid := sound.reaches_lt reached
  have reached' : doc'.Reaches p := frame.kept p valid reached (text?_of_markup markup)
  have markup' : (doc'.kind p).hasMarkupChildren = true := by
    rw [(frame.same p valid).1]
    exact markup
  have sound' := Edits.sound settles.edits sound
  have clear' := Edits.clear settles.edits sound clear
  cases among with
  | tag kind =>
    obtain ⟨x, rest, found, head⟩ := heads
    have first : x = target := by
      rcases head with e | fore
      · exact e
      · obtain ⟨o', body, tail, closing, layout, -, -, -⟩ := (sound.each p reached).arranged markup
        have nodup := sound.linked.nodup p
        have front : target = o' := layout.opening_eq hold kind
        have before := fore.before
        rw [layout.split, ← front] at before nodup
        exact nomatch @mem_before x target [] (body ++ tail ++ closing) nodup before
    subst first
    obtain ⟨cut, segmented, slits, -⟩ := segmentChildren_ok x sound reached markup
    obtain ⟨sound₂, reached₂, kind₂, keep⟩ := slits.spec sound reached markup
    obtain ⟨hold₂, target₂, -⟩ := keep hold
    have markup₂ : (cut.kind p).hasMarkupChildren = true := by
      rw [kind₂]
      exact markup
    refine ⟨cut, ?_, (slits.print_eq sound clear reached markup inked).1⟩
    rw [annotateOne_among sound found hold markup last bare,
      attachAmong_eq_place o line rule markup unread, segmented]
    exact placeAmong_tag o line rule ((sound₂.each p reached₂).arranged markup₂) markup₂ hold₂
      (target₂.trans kind)
  | merge spot slot settled =>
    have plain : doc.Plain target :=
      ⟨(spot.layout.items target (by simp)).1, last, bare⟩
    obtain ⟨x, ready⟩ :=
      spot.merge_ready heads sound reached aim unread plain inked slot name settled
    rw [Resolution.again_of_merge settled]
    exact ready.again o sound' clear' reached' markup'
  | insert spot flat made noted =>
    have plain : doc.Plain target :=
      ⟨(spot.layout.items target (by simp)).1, last, bare⟩
    obtain ⟨x, ready⟩ :=
      spot.insert_ready heads sound reached markup aim unread plain inked flat name made noted
    exact ready.again o sound' clear' reached' markup'

theorem AttachAmong.again {r : Resolution} {rest : List NodeId}
    (attach : AttachAmong o rule line p target doc doc' r) (sound : doc.Sound source)
    (clear : doc.Clear) (reached : doc.Reaches p) (hold : doc.Holds p target)
    (found : doc.startingOn line = target :: rest) (last : doc.kind target ≠ .closingTag)
    (beside : ¬ doc.Beside target p) (name : RuleName rule)
    (called : doc.annotateOne o line rule = .ok (doc', r)) :
    ∃ doc'', doc'.annotateOne o line rule = .ok (doc'', r.again) ∧
      doc''.print source = doc'.print source := by
  have aim := (sound.mem_startingOn.mp (found ▸ List.mem_cons_self)).2
  have bare : doc.kind target ≠ .attribute := fun kind => beside (.inl kind)
  cases attach with
  | childless => exact ⟨doc, called, rfl⟩
  | @own e _ markup slot settled =>
    obtain ⟨inner, slot_kind⟩ := commentSlot_holds slot
    have reached_e := (reached.child hold).child inner
    have tree := fun j => @tree_setComments doc e .inner
      (Comment.mergeLast ((doc.node e).comments .inner) rule).1 j
    have room : Slot.inner = .inner → doc.kind e = .block → doc.children e = [] := by
      rw [slot_kind]
      exact nofun
    have sound' := Edits.sound (mergeInto_settles (o := o) sound reached_e room settled).edits sound
    have covers := mergeInto_covers (sound.reaches_lt reached_e) name settled
    have started : (doc.mergeInto e .inner rule).1.startingOn line = target :: rest := by
      rw [mergeInto_fst, startingOn_setComments sound.linked sound.root_lt]
      exact found
    have markup' : ((doc.mergeInto e .inner rule).1.kind p).hasMarkupChildren = true := by
      rw [mergeInto_fst, (tree p).1]
      exact markup
    have hold' : (doc.mergeInto e .inner rule).1.Holds p target := by
      unfold Holds
      rw [mergeInto_fst, (tree p).2.2.1]
      exact hold
    have slot' : (doc.mergeInto e .inner rule).1.commentSlot target = some e := by
      rw [← slot]
      exact commentSlot_congr (tree target).1 (tree target).2.2.1 fun c _ => (tree c).1
    refine ⟨_, ?_, rfl⟩
    rw [Resolution.again_of_merge settled, annotateOne_among sound' started hold' markup'
      (by rw [mergeInto_fst, (tree target).1]; exact last)
      (by rw [mergeInto_fst, (tree target).1]; exact bare)]
    unfold attachAmongSiblings
    simp only [markup', slot', covers.mergeInto_eq, Bool.not_true, Bool.false_eq_true, if_false]
    rfl
  | @placed cut _ _ markup unread segmented slits among =>
    obtain ⟨sound', reached', kind', keep⟩ := slits.spec sound reached markup
    obtain ⟨hold', target', span'⟩ := keep hold
    obtain ⟨cut', segmented', -, whole⟩ := segmentChildren_ok target sound reached markup
    cases segmented.symm.trans segmented'
    have heads : cut.Heads line p target :=
      Heads.slits slits ⟨target, rest, found, .inl rfl⟩ sound reached markup hold
        (starts?_iff.mpr aim) last
    have aim' : cut.Starts line target := by
      rw [← starts?_iff, starts?_congr target' span', starts?_iff]
      exact aim
    have unread' : cut.Unread rule target := Unread.slits unread slits sound reached markup hold
    have edits : Edits o rule doc cut := slits.edits sound reached markup
    exact among.again sound' (Edits.clear edits sound clear) reached' (by rw [kind']; exact markup)
      hold' heads aim' unread' (by rw [target']; exact last) (by rw [target']; exact bare) whole name

theorem Call.again {r : Resolution} (call : Call o rule line doc doc' r) (sound : doc.Sound source)
    (clear : doc.Clear) (name : RuleName rule)
    (called : doc.annotateOne o line rule = .ok (doc', r)) :
    ∃ doc'', doc'.annotateOne o line rule = .ok (doc'', r.again) ∧
      doc''.print source = doc'.print source := by
  have sound' := Edits.sound (call.settles sound).edits sound
  cases call with
  | missed => exact ⟨doc, called, rfl⟩
  | tail found aim reached kind =>
    obtain ⟨found', aim', twice, again⟩ := attachToBlockTail_twice sound reached found aim name o
    refine ⟨_, ?_, rfl⟩
    rw [annotateOne_eq sound' found', aim', again]
    dsimp only
    rw [twice]
  | @closing id p rest found aim kind =>
    obtain ⟨-, -, p', link, above, -⟩ := sound.first_spec found
    cases link.symm.trans (parent_of_aim aim)
    have hold := (sound.linked.agree _ _).mpr link
    cases markup : (doc.kind p).hasMarkupChildren with
    | false =>
      have skipped : attachBeforeClosing o doc p rule = (doc, .skipped .noMarkupChildren) := by
        unfold attachBeforeClosing markupRange
        rw [markup]
        rfl
      rw [skipped] at called ⊢
      exact ⟨doc, called, rfl⟩
    | true =>
      obtain ⟨found', aim', kind', twice, again⟩ :=
        attachBeforeClosing_twice sound above markup hold kind found name o
      refine ⟨_, ?_, rfl⟩
      rw [annotateOne_eq sound' found', aim', again]
      dsimp only
      rw [annotateNode_eq, if_pos kind', twice]
  | @beside id p rest found aim last beside =>
    have valid := sound.reaches_lt (sound.mem_startingOn.mp (found ▸ List.mem_cons_self)).1
    obtain ⟨slot, cs, same, twice, again⟩ := attachOrdinary_twice valid name o
    have found' : (attachOrdinary o doc id rule).1.startingOn line = id :: rest := by
      rw [same, startingOn_setComments sound.linked sound.root_lt]
      exact found
    have kind : ∀ j, (attachOrdinary o doc id rule).1.kind j = doc.kind j := by
      intro j
      rw [same]
      exact (tree_setComments j).1
    have beside' : (attachOrdinary o doc id rule).1.Beside id p := by
      unfold Beside
      rw [kind id, kind p]
      exact beside
    refine ⟨_, ?_, rfl⟩
    rw [annotateOne_eq sound' found', again]
    nth_rewrite 1 [same]
    rw [aim_setComments, aim]
    dsimp only
    rw [annotateNode_eq, if_neg (by rw [kind id]; exact last), if_pos beside', twice]
  | among found aim last beside attach =>
    obtain ⟨-, -, p', link, above, -⟩ := sound.first_spec found
    cases link.symm.trans (parent_of_aim aim)
    exact attach.again sound clear above ((sound.linked.agree _ _).mpr link) found last beside name
      called

/-- A call after any run of calls on a well-formed document, made twice: the second one finds the
rule covered, or is skipped like the first, and what is printed stays the same. -/
theorem annotateOne_again (wf : doc.WellFormed source) (clear : doc.Clear) (calls : doc.Calls doc')
    (o : AnnotateOptions) (line : Nat) (nonempty : rule ≠ []) (trimmed : rule.trim = rule)
    (comma : ',' ∉ rule) (dashes : ¬ Directive.separator <:+: rule) :
    ∃ once twice r, doc'.annotateOne o line rule = .ok (once, r) ∧
      once.annotateOne o line rule = .ok (twice, r.again) ∧
      twice.print source = once.print source := by
  have sound := (Calls.frame calls wf.sound).1
  obtain ⟨once, r, called, call⟩ := annotateOne_ok sound o line rule
  obtain ⟨twice, again, same⟩ := call.again sound (calls.clear wf.sound clear)
    ⟨nonempty, trimmed, comma, dashes⟩ called
  exact ⟨once, twice, r, called, again, same⟩

theorem clear_of_table (h : ∀ i < doc.nodes.size, ∀ r ∈ doc.remarkSpans i, ∀ j < doc.nodes.size,
    doc.text? j ≠ none → ∀ s ∈ doc.span j, r.hi ≤ s.lo ∨ s.hi ≤ r.lo) : doc.Clear := by
  rintro r id t s ⟨i, slot, c, -, mem, here⟩ - value span
  have listed : r ∈ doc.remarkSpans i := mem_remarkSpans mem here
  have inside : ∀ {k}, doc.node k ≠ { kind := .empty, span := none } → k < doc.nodes.size :=
    fun ne => Nat.lt_of_not_le fun ge => ne (node_of_size_le doc ge)
  have valid : i < doc.nodes.size := inside fun e => by
    rw [e] at mem
    cases slot <;> cases mem
  have valid' : id < doc.nodes.size := inside fun e => by
    rw [span_of_node e] at span
    cases span
  exact h i valid r listed id valid' (by rw [value]; exact Option.some_ne_none t) s span

/-- An element that holds words and, on the next line, an element. -/
def markupSource : Text := "<a>\n  x\n  <b/>\n</a>".toList

def markupSample : Document where
  nodes := #[
    { kind := .program, span := some ⟨0, 19, 1, 4⟩, children := [1] },
    { kind := .statement, span := some ⟨0, 19, 1, 4⟩, parent := some 0, children := [2] },
    { kind := .element, span := some ⟨0, 19, 1, 4⟩, parent := some 1, children := [3, 4, 5, 7, 8] },
    { kind := .openingTag, span := some ⟨0, 3, 1, 1⟩, parent := some 2 },
    { kind := .text "\n  x\n  ".toList, span := some ⟨3, 10, 1, 3⟩, parent := some 2 },
    { kind := .element, span := some ⟨10, 14, 3, 3⟩, parent := some 2, children := [6] },
    { kind := .openingTag, span := some ⟨10, 14, 3, 3⟩, parent := some 5 },
    { kind := .text "\n".toList, span := some ⟨14, 15, 3, 4⟩, parent := some 2 },
    { kind := .closingTag, span := some ⟨15, 19, 4, 4⟩, parent := some 2 }]

/-- The first call on the third line cuts the words off their line breaks. -/
theorem annotateOne_again_markup : markupSample.WellFormed markupSource ∧ markupSample.Clear ∧
    ∃ doc', markupSample.Calls doc' ∧
      ∃ once twice r, doc'.annotateOne {} 3 ['r'] = .ok (once, r) ∧
        once.annotateOne {} 3 ['r'] = .ok (twice, r.again) ∧
        twice.print markupSource = once.print markupSource := by
  have wf : markupSample.WellFormed markupSource := wellFormed_of_reads (by decide)
  have clear : markupSample.Clear := clear_of_table (by decide)
  have calls : markupSample.Calls (attachBeforeClosing {} markupSample 2 ['q']).1 :=
    ReflTransGen.single ⟨{}, 4, ['q'], .inserted, rfl⟩
  exact ⟨wf, clear, _, calls,
    annotateOne_again wf clear calls {} 3 (by decide) (by decide) (by decide) (by decide)⟩

end Document
end Quell
