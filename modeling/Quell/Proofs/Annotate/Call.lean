import Quell.Proofs.Annotate.Edit

/-!
One call of the annotator.

`Call` says which way a call goes. A call never faults (`annotateOne_ok`), consists of edits
(`Call.edits`), and leaves the rule covered unless it is skipped (`Call.suppresses`).
-/
namespace Quell.Document

open Text Relation

inductive Call (o : AnnotateOptions) (rule : Text) (line : Nat) (doc : Document) :
    Document → Resolution → Prop where
  | missed : doc.startingOn line = [] → Call o rule line doc doc (.skipped .noNodeOnLine)
  | tail {id block : NodeId} {rest : List NodeId} : doc.startingOn line = id :: rest →
      doc.aim id = .blockTail block → doc.Reaches block → doc.kind block = .block →
      Call o rule line doc (attachToBlockTail o doc block rule).1
        (attachToBlockTail o doc block rule).2
  | closing {id p : NodeId} {rest : List NodeId} : doc.startingOn line = id :: rest →
      doc.aim id = .node id (some p) → doc.kind id = .closingTag →
      Call o rule line doc (attachBeforeClosing o doc p rule).1 (attachBeforeClosing o doc p rule).2
  | beside {id p : NodeId} {rest : List NodeId} : doc.startingOn line = id :: rest →
      doc.aim id = .node id (some p) → doc.kind id ≠ .closingTag → doc.Beside id p →
      Call o rule line doc (attachOrdinary o doc id rule).1 (attachOrdinary o doc id rule).2
  | among {id p : NodeId} {rest : List NodeId} {doc' : Document} {r : Resolution} :
      doc.startingOn line = id :: rest → doc.aim id = .node id (some p) →
      doc.kind id ≠ .closingTag → ¬ doc.Beside id p → AttachAmong o rule line p id doc doc' r →
      Call o rule line doc doc' r

section Call

variable {source : Text} {doc doc' : Document} {o : AnnotateOptions} {rule : Text} {line : Nat}

theorem Sound.block_of_aim (sound : doc.Sound source) {id block : NodeId}
    (reached : doc.Reaches id) (h : doc.aim id = .blockTail block) :
    doc.Reaches block ∧ doc.kind block = .block := by
  obtain ⟨p, link, hold, kind⟩ := holds_of_aim h
  have above := sound.linked.reaches_parent reached link (sound.ne_root_of_parent link)
  exact ⟨above.child hold, kind⟩

theorem annotateNode_eq (o : AnnotateOptions) (id p : NodeId) (line : Nat) (rule : Text) :
    annotateNode o doc id (some p) line rule =
      if doc.kind id = .closingTag then .ok (attachBeforeClosing o doc p rule)
      else if doc.Beside id p then .ok (attachOrdinary o doc id rule)
      else attachAmongSiblings o doc p id line rule := by
  unfold annotateNode
  by_cases closing : doc.kind id = .closingTag
  · rw [closing, if_pos rfl]
  · rw [if_neg closing]
    by_cases own : doc.kind id = .attribute
    · rw [own, if_pos (.inl own)]
    · have other : doc.Beside id p ↔ ¬ (doc.kind p != .hole && (doc.kind p).isMarkup) = true := by
        unfold Beside
        simp [own, or_iff_not_imp_left]
      rw [ite_cond_congr (propext other), ite_not]
      generalize doc.kind id = kind at closing own
      cases kind <;> first | rfl | exact absurd rfl closing | exact absurd rfl own

/-- A call never faults. -/
theorem annotateOne_ok (sound : doc.Sound source) (o : AnnotateOptions) (line : Nat)
    (rule : Text) : ∃ doc' r, doc.annotateOne o line rule = .ok (doc', r) ∧
      Call o rule line doc doc' r := by
  unfold annotateOne
  rw [sound.locate_eq]
  cases found : doc.startingOn line with
  | nil => exact ⟨doc, _, rfl, .missed found⟩
  | cons id rest =>
    obtain ⟨reached, starts, p, link, above, -⟩ := sound.first_spec found
    rw [List.head?_cons, Option.map_some]
    rcases aim_node link with aim | ⟨block, aim⟩
    · rw [aim]
      dsimp only
      rw [annotateNode_eq]
      by_cases closing : doc.kind id = .closingTag
      · rw [if_pos closing]
        exact ⟨_, _, rfl, .closing found aim closing⟩
      · rw [if_neg closing]
        by_cases beside : doc.Beside id p
        · rw [if_pos beside]
          exact ⟨_, _, rfl, .beside found aim closing beside⟩
        · rw [if_neg beside]
          have spanned : doc.span id ≠ none := by
            obtain ⟨s, hs, -⟩ := starts.2.2
            rw [hs]
            exact nofun
          obtain ⟨doc', r, result, attached⟩ := attachAmong_ok o line rule sound above
            ((sound.linked.agree p id).mpr link) spanned closing
          exact ⟨doc', r, result, .among found aim closing beside attached⟩
    · obtain ⟨within, kind⟩ := sound.block_of_aim reached aim
      rw [aim]
      exact ⟨_, _, rfl, .tail found aim within kind⟩

end Call

def Changing (r : Resolution) : Prop := r = .inserted ∨ r = .merged

def Altered (doc : Document) : Prop :=
  ∃ id slot c, doc.Reaches id ∧ c ∈ (doc.node id).comments slot ∧
    (c.span = none ∨ c.revised = true)

structure Pristine (doc : Document) : Prop where
  spanned : ∀ id, doc.Reaches id → doc.span id ≠ none
  unaltered : ¬ doc.Altered

/-- The document is reached by edits, and unless the call was skipped a comment covers its rule. A
resolution says whether comments were changed. -/
structure Settles (o : AnnotateOptions) (rule : Text) (doc doc' : Document) (r : Resolution) :
    Prop where
  edits : Edits o rule doc doc'
  covered : (∀ reason, r ≠ .skipped reason) → RuleName rule → doc'.Suppresses rule
  alters : Changing r → doc'.Altered
  spares : ¬ Changing r → doc.Pristine → doc'.Pristine

section Settles

variable {source : Text} {doc doc' : Document} {o : AnnotateOptions} {rule : Text}

theorem Settles.skip (o : AnnotateOptions) (rule : Text) (doc : Document) (reason : SkipReason) :
    Settles o rule doc doc (.skipped reason) :=
  ⟨ReflTransGen.refl, fun h => absurd rfl (h reason), nofun, fun _ plain => plain⟩

theorem Settles.after {mid : Document} {r : Resolution} (edits : Edits o rule doc mid)
    (kept : ¬ Changing r → doc.Pristine → mid.Pristine) (settles : Settles o rule mid doc' r) :
    Settles o rule doc doc' r :=
  ⟨edits.trans settles.edits, settles.covered, settles.alters,
    fun still plain => settles.spares still (kept still plain)⟩

/-- A directive that was put in. -/
theorem Settles.insert (edits : Edits o rule doc doc') (covered : RuleName rule → doc'.Suppresses rule)
    (altered : doc'.Altered) : Settles o rule doc doc' .inserted :=
  ⟨edits, fun _ => covered, fun _ => altered, fun still => absurd (.inl rfl) still⟩

theorem mergeInto_covers {id : NodeId} {slot : Slot} {r : Resolution} (valid : id < doc.nodes.size)
    (name : RuleName rule) (settled : Resolution.ofMerge (doc.mergeInto id slot rule).2 = some r) :
    (doc.mergeInto id slot rule).1.Covers id slot rule := by
  rcases doc.mergeInto_cases id slot rule with h | ⟨h, covers⟩ | ⟨cs, c, c', held, merged, h⟩
  · rw [h] at settled
    cases settled
  · rw [h]
    exact covers
  · rw [h]
    refine ⟨cs, c', ?_, Comment.merge_suppresses name merged⟩
    rw [comments_update valid, if_pos ⟨rfl, rfl⟩]

theorem mergeInto_settles {id : NodeId} {slot : Slot} {r : Resolution} (sound : doc.Sound source)
    (reached : doc.Reaches id)
    (room : slot = .inner → doc.kind id = .block → doc.children id = [])
    (settled : Resolution.ofMerge (doc.mergeInto id slot rule).2 = some r) :
    Settles o rule doc (doc.mergeInto id slot rule).1 r := by
  have covers := fun name => mergeInto_covers (sound.reaches_lt reached) name settled
  rcases doc.mergeInto_cases id slot rule with h | ⟨h, -⟩ | ⟨cs, c, c', held, merged, h⟩
  · rw [h] at settled
    cases settled
  · rw [h] at covers settled ⊢
    cases settled
    exact ⟨ReflTransGen.refl, fun _ name => (covers name).suppresses reached, nofun, fun _ plain => plain⟩
  · rw [h] at covers settled ⊢
    cases settled
    have reached' : (doc.update id (·.setComments slot (cs ++ [c']))).Reaches id :=
      (reaches_of_same fun j => (tree_setComments j).2.2.1).mpr reached
    refine ⟨ReflTransGen.single (.extend reached held merged room),
      fun _ name => (covers name).suppresses reached', fun _ => ?_, fun still => absurd (.inr rfl) still⟩
    refine ⟨id, slot, c', reached', ?_, .inr (Comment.merge_parses merged).2.2.2.1⟩
    rw [comments_update (sound.reaches_lt reached), if_pos ⟨rfl, rfl⟩]
    simp

theorem directiveText_suppresses (o : AnnotateOptions) (form : Directive.Form)
    (name : RuleName rule) (c : Comment) (text : c.text = directiveText o form rule c.kind) :
    c.Suppresses rule := by
  refine ⟨⟨form, [rule], Directive.why o.message⟩, ?_, by simp [Directive.suppresses]⟩
  rw [text]
  exact Directive.parse_single form name o.message c.kind

theorem appendComment_suppresses {id : NodeId} (sound : doc.Sound source)
    (reached : doc.Reaches id) (slot : Slot) {c : Comment} (covered : c.Suppresses rule) :
    (doc.appendComment id slot c).Suppresses rule := by
  refine ⟨id, slot, c, reaches_appendComment.mpr reached, ?_, covered⟩
  rw [comments_appendComment (sound.reaches_lt reached), if_pos ⟨rfl, rfl⟩]
  simp

theorem appendComment_altered {id : NodeId} (sound : doc.Sound source) (reached : doc.Reaches id)
    (slot : Slot) {c : Comment} (new : c.span = none) : (doc.appendComment id slot c).Altered := by
  refine ⟨id, slot, c, reaches_appendComment.mpr reached, ?_, .inl new⟩
  rw [comments_appendComment (sound.reaches_lt reached), if_pos ⟨rfl, rfl⟩]
  simp

theorem besideComment_suppresses (o : AnnotateOptions) (name : RuleName rule) :
    (besideComment o rule).2.Suppresses rule := by
  unfold besideComment
  split
  · exact directiveText_suppresses o .sameLine name _ rfl
  · exact directiveText_suppresses o .nextLine name _ rfl

/-- A comment at the target itself: merged in front, merged behind, or new. -/
theorem attachOrdinary_cases (o : AnnotateOptions) (doc : Document) (id : NodeId) (rule : Text) :
    (∃ r, Resolution.ofMerge (doc.mergeInto id .leading rule).2 = some r ∧
      attachOrdinary o doc id rule = ((doc.mergeInto id .leading rule).1, r)) ∨
    doc.mergeInto id .leading rule = (doc, .notADirective) ∧
    ((∃ r, Resolution.ofMerge (doc.mergeInto id .trailing rule).2 = some r ∧
      attachOrdinary o doc id rule = ((doc.mergeInto id .trailing rule).1, r)) ∨
    doc.mergeInto id .trailing rule = (doc, .notADirective) ∧
      attachOrdinary o doc id rule =
        (doc.appendComment id (besideComment o rule).1 (besideComment o rule).2, .inserted)) := by
  unfold attachOrdinary
  cases leading : Resolution.ofMerge (doc.mergeInto id .leading rule).2 with
  | some r => exact .inl ⟨r, rfl, by simp [leading]⟩
  | none =>
    have same := mergeInto_unsettled leading
    have unread : Resolution.ofMerge .notADirective = none := rfl
    refine .inr ⟨same, ?_⟩
    cases trailing : Resolution.ofMerge (doc.mergeInto id .trailing rule).2 with
    | some r => exact .inl ⟨r, rfl, by simp [same, trailing, unread]⟩
    | none =>
      have same' := mergeInto_unsettled trailing
      refine .inr ⟨same', ?_⟩
      rw [same]
      dsimp only [Resolution.ofMerge]
      rw [same']
      unfold besideComment
      cases o.inline <;> rfl

theorem attachOrdinary_settles {line : Nat} {id p : NodeId} {rest : List NodeId}
    (sound : doc.Sound source) (found : doc.startingOn line = id :: rest)
    (aim : doc.aim id = .node id (some p)) (beside : doc.Beside id p) :
    Settles o rule doc (attachOrdinary o doc id rule).1 (attachOrdinary o doc id rule).2 := by
  have reached := (sound.first_spec found).1
  rcases attachOrdinary_cases o doc id rule with
    ⟨r, settled, e⟩ | ⟨leading, ⟨r, settled, e⟩ | ⟨trailing, e⟩⟩
  · rw [e]
    exact mergeInto_settles sound reached nofun settled
  · rw [e]
    exact mergeInto_settles sound reached nofun settled
  · rw [e]
    have bare : doc.Bare id (besideComment o rule).1 := by
      unfold besideComment
      split
      · exact bare_of_unread (by rw [trailing])
      · exact bare_of_unread (by rw [leading])
    refine .insert (ReflTransGen.single (.beside found aim beside bare)) (fun name => ?_) ?_
    · exact appendComment_suppresses sound reached _ (besideComment_suppresses o name)
    · exact appendComment_altered sound reached _ (besideComment_span o rule)

/-- A comment at the end of a block with statements: merged or new. -/
theorem attachBehindLast_cases (o : AnnotateOptions) {block last : NodeId} (rule : Text)
    (found : (doc.children block).getLast? = some last) :
    (∃ r, Resolution.ofMerge (doc.mergeInto last .trailing rule).2 = some r ∧
      attachBehindLast o doc block rule = ((doc.mergeInto last .trailing rule).1, r)) ∨
    doc.mergeInto last .trailing rule = (doc, .notADirective) ∧
      attachBehindLast o doc block rule =
        (doc.appendComment last .trailing (behindComment o rule), .inserted) := by
  unfold attachBehindLast
  rw [found]
  dsimp only
  cases trailing : Resolution.ofMerge (doc.mergeInto last .trailing rule).2 with
  | some r => exact .inl ⟨r, rfl, by simp⟩
  | none =>
    have same := mergeInto_unsettled trailing
    refine .inr ⟨same, ?_⟩
    rw [same]
    rfl

theorem attachBehindLast_settles {block last : NodeId} (sound : doc.Sound source)
    (reached : doc.Reaches block) (kind : doc.kind block = .block)
    (found : (doc.children block).getLast? = some last) :
    Settles o rule doc (attachBehindLast o doc block rule).1 (attachBehindLast o doc block rule).2 := by
  have reached' := (sound.last_statement reached kind found).1
  rcases attachBehindLast_cases o rule found with ⟨r, settled, e⟩ | ⟨trailing, e⟩
  · rw [e]
    exact mergeInto_settles sound reached' nofun settled
  · rw [e]
    have bare : doc.Bare last .trailing := bare_of_unread (by rw [trailing])
    refine .insert (ReflTransGen.single (.behind reached kind found bare)) (fun name => ?_) ?_
    · exact appendComment_suppresses sound reached' _ (directiveText_suppresses o .nextLine name _ rfl)
    · exact appendComment_altered sound reached' _ rfl

theorem addPlaceholder_children {block : NodeId} (valid : block < doc.nodes.size)
    (empty : doc.children block = []) :
    (doc.addPlaceholder block).1.children block = [doc.nodes.size] := by
  rw [(addPlaceholder_spec valid).1.children_here, empty]
  rfl

theorem attachBehindLast_placeholder {block : NodeId} (valid : block < doc.nodes.size)
    (empty : doc.children block = []) (o : AnnotateOptions) (rule : Text) :
    (attachBehindLast o (doc.addPlaceholder block).1 block rule).2 = .inserted := by
  obtain ⟨-, -, node⟩ := addPlaceholder_spec valid
  have last : ((doc.addPlaceholder block).1.children block).getLast? = some doc.nodes.size := by
    rw [addPlaceholder_children valid empty]
    rfl
  rcases attachBehindLast_cases o rule last with ⟨r, settled, -⟩ | ⟨-, e⟩
  · unfold mergeInto at settled
    rw [node] at settled
    cases settled
  · rw [e]

theorem attachToBlockTail_settles {block : NodeId} (sound : doc.Sound source)
    (reached : doc.Reaches block) (kind : doc.kind block = .block) :
    Settles o rule doc (attachToBlockTail o doc block rule).1
      (attachToBlockTail o doc block rule).2 := by
  have valid := sound.reaches_lt reached
  unfold attachToBlockTail
  cases found : (doc.children block).getLast? with
  | none =>
    have empty := List.getLast?_eq_none_iff.mp found
    rw [if_pos (by rw [empty]; rfl)]
    dsimp only
    cases settled : Resolution.ofMerge (doc.mergeInto block .inner rule).2 with
    | some r => exact mergeInto_settles sound reached (fun _ _ => empty) settled
    | none =>
      dsimp only
      have unread := mergeInto_unsettled settled
      rw [unread]
      have filled : Edit o rule doc (doc.addPlaceholder block).1 :=
        .fill reached kind empty (bare_of_unread (by rw [unread]))
      obtain ⟨splice, -, -⟩ := addPlaceholder_spec valid
      have last : ((doc.addPlaceholder block).1.children block).getLast? = some doc.nodes.size := by
        rw [addPlaceholder_children valid empty]
        rfl
      have inserted := attachBehindLast_placeholder valid empty o rule
      refine .after (ReflTransGen.single filled) (fun still => absurd (.inl inserted) still)
        (attachBehindLast_settles (filled.sound sound) ?_ ?_ last)
      · exact splice.reaches_kept sound.linked reached nofun
      · rw [(splice.content valid).1, kind]
  | some last =>
    rw [if_neg (fun h => by rw [List.isEmpty_iff.mp h] at found; cases found)]
    exact attachBehindLast_settles sound reached kind found

theorem Noted.reaches_slot {p : NodeId} {A C : List NodeId} {lead : Option Text} {body gap : Text}
    (noted : doc.Noted doc' p A C lead body gap) (sound : doc.Sound source)
    (reached : doc.Reaches p) : doc'.Reaches (doc.nodes.size + 1) := by
  have above := noted.splice.reaches_kept sound.linked reached nofun
  have hole : doc'.Holds p doc.nodes.size := by
    unfold Holds
    rw [noted.splice.children_here]
    cases lead <;> simp [noteIds]
  have slot : doc'.Holds doc.nodes.size (doc.nodes.size + 1) := by
    unfold Holds children
    rw [noted.hole]
    simp
  exact (above.child hole).child slot

theorem Noted.mem_slot {p : NodeId} {A C : List NodeId} {lead : Option Text} {body gap : Text}
    (noted : doc.Noted doc' p A C lead body gap) :
    noteOf body ∈ (doc'.node (doc.nodes.size + 1)).comments .inner := by
  rw [noted.slot]
  simp [Node.comments]

/-- A new markup comment covers its rule. -/
theorem Noted.suppresses {p : NodeId} {A C : List NodeId} {lead : Option Text} {body gap : Text}
    (noted : doc.Noted doc' p A C lead body gap) (sound : doc.Sound source)
    (reached : doc.Reaches p) (covered : (noteOf body).Suppresses rule) :
    doc'.Suppresses rule :=
  ⟨doc.nodes.size + 1, .inner, noteOf body, noted.reaches_slot sound reached, noted.mem_slot, covered⟩

theorem Noted.altered {p : NodeId} {A C : List NodeId} {lead : Option Text} {body gap : Text}
    (noted : doc.Noted doc' p A C lead body gap) (sound : doc.Sound source)
    (reached : doc.Reaches p) : doc'.Altered :=
  ⟨doc.nodes.size + 1, .inner, noteOf body, noted.reaches_slot sound reached, noted.mem_slot, .inl rfl⟩

theorem tailText_congr {ids : List NodeId} (same : ∀ id ∈ ids, doc'.text? id = doc.text? id) :
    doc'.tailText ids = doc.tailText ids := by
  induction ids with
  | nil => rfl
  | cons id ids ih =>
    rw [tailText, tailText, same id (by simp), ih fun x hx => same x (by simp [hx])]

theorem Arranged.mergeBefore_cases {p first : NodeId} {items closing : List NodeId}
    (arranged : doc.Arranged p) (layout : doc.Layout p first items closing)
    (markup : (doc.kind p).hasMarkupChildren = true) (rule : Text) :
    (∃ e r, doc.nearestSlot items = some e ∧
      Resolution.ofMerge (doc.mergeInto e .inner rule).2 = some r ∧
      doc.mergeBefore p (1 + items.length) rule = doc.mergeInto e .inner rule) ∨
    doc.mergeBefore p (1 + items.length) rule = (doc, .notADirective) ∧
      ∀ y ∈ items.getLast?, doc.span y ≠ none := by
  obtain ⟨o, body, tail, closing', layout', rows, tails, -⟩ := arranged
  obtain ⟨rfl, rfl, rfl⟩ := layout.unique layout'
  rcases tails with rfl | ⟨u, h, b, rfl, -, note, gap⟩
  · rw [List.append_nil] at layout ⊢
    rcases Document.mergeBefore_cases (R := []) (by rwa [List.append_nil]) markup rows rule with
      settled | ⟨merged, flat⟩
    · exact .inl settled
    · refine .inr ⟨merged, fun y last => ?_⟩
      obtain ⟨Z, rfl⟩ := List.getLast?_eq_some_iff.mp last
      rcases rows.ends with ⟨spanned, -⟩ | ⟨-, -, -, -, gap, -⟩
      · exact spanned
      · exact absurd gap (flat y last)
  · -- The comment that is there already takes the rule.
    obtain ⟨e, c, slot, held, parses⟩ := nearestSlot_note (X := body ++ [u]) note gap
    rw [List.append_assoc, List.singleton_append] at slot
    have look := mergeBefore_eq (R := []) (by rwa [List.append_nil]) markup rule
    rw [slot] at look
    have handled := mergeInto_handled (by rw [held]; rfl) parses rule
    refine .inl ⟨e, ?_⟩
    cases settled : Resolution.ofMerge (doc.mergeInto e .inner rule).2 with
    | some r => exact ⟨r, slot, rfl, look⟩
    | none =>
      rw [mergeInto_unsettled settled] at handled
      exact absurd rfl handled

theorem newLedNote_eq (doc : Document) (body lead gap : Text) :
    (((doc.newMarkupComment body).1.newText lead).1.newText gap).1 =
      doc.withNote body [lead, gap] ∧
    [((doc.newMarkupComment body).1.newText lead).2, (doc.newMarkupComment body).2,
        (((doc.newMarkupComment body).1.newText lead).1.newText gap).2] =
      [doc.nodes.size + 2, doc.nodes.size, doc.nodes.size + 3] := by
  refine ⟨rfl, ?_⟩
  unfold newText
  rw [alloc_snd, alloc_snd, size_alloc, newMarkupComment_size]
  rfl

theorem attachBeforeClosing_cases (o : AnnotateOptions) {id p : NodeId} (sound : doc.Sound source)
    (reached : doc.Reaches p) (markup : (doc.kind p).hasMarkupChildren = true)
    (hold : doc.Holds p id) (kind : doc.kind id = .closingTag) (rule : Text) :
    ∃ first items, doc.Layout p first items [id] ∧
    ((∃ e r, doc.nearestSlot items = some e ∧
      Resolution.ofMerge (doc.mergeInto e .inner rule).2 = some r ∧
      attachBeforeClosing o doc p rule = ((doc.mergeInto e .inner rule).1, r)) ∨
    (∀ y ∈ items.getLast?, doc.span y ≠ none) ∧ ∃ doc', ∃ indent : Option Text,
      trailingIndent (doc.tailText items.reverse) = indent ∧
      doc.Noted doc' p (first :: items) [id] (indent.map Press.indentUnit)
        (directiveText o .nextLine rule .block) (doc.eol.text ++ indent.getD []) ∧
      attachBeforeClosing o doc p rule = (doc', .inserted)) := by
  have arranged := (sound.each p reached).arranged markup
  have ⟨first, body, tail, closing, layout, _⟩ := arranged
  generalize body ++ tail = items at layout
  obtain rfl : closing = [id] := by
    unfold Holds at hold
    rw [layout.split] at hold
    simp only [List.mem_cons, List.mem_append] at hold
    rcases hold with rfl | h | h
    · rw [layout.opening.1] at kind
      cases kind
    · exact absurd kind (layout.items id h).2
    · rcases layout.closing with rfl | ⟨c, rfl, -⟩
      · cases h
      · rw [List.mem_singleton.mp h]
  refine ⟨first, items, layout, ?_⟩
  have between : ((doc.children p).take (1 + items.length)).drop 1 = items := by
    rw [layout.split, take_drop_behind]
  unfold attachBeforeClosing
  rw [layout.markupRange markup]
  dsimp only
  rcases arranged.mergeBefore_cases layout markup rule with
    ⟨e, r, slot, settled, merged⟩ | ⟨merged, spanned⟩
  · rw [merged]
    refine .inl ⟨e, r, slot, settled, ?_⟩
    rw [settled]
  · refine .inr ⟨spanned, ?_⟩
    rw [merged]
    dsimp only [Resolution.ofMerge]
    rw [between]
    have valid := sound.reaches_lt reached
    have same : (doc.newMarkupComment (directiveText o .nextLine rule .block)).1.tailText
        items.reverse = doc.tailText items.reverse := by
      refine tailText_congr fun x hx => ?_
      have lt := sound.linked.child_lt (layout.mem_children (List.mem_reverse.mp hx))
      unfold text? Document.kind
      rw [newMarkupComment_node, if_neg (Nat.ne_of_lt lt),
        if_neg (Nat.ne_of_lt (Nat.lt_succ_of_lt lt))]
    have split : doc.children p = (first :: items) ++ [id] := layout.split
    have index : 1 + items.length = (first :: items).length := Nat.add_comm 1 _
    rw [same, index]
    generalize directiveText o .nextLine rule .block = body
    cases run : trailingIndent (doc.tailText items.reverse) with
    | none =>
      obtain ⟨made, ids⟩ := newNote_eq doc body doc.eol.text
      refine ⟨(doc.withNote body [doc.eol.text]).insertChildren p (first :: items).length
        [doc.nodes.size, doc.nodes.size + 2], none, rfl, ?_, ?_⟩
      · rw [Option.getD_none, List.append_nil]
        exact noted_pair valid split body doc.eol.text
      · rw [← made, ← ids]
        rfl
    | some indent =>
      obtain ⟨made, ids⟩ :=
        newLedNote_eq doc body (Press.indentUnit indent) (doc.eol.text ++ indent)
      refine ⟨(doc.withNote body [Press.indentUnit indent, doc.eol.text ++ indent]).insertChildren p
        (first :: items).length [doc.nodes.size + 2, doc.nodes.size, doc.nodes.size + 3],
        some indent, rfl, ?_, ?_⟩
      · exact noted_triple valid split (Press.indentUnit indent) body (doc.eol.text ++ indent)
      · rw [← made, ← ids]
        rfl

end Settles

section Among

variable {source : Text} {doc doc' : Document} {o : AnnotateOptions} {rule : Text} {line : Nat}
variable {p target : NodeId}

theorem Slits.edits (slits : Slits p target doc doc') (sound : doc.Sound source)
    (reached : doc.Reaches p) (markup : (doc.kind p).hasMarkupChildren = true) :
    Edits o rule doc doc' := by
  induction slits with
  | refl => exact ReflTransGen.refl
  | tail slits slit ih =>
    obtain ⟨-, reached', kind', -⟩ := Slits.spec slits sound reached markup
    obtain ⟨A, id, C, t, s, -, span, -, -, recut⟩ := slit
    exact ih.tail (.cut reached' (by rw [kind', markup]) span
      (fun u hu => settled_of_mem_segments hu) recut (isChain_segments t))

theorem Slit.pristine (slit : Slit p target doc doc') (sound : doc.Sound source) (reached : doc.Reaches p)
    (markup : (doc.kind p).hasMarkupChildren = true) (plain : doc.Pristine) : doc'.Pristine := by
  have sound' := slit.sound sound reached markup
  obtain ⟨A, id, C, t, s, -, span, -, -, recut⟩ := slit
  have ok := sound.each id (reached.child (recut.splice.holds_of_mem (List.mem_singleton_self id)))
  have each : ∀ j, doc'.Reaches j → doc'.span j ≠ none ∧ ∀ slot, ∀ c ∈ (doc'.node j).comments slot,
      ¬ (c.span = none ∨ c.revised = true) := by
    intro j reached'
    rcases Nat.lt_or_ge j doc.nodes.size with lt | ge
    · obtain ⟨-, span', comments⟩ := recut.splice.content lt
      have old := (recut.splice.reaches_old sound.linked reached' lt).1
      rw [span']
      refine ⟨plain.spanned j old, fun slot c mem new => plain.unaltered ?_⟩
      exact ⟨j, slot, c, old, comments slot ▸ mem, new⟩
    · have lt := sound'.reaches_lt reached'
      rw [recut.size] at lt
      have part := List.mem_range'_1.mpr ⟨ge, lt⟩
      obtain ⟨_, _, -, -, node, -⟩ := recut.fragment ok span part
      obtain ⟨-, silent⟩ := recut.nodeOk_new ok span part
      refine ⟨?_, fun slot c mem => ?_⟩
      · unfold Document.span
        rw [node]
        exact nofun
      · rw [silent slot] at mem
        cases mem
  refine ⟨fun j hj => (each j hj).1, ?_⟩
  rintro ⟨j, slot, c, hj, mem, new⟩
  exact (each j hj).2 slot c mem new

theorem Slits.pristine (slits : Slits p target doc doc') (sound : doc.Sound source)
    (reached : doc.Reaches p) (markup : (doc.kind p).hasMarkupChildren = true) (plain : doc.Pristine) :
    doc'.Pristine := by
  induction slits with
  | refl => exact plain
  | tail slits slit ih =>
    obtain ⟨sound', reached', kind', -⟩ := Slits.spec slits sound reached markup
    exact slit.pristine sound' reached' (by rw [kind', markup]) ih

structure Roomy (source : Text) (room : Document) (p : NodeId) (A C : List NodeId) (indent : Text) :
    Prop where
  sound : room.Sound source
  reached : room.Reaches p
  markup : (room.kind p).hasMarkupChildren = true
  whole : ∀ y ∈ A, room.Whole y
  next : ∃ x C', C = x :: C' ∧ room.span x ≠ none ∧
    room.kind x ≠ .openingTag ∧ room.kind x ≠ .closingTag
  blank : allBlank indent = true ∧ '\n' ∉ indent
  margin : room.Margin A indent
  opens : room.Opens p A C

theorem whole_of_tag {id : NodeId} (kind : doc.kind id = .openingTag) : doc.Whole id := by
  intro t ht
  unfold text? at ht
  rw [kind] at ht
  cases ht

theorem Spot.next {first : NodeId} {X₁ X₂ R closing G : List NodeId}
    (spot : doc.Spot p target line first X₁ X₂ R closing) (spanned : doc.span target ≠ none)
    (part : ∀ x ∈ G, x ∈ X₂) :
    ∃ x C', G ++ target :: R ++ closing = x :: C' ∧ doc.span x ≠ none ∧
      doc.kind x ≠ .openingTag ∧ doc.kind x ≠ .closingTag ∧ (x ∈ X₂ ∨ x = target) := by
  cases G with
  | nil =>
    obtain ⟨h, h'⟩ := spot.layout.items target (by simp)
    exact ⟨target, R ++ closing, rfl, spanned, h, h', .inr rfl⟩
  | cons x G =>
    have mem := part x (by simp)
    obtain ⟨h, h'⟩ := spot.layout.items x (by simp [mem])
    exact ⟨x, G ++ target :: R ++ closing, rfl, (spot.group.on x mem).1, h, h', .inl mem⟩

theorem Spot.opens {first : NodeId} {X₁ X₂ R closing A G : List NodeId}
    (spot : doc.Spot p target line first X₁ X₂ R closing) (hits : doc.Hits line p target)
    (part : ∀ x ∈ G, x ∈ X₂)
    (above : ∀ b ∈ A.getLast?, doc.text? b = none → doc.kind b ≠ .openingTag →
      ∀ s, doc.span b = some s → s.startLine ≠ line) :
    doc.Opens p A (G ++ target :: R ++ closing) := by
  obtain ⟨s, span, start⟩ := hits.start
  exact ⟨line, hits.outer, above, G, target, R ++ closing, s, by simp,
    fun g hg => spot.group.on g (part g hg), span, start⟩

theorem Spot.roomy_own {first x : NodeId} {X₁ G R closing : List NodeId} {t : Text}
    (sound : doc.Sound source) (reached : doc.Reaches p)
    (markup : (doc.kind p).hasMarkupChildren = true)
    (spot : doc.Spot p target line first X₁ (x :: G) R closing)
    (hits : doc.Hits line p target) (flat : ∀ b ∈ X₁.getLast?, ¬ doc.Gap b)
    (own : doc.OwnIndent X₁ x t) :
    Roomy source doc p (first :: (X₁ ++ [x])) (G ++ target :: R ++ closing) t := by
  obtain ⟨value, ne, blank, ends⟩ := own
  have on := spot.group.on x (by simp)
  have free : '\n' ∉ t := by
    rcases on.2 with ⟨u, hu, free⟩ | ⟨none, -⟩
    · cases value.symm.trans hu
      exact free
    · cases value.symm.trans none
  obtain ⟨y, C', e, hy, h, h', -⟩ := spot.next (G := G) hits.spanned fun z hz => by simp [hz]
  refine ⟨sound, reached, markup, ?_, ⟨y, C', e, hy, h, h'⟩, ⟨blank, free⟩, ?_, ?_⟩
  · intro z hz
    rcases List.mem_cons.mp hz with rfl | hz
    · exact whole_of_tag spot.layout.opening.1
    · refine spot.whole z ?_
      simp only [List.mem_append, List.mem_cons, List.not_mem_nil, or_false] at hz ⊢
      tauto
  · refine .inl ⟨first :: X₁, x, rfl, value, on.1, fun b hb => ?_⟩
    rcases List.eq_nil_or_concat X₁ with rfl | ⟨Z, c, rfl⟩
    · cases hb
      exact .inl spot.layout.opening.1
    · rw [List.concat_eq_append] at *
      rw [← List.cons_append, List.getLast?_concat] at hb
      cases hb
      refine .inr ⟨ends b (by simp), ?_⟩
      rcases spot.rows.ends with ⟨spanned, -⟩ | ⟨-, -, -, -, gap, -⟩
      · exact spanned
      · exact absurd gap (flat b (by simp))
  · refine spot.opens hits (fun z hz => by simp [hz]) fun b last solid => ?_
    rw [← List.cons_append, List.getLast?_concat] at last
    cases last
    cases value.symm.trans solid

theorem Spot.roomy_split {first b : NodeId} {Z X₂ R closing : List NodeId} {a run : Text} {s : Span}
    {room : Document} (sound : doc.Sound source) (reached : doc.Reaches p)
    (markup : (doc.kind p).hasMarkupChildren = true)
    (spot : doc.Spot p target line first (Z ++ [b]) X₂ R closing)
    (hits : doc.Hits line p target) (value : doc.text? b = some (a ++ ['\n'] ++ run))
    (span : doc.span b = some s) (ne : run ≠ []) (blank : allBlank run = true) (free : '\n' ∉ run)
    (recut : doc.Recut room p (first :: Z) b (X₂ ++ target :: R ++ closing) [a ++ ['\n'], run]) :
    (∀ o rule, Edit o rule doc room) ∧
    Roomy source room p (first :: (Z ++ [doc.nodes.size, doc.nodes.size + 1]))
      (X₂ ++ target :: R ++ closing) run := by
  have settled : ∀ t ∈ [a ++ ['\n'], run], Settled t := by
    have whole := spot.whole b (by simp) _ value
    intro t ht
    rcases List.mem_pair.mp ht with rfl | rfl
    · exact settled_line whole ne
    · exact Fragment.settled (.inr (.inr ⟨ne, free, .inl blank⟩))
  have joint : [a ++ ['\n'], run].IsChain Meets := by simp [Meets]
  have edit : ∀ o rule, Edit o rule doc room := fun _ _ =>
    .cut reached markup span settled recut joint
  obtain ⟨reached', kind'⟩ := recut.reaches sound reached
  have nodup := sound.linked.nodup p
  rw [recut.splice.split] at nodup
  have stays : ∀ x, x ∈ first :: Z ∨ x ∈ X₂ ++ target :: R ++ closing →
      doc.Keeps room x := by
    intro x hx
    have hold : doc.Holds p x := by
      unfold Holds
      rw [recut.splice.split]
      rcases hx with h | h
      · exact List.mem_append_left _ (List.mem_append_left _ h)
      · exact List.mem_append_right _ h
    refine (recut.stays sound reached span hold ?_).2
    rintro rfl
    rcases hx with h | h
    · exact List.disjoint_of_nodup_append (List.nodup_append.mp nodup).1 h (by simp)
    · exact List.disjoint_of_nodup_append nodup (by simp) h
  have front := recut.part 0 _ rfl
  have back := recut.part 1 _ rfl
  rw [Nat.add_zero] at front
  have span_of : ∀ {n : NodeId} {t u : Text},
      room.span n = (doc.span b).map (fragmentSpan · u t) → room.span n ≠ none := by
    intro n t u e
    rw [e, span]
    exact nofun
  obtain ⟨y, C', e, hy, h, h', mem⟩ := spot.next (G := X₂) hits.spanned fun z hz => hz
  have keeps := stays y (.inr (e ▸ List.mem_cons_self ..))
  refine ⟨edit, (edit default []).sound sound, reached', by rw [kind', markup], ?_, ⟨y, C', e, ?_, ?_, ?_⟩,
    ⟨blank, free⟩, .inl ⟨first :: (Z ++ [doc.nodes.size]), doc.nodes.size + 1, by simp,
      text?_of_node back rfl, span_of (congrArg Node.span back), fun c hc => ?_⟩, ?_⟩
  · intro z hz
    rw [← List.cons_append] at hz
    rcases List.mem_append.mp hz with hz | hz
    · refine (stays z (.inl hz)).whole ?_
      rcases List.mem_cons.mp hz with rfl | hz
      · exact whole_of_tag spot.layout.opening.1
      · exact spot.whole z (by simp [hz])
    · intro t ht
      rcases List.mem_pair.mp hz with rfl | rfl
      · rw [text?_of_node front rfl] at ht
        exact settled t (by simp [Option.some.inj ht])
      · rw [text?_of_node back rfl] at ht
        exact settled t (by simp [Option.some.inj ht])
  · rw [keeps.span]
    exact hy
  · rw [keeps.kind]
    exact h
  · rw [keeps.kind]
    exact h'
  · rw [← List.cons_append, List.getLast?_concat] at hc
    cases hc
    exact .inr ⟨⟨_, text?_of_node front rfl, by simp⟩, span_of (congrArg Node.span front)⟩
  · obtain ⟨s', span', start⟩ := hits.start
    refine ⟨line, ?_, fun c last solid => ?_, X₂, target, R ++ closing, s', by simp, fun g hg => ?_, ?_,
      start⟩
    · unfold Document.span
      rw [recut.splice.here]
      exact hits.outer
    · have same : first :: (Z ++ [doc.nodes.size, doc.nodes.size + 1]) =
          first :: (Z ++ [doc.nodes.size]) ++ [doc.nodes.size + 1] := by simp
      rw [same, List.getLast?_concat] at last
      cases last
      cases (text?_of_node back rfl).symm.trans solid
    · exact (stays g (.inr (by simp [hg]))).onLine (spot.group.on g hg)
    · rw [(stays target (.inr (by simp))).span, span']

theorem Spot.roomy_flush {first : NodeId} {X₁ X₂ R closing : List NodeId} (sound : doc.Sound source)
    (reached : doc.Reaches p) (markup : (doc.kind p).hasMarkupChildren = true)
    (spot : doc.Spot p target line first X₁ X₂ R closing) (hits : doc.Hits line p target)
    (plain : ∀ b ∈ X₁.getLast?, ∀ t, doc.text? b = some t → trailingIndent t = none) :
    Roomy source doc p (first :: X₁) (X₂ ++ target :: R ++ closing) [] := by
  obtain ⟨y, C', e, hy, h, h', -⟩ := spot.next (G := X₂) hits.spanned fun z hz => hz
  refine ⟨sound, reached, markup, ?_, ⟨y, C', e, hy, h, h'⟩, ⟨rfl, nofun⟩, .inr ⟨rfl, ?_⟩, ?_⟩
  · intro z hz
    rcases List.mem_cons.mp hz with rfl | hz
    · exact whole_of_tag spot.layout.opening.1
    · exact spot.whole z (by simp [hz])
  · intro b hb t ht
    rcases List.eq_nil_or_concat X₁ with rfl | ⟨Z, c, rfl⟩
    · obtain rfl : first = b := by simpa using hb
      unfold text? at ht
      rw [spot.layout.opening.1] at ht
      cases ht
    · rw [List.concat_eq_append] at *
      rw [← List.cons_append, List.getLast?_concat] at hb
      cases hb
      refine ⟨?_, plain b (by simp) t ht⟩
      rcases spot.group.above b (by simp) with ⟨u, hu, breaks⟩ | ⟨none, -⟩
      · cases ht.symm.trans hu
        exact breaks
      · cases ht.symm.trans none
  · refine spot.opens hits (fun z hz => hz) fun b last solid tag s span => ?_
    rcases List.eq_nil_or_concat X₁ with rfl | ⟨Z, c, rfl⟩
    · obtain rfl : first = b := by simpa using last
      exact absurd spot.layout.opening.1 tag
    · rw [List.concat_eq_append] at *
      rw [← List.cons_append, List.getLast?_concat] at last
      cases last
      rcases spot.group.above b (by simp) with ⟨u, hu, -⟩ | ⟨-, s', span', other⟩
      · cases solid.symm.trans hu
      · cases span.symm.trans span'
        exact other

theorem Room.roomy {first : NodeId} {X₁ X₂ R closing Z G : List NodeId} {room : Document}
    {indent : Text} (made : Room doc p target first X₁ X₂ R closing room Z G indent)
    (sound : doc.Sound source) (reached : doc.Reaches p)
    (markup : (doc.kind p).hasMarkupChildren = true)
    (spot : doc.Spot p target line first X₁ X₂ R closing) (hits : doc.Hits line p target)
    (flat : ∀ b ∈ X₁.getLast?, ¬ doc.Gap b) :
    (∀ o rule, Edits o rule doc room) ∧
      Roomy source room p (first :: Z) (G ++ target :: R ++ closing) indent := by
  cases made with
  | own e indent =>
    subst e
    exact ⟨fun _ _ => ReflTransGen.refl, spot.roomy_own sound reached markup hits flat indent⟩
  | split e value span ne blank free recut =>
    subst e
    obtain ⟨edit, roomy⟩ := spot.roomy_split sound reached markup hits value span ne blank free
      recut
    exact ⟨fun o rule => ReflTransGen.single (edit o rule), roomy⟩
  | flush _ plain =>
    exact ⟨fun _ _ => ReflTransGen.refl, spot.roomy_flush sound reached markup hits plain⟩

/-- The edit that puts a markup comment where there is room. -/
theorem Roomy.edit {room : Document} {A C : List NodeId} {indent : Text}
    (roomy : Roomy source room p A C indent)
    (noted : room.Noted doc' p A C none (directiveText o .nextLine rule .block)
      (room.eol.text ++ indent)) : Edit o rule room doc' := by
  obtain ⟨x, C', rfl, spanned, plain⟩ := roomy.next
  exact .among roomy.reached roomy.markup spanned plain roomy.whole roomy.blank.1 roomy.blank.2
    roomy.margin noted roomy.opens

theorem nearestSlot_reaches {X : List NodeId} {e : NodeId} (reached : doc.Reaches p)
    (held : ∀ x ∈ X, doc.Holds p x) (found : doc.nearestSlot X = some e) : doc.Reaches e := by
  obtain ⟨h, mem, hold, -⟩ := nearestSlot_holds found
  exact (reached.child (held h mem)).child hold

theorem nearestSlot_kind {X : List NodeId} {e : NodeId} (found : doc.nearestSlot X = some e) :
    doc.kind e ≠ .block := by
  obtain ⟨_, -, -, kind⟩ := nearestSlot_holds found
  rw [kind]
  exact nofun

theorem AmongSiblings.settles {r : Resolution}
    (among : AmongSiblings o rule line p target doc doc' r) (sound : doc.Sound source)
    (reached : doc.Reaches p) (markup : (doc.kind p).hasMarkupChildren = true)
    (hits : doc.Hits line p target) : Settles o rule doc doc' r := by
  cases among with
  | tag => exact .skip o rule doc _
  | merge spot slot settled =>
    refine mergeInto_settles sound (nearestSlot_reaches reached (fun x hx => ?_) slot) ?_ settled
    · exact spot.layout.mem_children (by simp [hx])
    · exact fun _ block => absurd block (nearestSlot_kind slot)
  | insert spot flat made noted =>
    obtain ⟨edits, roomy⟩ := made.roomy sound reached markup spot hits flat
    refine .insert ((edits o rule).tail (roomy.edit noted)) (fun name => ?_)
      (noted.altered roomy.sound roomy.reached)
    exact noted.suppresses roomy.sound roomy.reached (directiveText_suppresses o .nextLine name _ rfl)

theorem AttachAmong.settles {r : Resolution}
    (attach : AttachAmong o rule line p target doc doc' r) (sound : doc.Sound source)
    (reached : doc.Reaches p) (hold : doc.Holds p target) (hits : doc.Hits line p target) :
    Settles o rule doc doc' r := by
  cases attach with
  | childless => exact .skip o rule doc _
  | own _ slot settled =>
    obtain ⟨inner, kind⟩ := commentSlot_holds slot
    refine mergeInto_settles sound ((reached.child hold).child inner) (fun _ block => ?_) settled
    rw [kind] at block
    cases block
  | placed markup _ _ slits among =>
    obtain ⟨sound', reached', kind', keep'⟩ := slits.spec sound reached markup
    obtain ⟨-, -, span'⟩ := keep' hold
    refine .after (slits.edits sound reached markup)
      (fun _ => slits.pristine sound reached markup)
      (among.settles sound' reached' (by rw [kind', markup]) ⟨?_, ?_⟩)
    · rw [slits.span_eq]
      exact hits.outer
    · rw [span']
      exact hits.start

theorem attachBeforeClosing_childless (o : AnnotateOptions) (rule : Text)
    (plain : (doc.kind p).hasMarkupChildren = false) :
    attachBeforeClosing o doc p rule = (doc, .skipped .noMarkupChildren) := by
  have childless : doc.markupRange p = none := by
    unfold markupRange
    rw [plain]
    rfl
  unfold attachBeforeClosing
  rw [childless]

theorem attachBeforeClosing_settles {id : NodeId} (sound : doc.Sound source)
    (reached : doc.Reaches p) (hold : doc.Holds p id) (kind : doc.kind id = .closingTag) :
    Settles o rule doc (attachBeforeClosing o doc p rule).1 (attachBeforeClosing o doc p rule).2 := by
  cases markup : (doc.kind p).hasMarkupChildren with
  | false =>
    rw [attachBeforeClosing_childless o rule markup]
    exact .skip o rule doc _
  | true =>
    obtain ⟨first, items, layout, ⟨e, r, slot, settled, result⟩ |
      ⟨spanned, doc', indent, run, noted, result⟩⟩ :=
      attachBeforeClosing_cases o sound reached markup hold kind rule
    · rw [result]
      exact mergeInto_settles sound
        (nearestSlot_reaches reached (fun x hx => layout.mem_children hx) slot)
        (fun _ block => absurd block (nearestSlot_kind slot)) settled
    · rw [result]
      refine .insert (ReflTransGen.single (.last reached markup layout spanned run noted)) (fun name => ?_)
        (noted.altered sound reached)
      exact noted.suppresses sound reached (directiveText_suppresses o .nextLine name _ rfl)

/-- A call consists of edits, and covers its rule unless it is skipped. -/
theorem Call.settles {r : Resolution} (call : Call o rule line doc doc' r)
    (sound : doc.Sound source) : Settles o rule doc doc' r := by
  cases call with
  | missed => exact .skip o rule doc _
  | tail _ _ reached kind => exact attachToBlockTail_settles sound reached kind
  | closing found aim kind =>
    obtain ⟨-, -, p', link, above, -⟩ := sound.first_spec found
    cases link.symm.trans (parent_of_aim aim)
    exact attachBeforeClosing_settles sound above ((sound.linked.agree _ _).mpr link) kind
  | beside found aim _ beside => exact attachOrdinary_settles sound found aim beside
  | among found aim _ beside attach =>
    obtain ⟨-, starts, p', link, above, -⟩ := sound.first_spec found
    cases link.symm.trans (parent_of_aim aim)
    have hold := (sound.linked.agree _ _).mpr link
    refine attach.settles sound above hold ⟨sound.outer_line found hold ?_, starts.2.2⟩
    rintro rfl
    exact beside (.inr (.inr (by rw [sound.root_kind]; rfl)))

end Among

end Quell.Document
