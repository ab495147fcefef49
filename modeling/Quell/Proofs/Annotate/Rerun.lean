import Quell.Proofs.Annotate.Again
import Quell.Proofs.Annotate.Comments
import Quell.Proofs.Source.Reading

/-!
A whole run twice.

On lines that are served by comments of nodes, a directive that covers a rule is never buried by
later calls: they extend directives, or put one where none stands in the slots that they read. So
the same run again finds everything covered: `annotate_rerun`.
-/
namespace Quell

open Text Relation

/-- The summary of a run that finds everything covered, and skips the same. -/
def Summary.again (s : Summary) : Summary :=
  { alreadySuppressed := s.inserted + s.merged + s.alreadySuppressed, skipped := s.skipped }

theorem Summary.again_record (s : Summary) (line : Nat) (rule : Text) (r : Resolution) :
    (s.record line rule r).again = s.again.record line rule r.again := by
  cases r with
  | inserted =>
    simp only [record, again, Resolution.again]
    congr 1
    omega
  | merged =>
    simp only [record, again, Resolution.again]
    congr 1
    omega
  | alreadySuppressed => simp only [record, again, Resolution.again]; congr 1
  | skipped reason => rfl

/-- A directive with a rule more covers what it did before. -/
theorem Comment.Suppresses.merge {c c' : Comment} {rule added : Text}
    (covered : c.Suppresses rule) (name : RuleName added) (h : c.merge added = (c', .merged)) :
    c'.Suppresses rule := by
  obtain ⟨d, parses, suppresses⟩ := covered
  obtain ⟨e, parsed, nonempty, now⟩ := Comment.merge_directive name h
  cases parses.symm.trans parsed
  refine ⟨_, now, ?_⟩
  unfold Directive.suppresses at suppresses ⊢
  simp only [Bool.or_eq_true, List.isEmpty_iff, List.contains_iff_mem, List.mem_append,
    List.mem_singleton] at suppresses ⊢
  rcases suppresses with none | mem
  · exact absurd none nonempty
  · exact .inr (.inl mem)

namespace Document

variable {source : Text} {doc doc' : Document} {o : AnnotateOptions} {rule : Text} {line : Nat}
variable {id block : NodeId} {slot : Slot}

/-- The line is served by comments of nodes, and not by a markup comment. -/
def Ordinary (doc : Document) (line : Nat) : Prop :=
  ∀ id p, doc.locate line = some (.node id (some p)) →
    doc.kind id ≠ .closingTag ∧ doc.Beside id p

def CoveredAt (doc : Document) (rule : Text) : Target → Prop
  | .node id _ =>
    doc.Covers id .leading rule ∨ doc.Bare id .leading ∧ doc.Covers id .trailing rule
  | .blockTail block =>
    doc.children block = [] ∧ doc.Covers block .inner rule ∨
      ∃ last, (doc.children block).getLast? = some last ∧ doc.Covers last .trailing rule

theorem Bare.mergeInto_eq (bare : doc.Bare id slot) (rule : Text) :
    doc.mergeInto id slot rule = (doc, .notADirective) := by
  rcases doc.mergeInto_cases id slot rule with same | ⟨-, cs, c, split, d, parses, -⟩ |
    ⟨cs, c, c', split, merged, -⟩
  · exact same
  · have none := bare c (by rw [split, List.getLast?_concat]; rfl)
    rw [parses] at none
    cases none
  · have none := bare c (by rw [split, List.getLast?_concat]; rfl)
    unfold Comment.merge at merged
    rw [none] at merged
    cases merged

theorem Covers.not_bare (covers : doc.Covers id slot rule) : ¬ doc.Bare id slot := by
  intro bare
  have merged := bare.mergeInto_eq rule
  rw [covers.mergeInto_eq] at merged
  cases merged

theorem Covers.congr (covers : doc.Covers id slot rule)
    (same : (doc'.node id).comments slot = (doc.node id).comments slot) :
    doc'.Covers id slot rule := by
  obtain ⟨cs, c, split, covered⟩ := covers
  exact ⟨cs, c, same.trans split, covered⟩

theorem Bare.congr (bare : doc.Bare id slot)
    (same : (doc'.node id).comments slot = (doc.node id).comments slot) :
    doc'.Bare id slot := by
  unfold Bare
  rw [same]
  exact bare

/-- What a call for an ordinary line does: a rule more in a directive, or a comment where no
directive stands in the slots that the call reads. -/
inductive Touch (rule : Text) (doc : Document) : Document → Prop where
  | extend {id : NodeId} {slot : Slot} {cs : List Comment} {c c' : Comment} :
      id < doc.nodes.size → (doc.node id).comments slot = cs ++ [c] → c.merge rule = (c', .merged) →
      Touch rule doc (doc.update id (·.setComments slot (cs ++ [c'])))
  | beside {id : NodeId} {slot : Slot} {c : Comment} : id < doc.nodes.size → slot ≠ .inner →
      doc.Bare id .leading → doc.Bare id .trailing → Touch rule doc (doc.appendComment id slot c)
  | behind {id : NodeId} {c : Comment} : id < doc.nodes.size → doc.Bare id .trailing →
      Touch rule doc (doc.appendComment id .trailing c)
  | fill {block : NodeId} : doc.Reaches block → doc.children block = [] →
      doc.Bare block .inner → Touch rule doc (doc.addPlaceholder block).1

section Touch

variable {added : Text} (touch : Touch added doc doc') (sound : doc.Sound source)

include touch sound

/-- What a slot covers it goes on to cover. -/
theorem Touch.covers (name : RuleName added) (valid : id < doc.nodes.size)
    (covers : doc.Covers id slot rule) : doc'.Covers id slot rule := by
  cases touch with
  | @extend j slot' cs c c' lt split merged =>
    by_cases here : id = j ∧ slot = slot'
    · obtain ⟨rfl, rfl⟩ := here
      obtain ⟨cs₀, c₀, split₀, covered⟩ := covers
      obtain ⟨rfl, last⟩ := List.append_inj' (split₀.symm.trans split) rfl
      cases last
      refine ⟨cs₀, c', ?_, covered.merge name merged⟩
      rw [comments_update lt, if_pos ⟨rfl, rfl⟩]
    · exact covers.congr (by rw [comments_update lt, if_neg here])
  | @beside j slot' c lt ne leading trailing =>
    refine covers.congr ?_
    rw [comments_appendComment lt, if_neg]
    rintro ⟨rfl, rfl⟩
    cases slot with
    | leading => exact covers.not_bare leading
    | trailing => exact covers.not_bare trailing
    | inner => exact ne rfl
  | @behind j c lt bare =>
    refine covers.congr ?_
    rw [comments_appendComment lt, if_neg]
    rintro ⟨rfl, rfl⟩
    exact covers.not_bare bare
  | @fill block reached empty bare =>
    obtain ⟨splice, -, -⟩ := addPlaceholder_spec (sound.reaches_lt reached)
    exact covers.congr ((splice.content valid).2.2 slot)

/-- In front of a node whose trailing comments cover a rule no directive is put. -/
theorem Touch.bare (valid : id < doc.nodes.size) (bare : doc.Bare id .leading)
    (covers : doc.Covers id .trailing rule) : doc'.Bare id .leading := by
  cases touch with
  | @extend j slot' cs c c' lt split merged =>
    refine bare.congr ?_
    rw [comments_update lt, if_neg]
    rintro ⟨rfl, rfl⟩
    have none := bare c (by rw [split, List.getLast?_concat]; rfl)
    unfold Comment.merge at merged
    rw [none] at merged
    cases merged
  | @beside j slot' c lt ne leading trailing =>
    refine bare.congr ?_
    rw [comments_appendComment lt, if_neg]
    rintro ⟨rfl, -⟩
    exact covers.not_bare trailing
  | @behind j c lt bare' =>
    refine bare.congr ?_
    rw [comments_appendComment lt, if_neg]
    rintro ⟨-, h⟩
    cases h
  | @fill block reached empty bare' =>
    obtain ⟨splice, -, -⟩ := addPlaceholder_spec (sound.reaches_lt reached)
    exact bare.congr ((splice.content valid).2.2 _)

theorem Touch.kind (valid : id < doc.nodes.size) : doc'.kind id = doc.kind id := by
  cases touch with
  | extend => exact (tree_setComments id).1
  | beside => rw [appendComment_eq]; exact (tree_setComments id).1
  | behind => rw [appendComment_eq]; exact (tree_setComments id).1
  | fill reached =>
    obtain ⟨splice, -, -⟩ := addPlaceholder_spec (sound.reaches_lt reached)
    exact (splice.content valid).1

/-- A block gets a child only if it is empty and no directive stands in it. -/
theorem Touch.children (valid : id < doc.nodes.size)
    (stays : doc.children id ≠ [] ∨ ¬ doc.Bare id .inner) : doc'.children id = doc.children id := by
  cases touch with
  | extend => exact (tree_setComments id).2.2.1
  | beside => rw [appendComment_eq]; exact (tree_setComments id).2.2.1
  | behind => rw [appendComment_eq]; exact (tree_setComments id).2.2.1
  | @fill block reached empty bare =>
    obtain ⟨splice, -, -⟩ := addPlaceholder_spec (sound.reaches_lt reached)
    refine splice.children_rest valid ?_
    rintro rfl
    exact stays.elim (absurd empty) (absurd bare)

theorem Touch.grows : doc.nodes.size ≤ doc'.nodes.size := by
  cases touch with
  | extend => rw [size_update]
  | beside => rw [appendComment_eq, size_update]
  | behind => rw [appendComment_eq, size_update]
  | fill reached =>
    obtain ⟨splice, -, -⟩ := addPlaceholder_spec (sound.reaches_lt reached)
    exact splice.grows

/-- Every line keeps its target. -/
theorem Touch.locate (sound' : doc'.Sound source) (line : Nat) :
    doc'.locate line = doc.locate line := by
  rw [sound.locate_eq, sound'.locate_eq]
  cases touch with
  | extend => rw [startingOn_setComments sound.linked sound.root_lt, funext aim_setComments]
  | beside =>
    rw [appendComment_eq, startingOn_setComments sound.linked sound.root_lt, funext aim_setComments]
  | behind =>
    rw [appendComment_eq, startingOn_setComments sound.linked sound.root_lt, funext aim_setComments]
  | @fill block reached empty bare =>
    obtain ⟨splice, -, -⟩ := addPlaceholder_spec (sound.reaches_lt reached)
    rw [startingOn_addPlaceholder sound reached]
    cases found : doc.startingOn line with
    | nil => rfl
    | cons id rest =>
      obtain ⟨reached', -, q, link, within, -⟩ := sound.first_spec found
      have hold : doc.Holds q id := (sound.linked.agree q id).mpr link
      have ne : q ≠ block := by
        rintro rfl
        unfold Holds at hold
        rw [empty] at hold
        cases hold
      rw [List.head?_cons, Option.map_some, Option.map_some]
      refine congrArg some (aim_congr (splice.parent_rest (sound.reaches_lt reached') nofun) ?_)
      intro q' link'
      cases link.symm.trans link'
      exact ⟨(splice.content (sound.reaches_lt within)).1,
        splice.children_rest (sound.reaches_lt within) ne,
        fun c hc => (splice.content (sound.linked.child_lt hc)).1⟩

end Touch

theorem Sound.reaches_of_locate (sound : doc.Sound source) {p : Option NodeId}
    (h : doc.locate line = some (.node id p)) : doc.Reaches id ∧ ∃ q, p = some q ∧ doc.Reaches q := by
  rw [sound.locate_eq] at h
  cases found : doc.startingOn line with
  | nil => rw [found] at h; cases h
  | cons id' rest =>
    rw [found, List.head?_cons, Option.map_some, Option.some.injEq] at h
    obtain ⟨reached, -, q, link, within, -⟩ := sound.first_spec found
    rcases aim_node link with aim | ⟨block, aim⟩
    · rw [aim] at h
      cases h
      exact ⟨reached, q, rfl, within⟩
    · rw [aim] at h
      cases h

theorem Sound.reaches_of_tail (sound : doc.Sound source)
    (h : doc.locate line = some (.blockTail block)) :
    doc.Reaches block ∧ doc.kind block = .block := by
  rw [sound.locate_eq] at h
  cases found : doc.startingOn line with
  | nil => rw [found] at h; cases h
  | cons id' rest =>
    rw [found, List.head?_cons, Option.map_some, Option.some.injEq] at h
    exact sound.block_of_aim (sound.first_spec found).1 h

structure Later (source : Text) (doc doc' : Document) : Prop where
  sound : doc'.Sound source
  grows : doc.nodes.size ≤ doc'.nodes.size
  locate : ∀ line, doc'.locate line = doc.locate line
  ordinary : ∀ line, doc.Ordinary line → doc'.Ordinary line
  covered : ∀ line t rule, doc.locate line = some t → doc.CoveredAt rule t → doc'.CoveredAt rule t

theorem Later.refl (sound : doc.Sound source) : Later source doc doc :=
  ⟨sound, Nat.le_refl _, fun _ => rfl, fun _ h => h, fun _ _ _ _ h => h⟩

theorem Later.trans {mid : Document} (first : Later source doc mid)
    (second : Later source mid doc') : Later source doc doc' where
  sound := second.sound
  grows := Nat.le_trans first.grows second.grows
  locate line := (second.locate line).trans (first.locate line)
  ordinary line h := second.ordinary line (first.ordinary line h)
  covered line t rule found h :=
    second.covered line t rule ((first.locate line).trans found) (first.covered line t rule found h)

theorem Touch.later (touch : Touch rule doc doc') (sound : doc.Sound source)
    (sound' : doc'.Sound source) (name : RuleName rule) : Later source doc doc' where
  sound := sound'
  grows := touch.grows sound
  locate := touch.locate sound sound'
  ordinary line ordinary id p found := by
    rw [touch.locate sound sound'] at found
    obtain ⟨reached, q, e, within⟩ := sound.reaches_of_locate found
    cases e
    unfold Beside
    rw [touch.kind sound (sound.reaches_lt reached), touch.kind sound (sound.reaches_lt within)]
    exact ordinary id p found
  covered line t rule' found covered := by
    cases t with
    | node id p =>
      have valid := sound.reaches_lt (sound.reaches_of_locate found).1
      rcases covered with leading | ⟨bare, trailing⟩
      · exact .inl (touch.covers sound name valid leading)
      · exact .inr ⟨touch.bare sound valid bare trailing, touch.covers sound name valid trailing⟩
    | blockTail block =>
      have valid := sound.reaches_lt (sound.reaches_of_tail found).1
      rcases covered with ⟨empty, inner⟩ | ⟨last, behind, trailing⟩
      · refine .inl ⟨?_, touch.covers sound name valid inner⟩
        rw [touch.children sound valid (.inr inner.not_bare), empty]
      · have hold : doc.Holds block last := List.mem_of_getLast? behind
        have filled : doc.children block ≠ [] := List.ne_nil_of_mem hold
        refine .inr ⟨last, ?_, touch.covers sound name (sound.linked.child_lt hold) trailing⟩
        rw [touch.children sound valid (.inl filled), behind]

theorem later_of_touch (h : doc' = doc ∨ Touch rule doc doc') (sound : doc.Sound source)
    (sound' : doc'.Sound source) (name : RuleName rule) : Later source doc doc' := by
  rcases h with rfl | touch
  · exact .refl sound
  · exact touch.later sound sound' name

theorem touch_mergeInto (valid : id < doc.nodes.size) (slot : Slot) (rule : Text) :
    (doc.mergeInto id slot rule).1 = doc ∨ Touch rule doc (doc.mergeInto id slot rule).1 := by
  rcases doc.mergeInto_cases id slot rule with same | ⟨same, -⟩ | ⟨cs, c, c', split, merged, same⟩
  · exact .inl (by rw [same])
  · exact .inl (by rw [same])
  · rw [same]
    exact .inr (.extend valid split merged)

theorem touch_attachOrdinary (valid : id < doc.nodes.size) (o : AnnotateOptions) (rule : Text) :
    (attachOrdinary o doc id rule).1 = doc ∨ Touch rule doc (attachOrdinary o doc id rule).1 := by
  rcases attachOrdinary_cases o doc id rule with ⟨r, -, result⟩ | ⟨leading,
    ⟨r, -, result⟩ | ⟨trailing, result⟩⟩
  · rw [result]
    exact touch_mergeInto valid .leading rule
  · rw [result]
    exact touch_mergeInto valid .trailing rule
  · rw [result]
    exact .inr (.beside valid (besideComment_slot o rule)
      (bare_of_unread (by rw [leading])) (bare_of_unread (by rw [trailing])))

theorem touch_attachBehindLast {last : NodeId} (valid : last < doc.nodes.size)
    (found : (doc.children block).getLast? = some last) (o : AnnotateOptions) (rule : Text) :
    (attachBehindLast o doc block rule).1 = doc ∨
      Touch rule doc (attachBehindLast o doc block rule).1 := by
  rcases attachBehindLast_cases o rule found with ⟨r, -, result⟩ | ⟨trailing, result⟩
  · rw [result]
    exact touch_mergeInto valid .trailing rule
  · rw [result]
    exact .inr (.behind valid (bare_of_unread (by rw [trailing])))

theorem attachToBlockTail_later (sound : doc.Sound source) (reached : doc.Reaches block)
    (kind : doc.kind block = .block) (name : RuleName rule) (o : AnnotateOptions) :
    Later source doc (attachToBlockTail o doc block rule).1 := by
  have valid := sound.reaches_lt reached
  have settles : Settles o rule doc (attachToBlockTail o doc block rule).1
      (attachToBlockTail o doc block rule).2 := attachToBlockTail_settles sound reached kind
  have sound' := Edits.sound settles.edits sound
  unfold attachToBlockTail at sound' ⊢
  by_cases empty : doc.children block = []
  · rw [empty, List.isEmpty_nil, if_pos rfl] at sound' ⊢
    dsimp only at sound' ⊢
    cases settled : Resolution.ofMerge (doc.mergeInto block .inner rule).2 with
    | some r =>
      rw [settled] at sound'
      exact later_of_touch (touch_mergeInto valid .inner rule) sound sound' name
    | none =>
      have unread := mergeInto_unsettled settled
      rw [settled, unread] at sound'
      rw [unread]
      dsimp only at sound' ⊢
      obtain ⟨splice, size, -⟩ := addPlaceholder_spec valid
      have fill : Edit o rule doc (doc.addPlaceholder block).1 := .fill reached kind empty
        (bare_of_unread (by rw [unread]))
      have filled := fill.sound sound
      have put := touch_attachBehindLast (by rw [size]; exact Nat.lt_succ_self _)
        (show ((doc.addPlaceholder block).1.children block).getLast? = some doc.nodes.size by
          rw [addPlaceholder_children valid empty]; rfl) o rule
      exact ((Touch.fill reached empty (bare_of_unread (by rw [unread]))).later sound filled name).trans
        (later_of_touch put filled sound' name)
  · rw [if_neg (mt List.isEmpty_iff.mp empty)] at sound' ⊢
    obtain ⟨last, found⟩ := Option.ne_none_iff_exists'.mp (mt List.getLast?_eq_none_iff.mp empty)
    have hold : doc.Holds block last := List.mem_of_getLast? found
    exact later_of_touch (touch_attachBehindLast (sound.linked.child_lt hold) found o rule) sound
      sound' name

theorem covers_of_already {m : Comment.Merge} (same : (doc.mergeInto id slot rule).2 = m)
    (h : Resolution.ofMerge m = some .alreadySuppressed) : doc.Covers id slot rule := by
  rcases doc.mergeInto_cases id slot rule with e | ⟨-, covers⟩ | ⟨cs, c, c', -, -, e⟩
  · rw [e] at same
    cases same
    cases h
  · exact covers
  · rw [e] at same
    cases same
    cases h

theorem coveredAt_of_ordinary (p : Option NodeId)
    (h : (attachOrdinary o doc id rule).2 = .alreadySuppressed) :
    doc.CoveredAt rule (.node id p) := by
  rcases attachOrdinary_cases o doc id rule with ⟨r, settled, result⟩ | ⟨leading,
    ⟨r, settled, result⟩ | ⟨-, result⟩⟩
  · rw [result] at h
    cases h
    exact .inl (covers_of_already rfl settled)
  · rw [result] at h
    cases h
    exact .inr ⟨bare_of_unread (by rw [leading]), covers_of_already rfl settled⟩
  · rw [result] at h
    cases h

theorem coveredAt_of_tail (valid : block < doc.nodes.size)
    (h : (attachToBlockTail o doc block rule).2 = .alreadySuppressed) :
    doc.CoveredAt rule (.blockTail block) := by
  have behind : ∀ {doc : Document}, (attachBehindLast o doc block rule).2 = .alreadySuppressed →
      ∃ last, (doc.children block).getLast? = some last ∧ doc.Covers last .trailing rule := by
    intro doc h
    cases found : (doc.children block).getLast? with
    | none =>
      unfold attachBehindLast at h
      rw [found] at h
      cases h
    | some last =>
      rcases attachBehindLast_cases o rule found with ⟨r, settled, result⟩ | ⟨-, result⟩
      · rw [result] at h
        cases h
        exact ⟨last, rfl, covers_of_already rfl settled⟩
      · rw [result] at h
        cases h
  unfold attachToBlockTail at h
  by_cases empty : doc.children block = []
  · rw [empty, List.isEmpty_nil, if_pos rfl] at h
    dsimp only at h
    cases settled : Resolution.ofMerge (doc.mergeInto block .inner rule).2 with
    | some r =>
      rw [settled] at h
      cases h
      exact .inl ⟨empty, covers_of_already rfl settled⟩
    | none =>
      -- a placeholder is new and has no comments
      have unread := mergeInto_unsettled settled
      rw [settled, unread] at h
      dsimp only at h
      obtain ⟨last, found, cs, c, split, -⟩ := behind h
      obtain ⟨-, -, node⟩ := addPlaceholder_spec valid
      rw [addPlaceholder_children valid empty, List.getLast?_singleton] at found
      cases found
      rw [node] at split
      exact absurd split (by simp [Node.comments])
  · rw [if_neg (mt List.isEmpty_iff.mp empty)] at h
    exact .inr (behind h)

/-- A call for an ordinary line: nothing is there, or the rule comes to be covered. -/
theorem Ordinary.call (ordinary : doc.Ordinary line) (sound : doc.Sound source)
    (name : RuleName rule) (o : AnnotateOptions) : ∃ doc' r,
      doc.annotateOne o line rule = .ok (doc', r) ∧ Later source doc doc' ∧
      (doc.locate line = none ∧ doc' = doc ∧ r = .skipped .noNodeOnLine ∨
        ∃ t, doc.locate line = some t ∧ doc'.CoveredAt rule t ∧ r.again = .alreadySuppressed) := by
  obtain ⟨doc', r, result, call⟩ := annotateOne_ok sound o line rule
  have sound' := Edits.sound (call.settles sound).edits sound
  refine ⟨doc', r, result, ?_⟩
  have located : doc.locate line = (doc.startingOn line).head?.map doc.aim := sound.locate_eq line
  cases call with
  | missed none =>
    rw [none] at located
    exact ⟨.refl sound, .inl ⟨located, rfl, rfl⟩⟩
  | @tail id block rest found aim reached kind =>
    rw [found, List.head?_cons, Option.map_some, aim] at located
    obtain ⟨-, -, twice, again⟩ := attachToBlockTail_twice sound reached found aim name o
    have later := attachToBlockTail_later sound reached kind name o
    refine ⟨later, .inr ⟨_, located, coveredAt_of_tail ?_ (congrArg Prod.snd twice), again⟩⟩
    exact later.sound.reaches_lt (later.sound.reaches_of_tail ((later.locate line).trans located)).1
  | @beside id p rest found aim open_ beside =>
    rw [found, List.head?_cons, Option.map_some, aim] at located
    have valid := sound.reaches_lt (sound.first_spec found).1
    obtain ⟨slot, cs, -, twice, again⟩ := attachOrdinary_twice valid name o
    exact ⟨later_of_touch (touch_attachOrdinary valid o rule) sound sound' name,
      .inr ⟨_, located, coveredAt_of_ordinary _ (congrArg Prod.snd twice), again⟩⟩
  | closing found aim kind =>
    rw [found, List.head?_cons, Option.map_some, aim] at located
    exact absurd kind (ordinary _ _ located).1
  | among found aim kind beside =>
    rw [found, List.head?_cons, Option.map_some, aim] at located
    exact absurd (ordinary _ _ located).2 beside

/-- A covered rule on an ordinary line is left alone. -/
theorem CoveredAt.annotateOne_eq {t : Target} (covered : doc.CoveredAt rule t)
    (found : doc.locate line = some t) (ordinary : doc.Ordinary line) (sound : doc.Sound source)
    (o : AnnotateOptions) : doc.annotateOne o line rule = .ok (doc, .alreadySuppressed) := by
  unfold annotateOne
  rw [found]
  cases t with
  | node id p =>
    obtain ⟨-, q, e, -⟩ := sound.reaches_of_locate found
    cases e
    obtain ⟨kind, beside⟩ := ordinary id q found
    dsimp only
    rw [annotateNode_eq, if_neg kind, if_pos beside]
    refine congrArg Except.ok (attachOrdinary_covered o (covered.imp_right fun h => ?_))
    exact ⟨h.1.mergeInto_eq rule, h.2⟩
  | blockTail block => exact congrArg Except.ok (attachToBlockTail_covered o covered)

theorem annotateFrom_rerun {ds : List Diagnostic} (sound : doc.Sound source)
    (ordinary : ∀ d ∈ ds, doc.Ordinary d.line)
    (names : ∀ d ∈ ds, ∀ rule, Asks o d rule → RuleName rule) (s : Summary) :
    ∃ doc' s', doc.annotateFrom o s ds = .ok (doc', s') ∧ Later source doc doc' ∧
      ∀ doc'', Later source doc' doc'' →
        doc''.annotateFrom o s.again ds = .ok (doc'', s'.again) := by
  induction ds generalizing doc s with
  | nil => exact ⟨doc, s, rfl, .refl sound, fun _ _ => rfl⟩
  | cons d ds ih =>
    have names' : ∀ d ∈ ds, ∀ rule, Asks o d rule → RuleName rule :=
      fun e he => names e (List.mem_cons_of_mem d he)
    by_cases asked : ∃ rule, Asks o d rule
    · obtain ⟨rule, asks⟩ := asked
      have name := names d List.mem_cons_self rule asks
      have here := ordinary d List.mem_cons_self
      obtain ⟨mid, r, result, later, answer⟩ := here.call sound name o
      obtain ⟨doc', s', rest, later', again⟩ := ih later.sound
        (fun e he => later.ordinary _ (ordinary e (List.mem_cons_of_mem d he))) names'
        (s.record d.line rule r)
      have step : ∀ (doc doc' : Document) (s : Summary) (r : Resolution),
          doc.annotateOne o d.line rule = .ok (doc', r) → doc.annotateFrom o s (d :: ds) =
            doc'.annotateFrom o (s.record d.line rule r) ds := by
        intro doc doc' s r result
        rw [annotateFrom, asks.1]
        dsimp only
        rw [if_pos asks.2, result]
        rfl
      refine ⟨doc', s', (step _ _ _ _ result).trans rest, later.trans later', fun doc'' last => ?_⟩
      have all := later'.trans last
      rw [← again doc'' last, Summary.again_record]
      refine step _ _ _ _ ?_
      rcases answer with ⟨none, rfl, rfl⟩ | ⟨t, found, covered, e⟩
      · unfold annotateOne
        rw [all.locate, none]
        rfl
      · rw [e]
        have found' := (later.locate d.line).trans found
        exact (all.covered _ _ _ found' covered).annotateOne_eq ((all.locate d.line).trans found')
          (all.ordinary _ (later.ordinary _ here)) last.sound o
    · have step : ∀ (doc : Document) (s : Summary),
          doc.annotateFrom o s (d :: ds) = doc.annotateFrom o s ds := by
        intro doc s
        rw [annotateFrom]
        cases actionable : d.actionableRule with
        | none => rfl
        | some rule =>
          dsimp only
          rw [if_neg fun allows => asked ⟨rule, actionable, allows⟩]
      obtain ⟨doc', s', rest, later', again⟩ :=
        ih sound (fun e he => ordinary e (List.mem_cons_of_mem d he)) names' s
      exact ⟨doc', s', (step doc s).trans rest, later', fun doc'' last =>
        (step doc'' s.again).trans (again doc'' last)⟩

/-- On ordinary lines the same run again, on the document that the first one left, changes nothing:
it finds everything covered and skips the same. -/
theorem annotate_rerun (wf : doc.WellFormed source) (o : AnnotateOptions) (ds : List Diagnostic)
    (ordinary : ∀ d ∈ ds, doc.Ordinary d.line)
    (names : ∀ d ∈ ds, ∀ rule, d.actionableRule = some rule →
      rule.trim = rule ∧ ',' ∉ rule ∧ ¬ Directive.separator <:+: rule) :
    ∃ doc' summary, doc.annotate o ds = .ok (doc', summary) ∧
      doc'.annotate o ds = .ok (doc', summary.again) := by
  obtain ⟨doc', s', result, later, again⟩ := annotateFrom_rerun (o := o) wf.sound ordinary
    (fun d hd rule asks => by
      obtain ⟨trimmed, comma, dashes⟩ := names d hd rule asks.1
      exact ⟨nonempty_of_actionable asks.1, trimmed, comma, dashes⟩) {}
  exact ⟨doc', s', result, again doc' (.refl later.sound)⟩

end Document

end Quell
