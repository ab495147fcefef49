import Quell.Proofs.Annotate.Moves
import Quell.Proofs.Document.Tweaks

/-!
A call on any linked document.

The tree need not be regular here: an element may have no tags, and the index at which a call splices
may lie anywhere, even behind its child list. The call still ends without a fault and consists of
tweaks (`annotateOne_tweaks`).
-/
namespace Quell.Document

open Text Relation

variable {doc : Document} {o : AnnotateOptions} {rule : Text}

theorem mergeInto_tweaks (doc : Document) (id : NodeId) (slot : Slot) (rule : Text) :
    Tweaks doc (doc.mergeInto id slot rule).1 :=
  ReflTransGen.single .remark

theorem appendComment_tweaks (doc : Document) (id : NodeId) (slot : Slot) (c : Comment) :
    Tweaks doc (doc.appendComment id slot c) := by
  rw [appendComment_eq]
  exact ReflTransGen.single .remark

theorem attachOrdinary_tweaks (o : AnnotateOptions) (doc : Document) (id : NodeId) (rule : Text) :
    Tweaks doc (attachOrdinary o doc id rule).1 := by
  rcases attachOrdinary_cases o doc id rule with ⟨r, -, e⟩ | ⟨-, ⟨r, -, e⟩ | ⟨-, e⟩⟩
  · rw [e]
    exact mergeInto_tweaks ..
  · rw [e]
    exact mergeInto_tweaks ..
  · rw [e]
    exact appendComment_tweaks ..

theorem attachBehindLast_tweaks (o : AnnotateOptions) (doc : Document) (block : NodeId)
    (rule : Text) : Tweaks doc (attachBehindLast o doc block rule).1 := by
  cases found : (doc.children block).getLast? with
  | none =>
    unfold attachBehindLast
    rw [found]
  | some last =>
    rcases attachBehindLast_cases o rule found with ⟨r, -, e⟩ | ⟨-, e⟩
    · rw [e]
      exact mergeInto_tweaks ..
    · rw [e]
      exact appendComment_tweaks ..

theorem addPlaceholder_tweak {block : NodeId} (valid : block < doc.nodes.size) :
    Tweak doc (doc.addPlaceholder block).1 := by
  obtain ⟨splice, size, node⟩ := addPlaceholder_spec valid
  refine .put splice fun j new => ?_
  unfold Document.span
  rcases Nat.eq_or_lt_of_le new with rfl | behind
  · rw [node]
  · rw [node_of_size_le _ (by rw [size]; exact behind)]

theorem attachToBlockTail_tweaks {block : NodeId} (valid : block < doc.nodes.size) :
    Tweaks doc (attachToBlockTail o doc block rule).1 := by
  rcases attachToBlockTail_outcome o doc block rule with ⟨r, e⟩ | e | e
  · rw [e]
    exact mergeInto_tweaks ..
  · rw [e]
    exact ReflTransGen.head (addPlaceholder_tweak valid) (attachBehindLast_tweaks ..)
  · rw [e]
    exact attachBehindLast_tweaks ..

theorem mergeBefore_tweaks (doc : Document) (p : NodeId) (before : Nat) (rule : Text) :
    Tweaks doc (doc.mergeBefore p before rule).1 := by
  rcases mergeBefore_outcome doc p before rule with ⟨h, e, r, -, -, -, merged⟩ | unread
  · rw [merged]
    exact mergeInto_tweaks ..
  · rw [unread]

theorem insertChildren_take (doc : Document) (p : NodeId) (index : Nat) (ids : List NodeId) :
    doc.insertChildren p index ids =
      doc.insertChildren p ((doc.children p).take index).length ids := by
  have kids : ((doc.adopt p ids).node p).children = doc.children p := by
    rw [node_adopt]
    split <;> rfl
  unfold insertChildren
  refine update_congr _ p ?_
  rw [kids, List.length_take]
  rcases Nat.le_total index (doc.children p).length with le | ge
  · rw [Nat.min_eq_left le]
  · rw [Nat.min_eq_right ge, List.take_of_length_le ge, List.drop_of_length_le ge, List.take_length,
      List.drop_length]

section Notes

variable {doc' : Document} {p : NodeId}

theorem Noted.tweak {A C : List NodeId} {lead : Option Text} {body gap : Text}
    (noted : doc.Noted doc' p A C lead body gap) : Tweak doc doc' := by
  refine .put noted.splice fun j ge => ?_
  unfold Document.span
  rcases Nat.lt_or_ge j doc'.nodes.size with lt | outside
  · rcases noted.new_cases ge lt with rfl | rfl | ⟨t, node⟩
    · rw [noted.hole]
    · rw [noted.slot]
    · rw [node]
  · rw [node_of_size_le _ outside]

theorem children_withNote (valid : p < doc.nodes.size) (body : Text) (texts : List Text) :
    (doc.withNote body texts).children p = doc.children p := by
  unfold children
  rw [(node_withNote doc body texts).1 p valid]

theorem insertNote_tweaks (valid : p < doc.nodes.size) (index : Nat) (body gap : Text) :
    Tweaks doc ((doc.withNote body [gap]).insertChildren p index
      [doc.nodes.size, doc.nodes.size + 2]) := by
  rw [insertChildren_take, children_withNote valid]
  exact ReflTransGen.single
    (noted_pair valid (List.take_append_drop index (doc.children p)).symm body gap).tweak

theorem insertLedNote_tweaks (valid : p < doc.nodes.size) (index : Nat) (lead body gap : Text) :
    Tweaks doc ((doc.withNote body [lead, gap]).insertChildren p index
      [doc.nodes.size + 2, doc.nodes.size, doc.nodes.size + 3]) := by
  rw [insertChildren_take, children_withNote valid]
  exact ReflTransGen.single
    (noted_triple valid (List.take_append_drop index (doc.children p)).symm lead body gap).tweak

theorem attachBeforeClosing_tweaks (valid : p < doc.nodes.size) :
    Tweaks doc (attachBeforeClosing o doc p rule).1 := by
  rcases attachBeforeClosing_outcome o doc p rule with
    e | ⟨start, stop, -, ⟨r, e⟩ | ⟨lead, body, gap, e⟩ | ⟨body, gap, e⟩⟩
  · rw [e]
  · rw [e]
    exact mergeBefore_tweaks ..
  · rw [e]
    exact insertLedNote_tweaks valid ..
  · rw [e]
    exact insertNote_tweaks valid ..

end Notes

theorem indentBefore_tweaks (linked : doc.Linked) (cs : List NodeId) (start index target : Nat) :
    ∃ room place indent, doc.indentBefore cs start index target = .ok (room, place, indent) ∧
      Tweaks doc room := by
  have flush : ∀ place indent, ∃ room place' indent',
      (.ok (doc, place, indent) : Except Fault (Document × Nat × Text)) =
        .ok (room, place', indent') ∧ Tweaks doc room := fun place indent =>
    ⟨doc, place, indent, rfl, ReflTransGen.refl⟩
  rw [indentBefore_eq]
  split
  · exact flush ..
  · unfold splitIndent
    split
    · split
      · rename_i prev _
        split
        · rename_i t run _
          obtain ⟨room, halves, ran, tweaks⟩ :=
            splitText_tweaks linked prev (bytes t - bytes run)
          rw [ran]
          exact ⟨room, _, run, rfl, tweaks⟩
        · exact flush ..
      · exact flush ..
    · exact flush ..

theorem placeAmong_tweaks (o : AnnotateOptions) (linked : doc.Linked) {p : NodeId}
    (valid : p < doc.nodes.size) (target : NodeId) (line : Nat) (rule : Text) :
    ∃ doc' r, doc.placeAmong o p target line rule = .ok (doc', r) ∧ Tweaks doc doc' := by
  rcases placeAmong_outcome o doc p target line rule with
    ⟨r, e⟩ | ⟨start, stop, position, index, -, -, -, -, ⟨r, e⟩ | ⟨body, placed⟩⟩
  · exact ⟨doc, r, e, ReflTransGen.refl⟩
  · exact ⟨_, r, e, mergeBefore_tweaks ..⟩
  · obtain ⟨room, place, indent, made, tweaks⟩ :=
      indentBefore_tweaks linked (doc.children p) start index position
    exact ⟨_, _, placed room place indent made, tweaks.trans
      (insertNote_tweaks (Nat.lt_of_lt_of_le valid (tweaks.size_le linked)) ..)⟩

theorem attachAmong_tweaks (o : AnnotateOptions) (linked : doc.Linked) {p : NodeId}
    (valid : p < doc.nodes.size) (target : NodeId) (line : Nat) (rule : Text) :
    ∃ doc' r, attachAmongSiblings o doc p target line rule = .ok (doc', r) ∧ Tweaks doc doc' := by
  rcases attachAmong_cases o doc p target line rule with
    ⟨-, ran⟩ | ⟨-, ⟨e, r, -, -, ran⟩ | ⟨-, onward⟩⟩
  · exact ⟨doc, _, ran, ReflTransGen.refl⟩
  · exact ⟨_, r, ran, mergeInto_tweaks ..⟩
  · obtain ⟨cut, segmented, tweaks⟩ := segmentChildren_tweaks linked p target
    obtain ⟨doc', r, placed, later⟩ := placeAmong_tweaks o (tweaks.linked linked)
      (Nat.lt_of_lt_of_le valid (tweaks.size_le linked)) target line rule
    refine ⟨doc', r, ?_, tweaks.trans later⟩
    rw [onward, segmented]
    exact placed

theorem annotateOne_tweaks (o : AnnotateOptions) (linked : doc.Linked)
    (root_lt : root < doc.nodes.size) (line : Nat) (rule : Text) :
    ∃ doc' r, doc.annotateOne o line rule = .ok (doc', r) ∧ Tweaks doc doc' := by
  unfold annotateOne
  cases found : doc.locate line with
  | none => exact ⟨doc, _, rfl, ReflTransGen.refl⟩
  | some target =>
    obtain ⟨id, p, above, hold, rfl⟩ := locate_aims linked root_lt found
    have link := (linked.agree p id).mp hold
    rcases aim_node link with aim | ⟨block, aim⟩
    · rw [aim]
      dsimp only
      rw [annotateNode_eq]
      split
      · exact ⟨_, _, rfl, attachBeforeClosing_tweaks hold.parent_lt⟩
      · split
        · exact ⟨_, _, rfl, attachOrdinary_tweaks ..⟩
        · exact attachAmong_tweaks o linked hold.parent_lt id line rule
    · obtain ⟨q, -, within, -⟩ := holds_of_aim aim
      rw [aim]
      exact ⟨_, _, rfl, attachToBlockTail_tweaks (linked.child_lt within)⟩

end Quell.Document
