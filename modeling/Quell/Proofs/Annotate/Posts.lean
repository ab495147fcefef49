import Quell.Proofs.Annotate.Snug
import Quell.Proofs.Annotate.Stems

/-!
Where comments are put in.

In each slot the comments of the source come first, and behind a directive none is put in
(`Stacked`). So a slot with a comment that was put in has no revised comment of the source. Every
edit keeps this, and it puts comments only where the printer looks for them (`Edit.posted`).
-/
namespace Quell

open Text Relation

/-- Only the last comment may have new text, and then it is a directive. If a comment was put in,
then the last one was. -/
structure Stacked (cs : List Comment) : Prop where
  settled : ∀ c ∈ cs.dropLast, c.revised = false
  reads : ∀ c ∈ cs.getLast?, c.revised = true → (Directive.parse? c.text).isSome = true
  last : ∀ c ∈ cs, c.span = none → ∀ d ∈ cs.getLast?, d.span = none

namespace Stacked

variable {cs : List Comment} {c d : Comment}

theorem of_read (unrevised : ∀ c ∈ cs, c.revised = false) (spanned : ∀ c ∈ cs, c.span ≠ none) :
    Stacked cs where
  settled := fun c mem => unrevised c (List.dropLast_subset cs mem)
  reads := fun c last revised => by
    rw [unrevised c (List.mem_of_getLast? last)] at revised
    cases revised
  last := fun c mem new => absurd new (spanned c mem)

theorem eq_last_or_mem (mem : d ∈ cs) : cs.getLast? = some d ∨ d ∈ cs.dropLast := by
  rcases List.eq_nil_or_concat cs with rfl | ⟨front, last, rfl⟩
  · cases mem
  · rw [List.concat_eq_append] at mem ⊢
    rw [List.dropLast_concat, List.getLast?_concat]
    rcases List.mem_append.mp mem with h | h
    · exact .inr h
    · exact .inl (congrArg some (List.mem_singleton.mp h).symm)

theorem unrevised (stacked : Stacked cs) (mem : c ∈ cs) (new : c.span = none) (other : d ∈ cs)
    (read : d.span ≠ none) : d.revised = false := by
  rcases eq_last_or_mem other with last | front
  · exact absurd (stacked.last c mem new d last) read
  · exact stacked.settled d front

theorem unrevised_of_bare (stacked : Stacked cs)
    (bare : ∀ d ∈ cs.getLast?, Directive.parse? d.text = none) (mem : c ∈ cs) : c.revised = false := by
  rcases eq_last_or_mem mem with last | front
  · cases revised : c.revised with
    | false => rfl
    | true =>
      have reads := stacked.reads c last revised
      rw [bare c last] at reads
      cases reads
  · exact stacked.settled c front

end Stacked

namespace Document

variable {source : Text} {doc doc' : Document} {o : AnnotateOptions} {rule : Text}

theorem Amends.stacked {cs cs' : List Comment} (amends : Amends o rule cs cs') (stacked : Stacked cs) :
    Stacked cs' := by
  cases amends with
  | same => exact stacked
  | @extend cs c c' merged =>
    obtain ⟨span, -, -, -, reads⟩ := Comment.merge_parses merged
    have settled := stacked.settled
    have last := stacked.last
    rw [List.dropLast_concat] at settled
    rw [List.getLast?_concat] at last
    refine ⟨by rwa [List.dropLast_concat], fun d here _ => ?_, fun d mem new e here => ?_⟩
    · rw [List.getLast?_concat] at here
      exact Option.some.inj here ▸ reads
    · rw [List.getLast?_concat] at here
      rw [← Option.some.inj here]
      rcases List.mem_append.mp mem with old | one
      · exact span.trans (last d (List.mem_append_left _ old) new c rfl)
      · exact List.mem_singleton.mp one ▸ new
  | @append _ c fresh bare =>
    obtain ⟨span, form, text⟩ := fresh
    refine ⟨fun d mem => ?_, fun d here _ => ?_, fun d _ _ e here => ?_⟩
    · rw [List.dropLast_concat] at mem
      exact stacked.unrevised_of_bare bare mem
    · rw [List.getLast?_concat] at here
      rw [← Option.some.inj here, text]
      exact directiveText_parses o form rule c.kind
    · rw [List.getLast?_concat] at here
      exact Option.some.inj here ▸ span

def Seat (doc : Document) (id : NodeId) : Slot → Prop
  | .leading => doc.span id ≠ none
  | .trailing => id ≠ root
  | .inner => doc.span id = none ∧ doc.kind id = .emptyHole

theorem seat_of_spanned {id : NodeId} {slot : Slot} (spanned : doc.span id ≠ none) (proper : id ≠ root)
    (ne : slot ≠ .inner) : doc.Seat id slot := by
  cases slot with
  | leading => exact spanned
  | trailing => exact proper
  | inner => exact absurd rfl ne

structure Posted (doc : Document) : Prop where
  stacked : ∀ id slot, doc.Reaches id → Stacked ((doc.node id).comments slot)
  seated : ∀ id slot, doc.Reaches id → ∀ c ∈ (doc.node id).comments slot, c.span = none →
    doc.Seat id slot
  /-- In a block with a placeholder nothing was revised. -/
  still : ∀ b c, doc.Reaches b → doc.kind b = .block → doc.Holds b c → doc.span c = none →
    ∀ k ∈ (doc.node b).inner, k.revised = false

theorem WellFormed.posted (wf : doc.WellFormed source) : doc.Posted where
  stacked := fun id slot reached => .of_read (fun c mem => ((wf.each id reached).remarks slot c mem).1)
    fun c mem => by
      obtain ⟨-, s, span, -⟩ := (wf.each id reached).remarks slot c mem
      rw [span]
      exact nofun
  seated := fun id slot reached c mem new => by
    obtain ⟨-, s, span, -⟩ := (wf.each id reached).remarks slot c mem
    cases new.symm.trans span
  still := fun b c reached _ hold spanless => by
    obtain ⟨s, span, -⟩ := (wf.each c (reached.child hold)).spanned
    cases spanless.symm.trans span

theorem Noted.seat {p : NodeId} {A C : List NodeId} {lead : Option Text} {body gap : Text}
    (noted : doc.Noted doc' p A C lead body gap) {id : NodeId} (new : doc.nodes.size ≤ id) {slot : Slot}
    {c : Comment} (mem : c ∈ (doc'.node id).comments slot) : doc'.Seat id slot := by
  obtain ⟨rfl, -⟩ := noted.comments_new new slot mem
  rcases noted.node_new new with node | node | ⟨t, -, node⟩ | node
  · rw [silent_of_node node] at mem
    cases mem
  · unfold Seat span kind
    rw [node]
    exact ⟨rfl, rfl⟩
  · rw [silent_of_node node] at mem
    cases mem
  · rw [silent_of_node node] at mem
    cases mem

theorem Edit.seated (edit : Edit o rule doc doc') (sound : doc.Sound source) (posted : doc.Posted)
    {id : NodeId} {slot : Slot} {c : Comment} (reached : doc'.Reaches id)
    (mem : c ∈ (doc'.node id).comments slot) (new : c.span = none) : doc'.Seat id slot := by
  have frame := (edit.frame sound).1
  have kept : ∀ {d : Comment}, id < doc.nodes.size → d ∈ (doc.node id).comments slot →
      d.span = none → doc'.Seat id slot := by
    intro d lt held new
    obtain ⟨kind, span⟩ := frame.same id lt
    have seat := posted.seated id slot (frame.back id reached lt) d held new
    cases slot with
    | leading => exact fun none => seat (span.symm.trans none)
    | trailing => exact seat
    | inner => exact ⟨span.trans seat.1, kind.trans seat.2⟩
  have spliced : ∀ {p : NodeId} {A B N C : List NodeId}, doc.Splice doc' p A B N C →
      (doc.nodes.size ≤ id → doc'.Seat id slot) → doc'.Seat id slot := by
    intro p A B N C splice fresh
    rcases Nat.lt_or_ge id doc.nodes.size with lt | ge
    · rw [(splice.content lt).2.2 slot] at mem
      exact kept lt mem new
    · exact fresh ge
  cases edit with
  | @extend j slot' cs d d' reached' held merged =>
    have valid := sound.reaches_lt reached'
    have lt := sound.reaches_lt ((reaches_of_same fun j => (tree_setComments j).2.2.1).mp reached)
    rw [comments_update valid] at mem
    split at mem
    · rename_i here
      obtain ⟨rfl, rfl⟩ := here
      rcases List.mem_append.mp mem with old | one
      · exact kept lt (by rw [held]; exact List.mem_append_left _ old) new
      · rw [List.mem_singleton.mp one, (Comment.merge_parses merged).1] at new
        exact kept lt (by rw [held]; simp) new
    · exact kept lt mem new
  | @beside line j p rest found aim place =>
    obtain ⟨reached', starts, -⟩ := sound.first_spec found
    rw [comments_appendComment (sound.reaches_lt reached')] at mem
    split at mem
    · rename_i here
      obtain ⟨rfl, rfl⟩ := here
      obtain ⟨s, span, -⟩ := starts.2.2
      refine seat_of_spanned ?_ starts.1 (besideComment_slot o rule)
      rw [(frame.same id (sound.reaches_lt reached')).2, span]
      exact nofun
    · exact kept (sound.reaches_lt (reaches_appendComment.mp reached)) mem new
  | @behind block last reached' kind found =>
    have reached'' := (sound.last_statement reached' kind found).1
    rw [comments_appendComment (sound.reaches_lt reached'')] at mem
    split at mem
    · rename_i here
      obtain ⟨rfl, rfl⟩ := here
      exact sound.ne_root_of_holds (List.mem_of_getLast? found)
    · exact kept (sound.reaches_lt (reaches_appendComment.mp reached)) mem new
  | fill reached' =>
    obtain ⟨splice, size, node⟩ := addPlaceholder_spec (sound.reaches_lt reached')
    refine spliced splice fun ge => ?_
    rcases Nat.eq_or_lt_of_le ge with rfl | lt
    · rw [silent_of_node node] at mem
      cases mem
    · rw [silent_of_node (node_of_size_le _ (by rw [size]; exact lt))] at mem
      cases mem
  | cut _ _ _ _ recut =>
    refine spliced recut.splice fun ge => ?_
    rw [recut.silent ge] at mem
    cases mem
  | among _ _ _ _ _ _ _ _ noted => exact spliced noted.splice fun ge => noted.seat ge mem
  | last _ _ _ _ _ noted => exact spliced noted.splice fun ge => noted.seat ge mem

/-- What comes into a block comes into one without revised comments in it. -/
theorem Edit.still (edit : Edit o rule doc doc') (sound : doc.Sound source) (posted : doc.Posted)
    {b c : NodeId} (reached : doc'.Reaches b) (kind : doc'.kind b = .block) (hold : doc'.Holds b c)
    (spanless : doc'.span c = none) {k : Comment} (mem : k ∈ (doc'.node b).inner) :
    k.revised = false := by
  have frame := (edit.frame sound).1
  obtain ⟨reached', block, -⟩ := frame.block reached kind
  have lt := sound.reaches_lt reached'
  have kept : doc'.children b = doc.children b → (doc'.node b).inner = (doc.node b).inner →
      k.revised = false := by
    intro children inner
    unfold Holds at hold
    rw [children] at hold
    rw [(frame.same c (sound.linked.child_lt hold)).2] at spanless
    rw [inner] at mem
    exact posted.still b c reached' block hold spanless k mem
  have spliced : ∀ {p : NodeId} {A B N C : List NodeId}, doc.Splice doc' p A B N C →
      (doc.kind p).hasMarkupChildren = true → k.revised = false := by
    intro p A B N C splice markup
    refine kept (splice.children_rest lt ?_) ((splice.content lt).2.2 .inner)
    rintro rfl
    rw [block] at markup
    cases markup
  have commented : ∀ {j : NodeId} {slot : Slot} {cs : List Comment}, j < doc.nodes.size →
      doc' = doc.update j (·.setComments slot cs) → ¬ (b = j ∧ Slot.inner = slot) →
      k.revised = false := by
    rintro j slot cs valid rfl other
    refine kept (tree_setComments b).2.2.1 ?_
    have inner := @comments_update doc j slot cs valid b .inner
    rwa [if_neg other] at inner
  cases edit with
  | @extend j slot cs d d' reached'' held merged room =>
    by_cases here : b = j ∧ Slot.inner = slot
    · obtain ⟨rfl, rfl⟩ := here
      unfold Holds at hold
      rw [(tree_setComments b).2.2.1, room rfl block] at hold
      cases hold
    · exact commented (sound.reaches_lt reached'') rfl here
  | beside found =>
    exact commented (sound.reaches_lt (sound.first_spec found).1) (appendComment_eq ..)
      fun here => besideComment_slot o rule here.2.symm
  | behind reached'' own found =>
    exact commented (sound.reaches_lt (sound.last_statement reached'' own found).1)
      (appendComment_eq ..) nofun
  | @fill q reached'' _ empty bare =>
    obtain ⟨splice, -, -⟩ := addPlaceholder_spec (sound.reaches_lt reached'')
    have inner := (splice.content lt).2.2 .inner
    by_cases here : b = q
    · subst here
      have mem' : k ∈ (doc.node b).comments .inner := inner ▸ mem
      exact (posted.stacked b .inner reached').unrevised_of_bare bare mem'
    · exact kept (splice.children_rest lt here) inner
  | cut _ markup _ _ recut => exact spliced recut.splice markup
  | among _ markup _ _ _ _ _ _ noted => exact spliced noted.splice markup
  | last _ markup _ _ _ noted => exact spliced noted.splice markup

theorem Edit.posted (edit : Edit o rule doc doc') (sound : doc.Sound source) (posted : doc.Posted) :
    doc'.Posted where
  stacked := by
    intro id slot reached
    obtain ⟨frame, amends⟩ := edit.frame sound
    refine (amends id slot).stacked ?_
    rcases Nat.lt_or_ge id doc.nodes.size with lt | ge
    · exact posted.stacked id slot (frame.back id reached lt)
    · rw [silent_of_node (node_of_size_le doc ge)]
      exact ⟨nofun, nofun, nofun⟩
  seated := fun _ _ reached _ mem new => edit.seated sound posted reached mem new
  still := fun _ _ reached block hold spanless _ mem =>
    edit.still sound posted reached block hold spanless mem

end Document
end Quell
