import Quell.Proofs.Annotate.Snug

/-!
Calls that settle nothing.

On the way to a markup comment the texts of an element are cut before it is known whether there is
anything to write. So a call that finds its rule covered, or is skipped, need not leave the tree as
it was. All it may have done is cut texts (`Call.idle`), the print cannot tell a text from its
fragments, and cutting once is enough: `annotateOne_idle`.
-/
namespace Quell.Document

open Text Relation

variable {source : Text} {doc doc' : Document} {o : AnnotateOptions} {rule : Text} {line : Nat}
variable {p target : NodeId}

/-- No text is empty. A reader makes a text only where there is something to read; an empty one would
be dropped by a cut, and its place with it. -/
def Worded (doc : Document) : Prop := ∀ x, doc.Reaches x → doc.text? x ≠ some []

theorem Worded.inked (worded : doc.Worded) (reached : doc.Reaches p) : doc.Inked p :=
  fun x hold => worded x (reached.child hold)

/-- What comes into the tree is cut already. -/
theorem Edit.new_whole (edit : Edit o rule doc doc') (sound : doc.Sound source) {x : NodeId}
    (reached : doc'.Reaches x) (new : doc.nodes.size ≤ x) : doc'.Whole x := by
  have sound' := edit.sound sound
  cases span : doc'.span x with
  | some s => exact (edit.new_spanned sound new span).2.2
  | none =>
    rcases ReflTransGen.cases_tail reached with rfl | ⟨p, above, hold⟩
    · exact absurd span sound'.root_span
    · intro t value
      have ok := sound'.each p above
      rcases (ok.arranged (ok.texts x t hold value)).part hold span with note | gap | lead
      · exact note.whole t value
      · exact gap.whole t value
      · exact lead.whole t value

theorem Edit.worded (edit : Edit o rule doc doc') (sound : doc.Sound source) (worded : doc.Worded) :
    doc'.Worded := by
  have frame := (edit.frame sound).1
  intro x reached
  rcases Nat.lt_or_ge x doc.nodes.size with lt | new
  · rw [frame.text?_eq lt]
    exact worded x (frame.back x reached lt)
  · exact (edit.new_whole sound reached new).ne_nil

theorem Calls.worded (calls : doc.Calls doc') (sound : doc.Sound source) (worded : doc.Worded) :
    doc'.Worded :=
  calls.keeps sound worded fun _ _ _ _ edit => edit.worded

theorem segmentChildren_of_whole {keep : NodeId}
    (whole : ∀ x, doc.Holds p x → x = keep ∨ doc.Whole x) : doc.segmentChildren p keep = .ok doc := by
  unfold segmentChildren
  cases doc.markupRange p with
  | none => rfl
  | some range =>
    obtain ⟨start, stop⟩ := range
    dsimp only
    have held : ∀ x ∈ (((doc.children p).take stop).drop start).reverse, doc.Holds p x := fun x hx =>
      List.mem_of_mem_take (List.mem_of_mem_drop (List.mem_reverse.mp hx))
    generalize (((doc.children p).take stop).drop start).reverse = todo at held
    induction todo with
    | nil => rfl
    | cons id todo ih =>
      rw [List.foldlM_cons]
      have later := ih fun x hx => held x (by simp [hx])
      by_cases kept : id = keep
      · rw [if_pos kept]
        exact later
      · rw [if_neg kept, segmentText_settled ((whole id (held id (by simp))).resolve_left kept)]
        exact later

theorem Sound.segmentChildren_hidden (sound : doc.Sound source) (clear : doc.Clear)
    (worded : doc.Worded) (reached : doc.Reaches p) (keep : NodeId) :
    ∃ cut, doc.segmentChildren p keep = .ok cut ∧ cut.print source = doc.print source ∧
      cut.segmentChildren p keep = .ok cut := by
  cases markup : (doc.kind p).hasMarkupChildren with
  | true =>
    obtain ⟨cut, segmented, slits, whole⟩ := segmentChildren_ok keep sound reached markup
    have printed := (slits.print_eq sound clear reached markup (worded.inked reached)).1
    exact ⟨cut, segmented, printed, segmentChildren_of_whole whole⟩
  | false =>
    have childless : doc.markupRange p = none := by
      unfold markupRange
      rw [markup]
      rfl
    have same : doc.segmentChildren p keep = .ok doc := by
      unfold segmentChildren
      rw [childless]
    exact ⟨doc, same, rfl, same⟩

theorem mergeInto_idle {id : NodeId} {slot : Slot} {r : Resolution}
    (settled : Resolution.ofMerge (doc.mergeInto id slot rule).2 = some r) (still : ¬ Changing r) :
    (doc.mergeInto id slot rule).1 = doc := by
  rcases doc.mergeInto_cases id slot rule with h | ⟨h, -⟩ | ⟨cs, c, c', -, -, h⟩
  · rw [h]
  · rw [h]
  · rw [h] at settled
    cases settled
    exact absurd (.inr rfl) still

theorem attachOrdinary_idle {id : NodeId} (still : ¬ Changing (attachOrdinary o doc id rule).2) :
    (attachOrdinary o doc id rule).1 = doc := by
  rcases attachOrdinary_cases o doc id rule with ⟨r, settled, e⟩ | ⟨-, ⟨r, settled, e⟩ | ⟨-, e⟩⟩
  · rw [e] at still ⊢
    exact mergeInto_idle settled still
  · rw [e] at still ⊢
    exact mergeInto_idle settled still
  · rw [e] at still
    exact absurd (.inl rfl) still

theorem attachBehindLast_idle {block last : NodeId}
    (found : (doc.children block).getLast? = some last)
    (still : ¬ Changing (attachBehindLast o doc block rule).2) :
    (attachBehindLast o doc block rule).1 = doc := by
  rcases attachBehindLast_cases o rule found with ⟨r, settled, e⟩ | ⟨-, e⟩
  · rw [e] at still ⊢
    exact mergeInto_idle settled still
  · rw [e] at still
    exact absurd (.inl rfl) still

theorem attachToBlockTail_idle {block : NodeId} (valid : block < doc.nodes.size)
    (still : ¬ Changing (attachToBlockTail o doc block rule).2) :
    (attachToBlockTail o doc block rule).1 = doc := by
  unfold attachToBlockTail at still ⊢
  cases found : (doc.children block).getLast? with
  | some last =>
    have some : ¬ (doc.children block).isEmpty = true := fun h => by
      rw [List.isEmpty_iff.mp h] at found
      cases found
    rw [if_neg some] at still ⊢
    exact attachBehindLast_idle found still
  | none =>
    have empty := List.getLast?_eq_none_iff.mp found
    have none : (doc.children block).isEmpty = true := List.isEmpty_iff.mpr empty
    rw [if_pos none] at still ⊢
    dsimp only at still ⊢
    cases settled : Resolution.ofMerge (doc.mergeInto block .inner rule).2 with
    | some r =>
      rw [settled] at still
      exact mergeInto_idle settled still
    | none =>
      rw [settled, mergeInto_unsettled settled] at still
      exact absurd (.inl (attachBehindLast_placeholder valid empty o rule)) still

theorem attachBeforeClosing_idle {id : NodeId} (sound : doc.Sound source) (reached : doc.Reaches p)
    (hold : doc.Holds p id) (kind : doc.kind id = .closingTag)
    (still : ¬ Changing (attachBeforeClosing o doc p rule).2) :
    (attachBeforeClosing o doc p rule).1 = doc := by
  cases markup : (doc.kind p).hasMarkupChildren with
  | false => rw [attachBeforeClosing_childless o rule markup]
  | true =>
    obtain ⟨first, items, -, ⟨e, r, -, settled, result⟩ | ⟨-, doc', indent, -, -, result⟩⟩ :=
      attachBeforeClosing_cases o sound reached markup hold kind rule
    · rw [result] at still ⊢
      exact mergeInto_idle settled still
    · rw [result] at still
      exact absurd (.inl rfl) still

/-- Behind segmentation a call that changes no comment does nothing more. -/
theorem AmongSiblings.idle {r : Resolution}
    (among : AmongSiblings o rule line p target doc doc' r) (still : ¬ Changing r) : doc' = doc := by
  cases among with
  | tag => rfl
  | merge _ _ settled => exact mergeInto_idle settled still
  | insert => exact absurd (.inl rfl) still

def Idles (doc doc' : Document) : Prop :=
  doc' = doc ∨
    ∃ p keep, doc.Reaches p ∧ (doc.kind p).hasMarkupChildren = true ∧ Slits p keep doc doc'

theorem AttachAmong.idle {r : Resolution} (attach : AttachAmong o rule line p target doc doc' r)
    (reached : doc.Reaches p) (still : ¬ Changing r) : doc.Idles doc' := by
  cases attach with
  | childless => exact .inl rfl
  | own _ _ settled => exact .inl (mergeInto_idle settled still)
  | placed markup _ _ slits among =>
    rw [among.idle still]
    exact .inr ⟨p, target, reached, markup, slits⟩

/-- A call that changes no comment cuts texts at most. -/
theorem Call.idle {r : Resolution} (call : Call o rule line doc doc' r) (sound : doc.Sound source)
    (still : ¬ Changing r) : doc.Idles doc' := by
  cases call with
  | missed => exact .inl rfl
  | tail _ _ reached => exact .inl (attachToBlockTail_idle (sound.reaches_lt reached) still)
  | closing found aim kind =>
    obtain ⟨-, -, p', link, above, -⟩ := sound.first_spec found
    cases link.symm.trans (parent_of_aim aim)
    have hold := (sound.linked.agree _ _).mpr link
    exact .inl (attachBeforeClosing_idle sound above hold kind still)
  | beside => exact .inl (attachOrdinary_idle still)
  | among found aim _ _ attach =>
    obtain ⟨-, -, p', link, above, -⟩ := sound.first_spec found
    cases link.symm.trans (parent_of_aim aim)
    exact attach.idle above still

theorem Idles.print_eq (idles : doc.Idles doc') (sound : doc.Sound source) (clear : doc.Clear)
    (worded : doc.Worded) : doc'.print source = doc.print source := by
  rcases idles with rfl | ⟨p, keep, reached, markup, slits⟩
  · rfl
  · exact (slits.print_eq sound clear reached markup (worded.inked reached)).1

/-- After any run of calls on a well-formed document without empty texts and with no comment in a
text: segmentation of an element, whichever child is kept, cannot be seen in the print and is done
once; and a call that finds its rule covered or is skipped leaves the print as it is. -/
theorem annotateOne_idle (wf : doc.WellFormed source) (clear : doc.Clear) (worded : doc.Worded)
    (calls : doc.Calls doc') :
    (∀ p keep, doc'.Reaches p → ∃ cut, doc'.segmentChildren p keep = .ok cut ∧
      cut.print source = doc'.print source ∧ cut.segmentChildren p keep = .ok cut) ∧
    ∀ o line rule, ∃ next r, doc'.annotateOne o line rule = .ok (next, r) ∧
      ((r = .alreadySuppressed ∨ ∃ reason, r = .skipped reason) →
        next.print source = doc'.print source) := by
  have sound := (Calls.frame calls wf.sound).1
  have clear' := calls.clear wf.sound clear
  have worded' := calls.worded wf.sound worded
  refine ⟨fun p keep reached => sound.segmentChildren_hidden clear' worded' reached keep, ?_⟩
  intro o line rule
  obtain ⟨next, r, called, call⟩ := annotateOne_ok sound o line rule
  refine ⟨next, r, called, fun idle => ?_⟩
  have still : ¬ Changing r := by
    rintro (rfl | rfl)
    · rcases idle with h | ⟨_, h⟩ <;> cases h
    · rcases idle with h | ⟨_, h⟩ <;> cases h
  exact (call.idle sound still).print_eq sound clear' worded'

/-- Words, a markup comment that covers the rule `r`, and an element on the line behind it. -/
def coveredSource : Text := "<a>\n x\n\x7b/* eslint-disable-next-line r */\x7d\n<b/>\n</a>".toList

def coveredSample : Document where
  nodes := #[
    { kind := .program, span := some ⟨0, 51, 1, 5⟩, children := [1] },
    { kind := .statement, span := some ⟨0, 51, 1, 5⟩, parent := some 0, children := [2] },
    { kind := .element, span := some ⟨0, 51, 1, 5⟩, parent := some 1
      children := [3, 4, 5, 7, 8, 10, 11] },
    { kind := .openingTag, span := some ⟨0, 3, 1, 1⟩, parent := some 2 },
    { kind := .text "\n x\n".toList, span := some ⟨3, 7, 1, 3⟩, parent := some 2 },
    { kind := .hole, span := some ⟨7, 41, 3, 3⟩, parent := some 2, children := [6] },
    { kind := .emptyHole, span := some ⟨8, 40, 3, 3⟩, parent := some 5
      inner := [{ kind := .block, text := " eslint-disable-next-line r ".toList, placement := .inner
                  span := some ⟨8, 40, 3, 3⟩ }] },
    { kind := .text "\n".toList, span := some ⟨41, 42, 3, 4⟩, parent := some 2 },
    { kind := .element, span := some ⟨42, 46, 4, 4⟩, parent := some 2, children := [9] },
    { kind := .openingTag, span := some ⟨42, 46, 4, 4⟩, parent := some 8 },
    { kind := .text "\n".toList, span := some ⟨46, 47, 4, 5⟩, parent := some 2 },
    { kind := .closingTag, span := some ⟨47, 51, 5, 5⟩, parent := some 2 }]

/-- A call for the element finds the rule in the markup comment only after it has cut the words off
their line breaks. -/
theorem annotateOne_idle_covered : coveredSample.WellFormed coveredSource ∧ coveredSample.Clear ∧
    coveredSample.Worded ∧ ∃ doc', coveredSample.Calls doc' ∧
      ∃ next, doc'.annotateOne {} 4 ['r'] = .ok (next, .alreadySuppressed) ∧
        doc'.nodes.size < next.nodes.size ∧ next.print coveredSource = doc'.print coveredSource := by
  have wf : coveredSample.WellFormed coveredSource := wellFormed_of_reads (by decide)
  have clear : coveredSample.Clear := clear_of_table (by decide)
  have worded : coveredSample.Worded := by
    have table : ∀ id < coveredSample.nodes.size, coveredSample.text? id ≠ some [] := by decide
    exact fun x reached => table x (wf.linked.reaches_lt wf.root_lt reached)
  have calls : coveredSample.Calls (attachBeforeClosing {} coveredSample 2 ['q']).1 :=
    ReflTransGen.single ⟨{}, 5, ['q'], .inserted, rfl⟩
  refine ⟨wf, clear, worded, _, calls, ?_⟩
  obtain ⟨next, r, called, same⟩ := (annotateOne_idle wf clear worded calls).2 {} 4 ['r']
  have verdict : ((attachBeforeClosing {} coveredSample 2 ['q']).1.annotateOne {} 4 ['r']).map
      (fun x => (x.2, x.1.nodes.size)) = .ok (.alreadySuppressed, 19) := by rfl
  rw [called] at verdict
  obtain ⟨rfl, size⟩ := Prod.mk.inj (Except.ok.inj verdict)
  refine ⟨next, called, ?_, same (.inl rfl)⟩
  have before : (attachBeforeClosing {} coveredSample 2 ['q']).1.nodes.size = 15 := rfl
  rw [before, size]
  decide

end Quell.Document
