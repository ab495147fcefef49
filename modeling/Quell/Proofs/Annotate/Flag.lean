import Quell.Proofs.Annotate.Written

/-!
What the summary of a run tells about the document.

A run that counts nothing as inserted or merged leaves every comment as it was read, and one that does
leaves a comment that was put in or revised (`annotateFrom_told`).
-/
namespace Quell.Document

open Text Relation

variable {source : Text} {doc doc' : Document} {o : AnnotateOptions} {rule : Text}

structure Told (doc : Document) (summary : Summary) : Prop where
  altered : summary.changed = true → doc.Altered
  pristine : summary.changed = false → doc.Pristine

theorem Edit.altered (edit : Edit o rule doc doc') (sound : doc.Sound source) (altered : doc.Altered) :
    doc'.Altered := by
  obtain ⟨id, slot, c, reached, mem, other⟩ := altered
  obtain ⟨frame, amends⟩ := edit.frame sound
  have reached' := sound.reaches_of_comment frame reached mem
  have here := amends id slot
  generalize (doc.node id).comments slot = cs at mem here
  generalize now : (doc'.node id).comments slot = cs' at here
  cases here with
  | same => exact ⟨id, slot, c, reached', now ▸ mem, other⟩
  | @extend cs d d' merged =>
    rcases List.mem_append.mp mem with old | one
    · exact ⟨id, slot, c, reached', by simp [now, old], other⟩
    · exact ⟨id, slot, d', reached', by simp [now], .inr (Comment.merge_parses merged).2.2.2.1⟩
  | append => exact ⟨id, slot, c, reached', by simp [now, mem], other⟩

theorem Edits.altered (edits : Edits o rule doc doc') (sound : doc.Sound source)
    (altered : doc.Altered) : doc'.Altered := by
  induction edits with
  | refl => exact altered
  | tail before edit ih => exact edit.altered (Edits.sound before sound) ih

theorem changed_record (s : Summary) (line : Nat) (rule : Text) (r : Resolution) :
    (s.record line rule r).changed = true ↔ s.changed = true ∨ Changing r := by
  unfold Summary.changed
  simp only [decide_eq_true_eq]
  have other : ∀ {r : Resolution}, r ≠ .inserted → r ≠ .merged → ¬ Changing r := fun h h' changing =>
    changing.elim h h'
  cases r with
  | inserted => exact ⟨fun _ => .inr (.inl rfl), fun _ => by simp only [Summary.record]; omega⟩
  | merged => exact ⟨fun _ => .inr (.inr rfl), fun _ => by simp only [Summary.record]; omega⟩
  | alreadySuppressed => exact ⟨.inl, fun h => h.resolve_right (other (by simp) (by simp))⟩
  | skipped reason => exact ⟨.inl, fun h => h.resolve_right (other (by simp) (by simp))⟩

/-- One call. -/
theorem Told.call {summary : Summary} {line : Nat} {r : Resolution} (told : doc.Told summary)
    (sound : doc.Sound source) (settles : Settles o rule doc doc' r) :
    doc'.Told (summary.record line rule r) where
  altered := fun changed => by
    rcases (changed_record ..).mp changed with before | now
    · exact Edits.altered settles.edits sound (told.altered before)
    · exact settles.alters now
  pristine := fun still => by
    have none : ¬ (summary.changed = true ∨ Changing r) := fun h => by
      rw [(changed_record ..).mpr h] at still
      cases still
    rw [not_or, Bool.not_eq_true] at none
    exact settles.spares none.2 (told.pristine none.1)

theorem annotateFrom_told {ds : List Diagnostic} {summary summary' : Summary} (sound : doc.Sound source)
    (told : doc.Told summary) (ran : doc.annotateFrom o summary ds = .ok (doc', summary')) :
    doc'.Told summary' := by
  induction ds generalizing doc summary with
  | nil =>
    cases ran
    exact told
  | cons d ds ih =>
    rw [annotateFrom] at ran
    split at ran
    · exact ih sound told ran
    · split at ran
      · rename_i rule _ _
        obtain ⟨mid, r, result, call⟩ := annotateOne_ok sound o d.line rule
        rw [result] at ran
        have settles := call.settles sound
        exact ih (Edits.sound settles.edits sound) (told.call sound settles) ran
      · exact ih sound told ran

theorem annotateFrom_idle {ds : List Diagnostic} {summary : Summary}
    (idle : ∀ d ∈ ds, ∀ rule, d.actionableRule = some rule → o.allows rule = false) :
    doc.annotateFrom o summary ds = .ok (doc, summary) := by
  induction ds with
  | nil => rfl
  | cons d ds ih =>
    have later := ih fun e he => idle e (List.mem_cons_of_mem d he)
    rw [annotateFrom]
    split
    · exact later
    · rename_i rule asked
      rw [if_neg (by rw [idle d List.mem_cons_self rule asked]; exact Bool.false_ne_true)]
      exact later

theorem WellFormed.pristine (wf : doc.WellFormed source) : doc.Pristine := by
  refine ⟨fun id reached => ?_, ?_⟩
  · obtain ⟨s, span, -⟩ := (wf.each id reached).spanned
    rw [span]
    exact nofun
  · rintro ⟨id, slot, c, reached, mem, other⟩
    obtain ⟨unrevised, s, span, -⟩ := (wf.each id reached).remarks slot c mem
    rw [unrevised, span] at other
    exact other.elim nofun nofun

theorem Sound.wellFormed (sound : doc.Sound source) (pristine : doc.Pristine) :
    doc.WellFormed source where
  linked := sound.linked
  root_lt := sound.root_lt
  root_kind := sound.root_kind
  root_parent := sound.root_parent
  apart := sound.apart
  each := by
    intro id reached
    have ok := sound.each id reached
    have spanned : ∀ c, doc.Holds id c → doc.span c ≠ none := fun c hold =>
      pristine.spanned c (reached.child hold)
    refine ⟨?_, ok.nested, ok.ordered, ok.text, ok.texts, fun slot c mem => ?_, fun markup => ?_⟩
    · obtain ⟨s, span⟩ := Option.ne_none_iff_exists'.mp (pristine.spanned id reached)
      exact ⟨s, span, ok.fits s span⟩
    · have plain : ¬ (c.span = none ∨ c.revised = true) := fun other =>
        pristine.unaltered ⟨id, slot, c, reached, mem, other⟩
      rw [not_or, Bool.not_eq_true] at plain
      obtain ⟨s, span⟩ := Option.ne_none_iff_exists'.mp plain.1
      exact ⟨plain.2, s, span, ok.remarks slot c mem s span⟩
    · obtain ⟨first, body, tail, closing, layout, -, tails, -⟩ := ok.arranged markup
      exact ⟨first, body ++ tail, closing, layout⟩

end Quell.Document
