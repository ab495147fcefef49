import Quell.Proofs.Annotate.Frame
import Quell.Proofs.Document.WellFormed
import Quell.Proofs.Print.Conservation

/-!
A sound document prints, and its page uses the source up.

The revised comments of a sound document lie apart, and all offsets of its strokes are cuts of the
source, but one: the offset behind the opening brace of a block is taken to be one byte behind the
start of the block.
-/
namespace Quell

open Text Relation

namespace Revision

theorem mem_insert {r q : Revision} {rs : List Revision} (h : q ∈ insert r rs) :
    q = r ∨ q ∈ rs := by
  induction rs with
  | nil => exact .inl (List.mem_singleton.mp h)
  | cons p rs ih =>
    rw [insert] at h
    split at h
    · exact List.mem_cons.mp h
    · split at h
      · rcases List.mem_cons.mp h with h | h
        · exact .inl h
        · exact .inr (List.mem_cons_of_mem _ h)
      · rcases List.mem_cons.mp h with h | h
        · exact .inr (h ▸ List.mem_cons_self ..)
        · rcases ih h with h | h
          · exact .inl h
          · exact .inr (List.mem_cons_of_mem _ h)

theorem insert_ne_nil (r : Revision) (rs : List Revision) : insert r rs ≠ [] := by
  cases rs with
  | nil => exact nofun
  | cons q rs =>
    rw [insert]
    split
    · exact nofun
    · split <;> exact nofun

theorem insert_sorted (r : Revision) {rs : List Revision}
    (sorted : rs.Pairwise fun p q => p.lo < q.lo) :
    (insert r rs).Pairwise fun p q => p.lo < q.lo := by
  induction rs with
  | nil => exact List.pairwise_singleton _ _
  | cons p rs ih =>
    obtain ⟨first, others⟩ := List.pairwise_cons.mp sorted
    rw [insert]
    split
    · rename_i lt
      refine List.pairwise_cons.mpr ⟨fun q hq => ?_, sorted⟩
      rcases List.mem_cons.mp hq with rfl | hq
      · exact lt
      · exact Nat.lt_trans lt (first q hq)
    · split
      · rename_i eq
        exact List.pairwise_cons.mpr ⟨fun q hq => eq ▸ first q hq, others⟩
      · refine List.pairwise_cons.mpr ⟨fun q hq => ?_, ih others⟩
        rcases mem_insert hq with rfl | hq
        · omega
        · exact first q hq

end Revision

namespace Press

theorem revisions_spec {P : Revision → Prop} (cs : List Comment)
    (each : ∀ c ∈ cs, ∀ s, c.span = some s → c.revised = true → P ⟨s.lo, s.hi, c.render⟩)
    {rs : List Revision} (sorted : rs.Pairwise fun p q => p.lo < q.lo) (all : ∀ r ∈ rs, P r) :
    let out := cs.foldl (fun rs c => match c.span with
      | some s => if c.revised then Revision.insert ⟨s.lo, s.hi, c.render⟩ rs else rs
      | none => rs) rs
    out.Pairwise (fun p q => p.lo < q.lo) ∧ ∀ r ∈ out, P r := by
  induction cs generalizing rs with
  | nil => exact ⟨sorted, all⟩
  | cons c cs ih =>
    have later := fun c hc => each c (List.mem_cons_of_mem _ hc)
    rw [List.foldl_cons]
    cases span : c.span with
    | none => exact ih later sorted all
    | some s =>
      dsimp only
      split
      · rename_i revised
        refine ih later (Revision.insert_sorted _ sorted) fun r hr => ?_
        rcases Revision.mem_insert hr with rfl | hr
        · exact each c (by simp) s span revised
        · exact all r hr
      · exact ih later sorted all

/-- The revised comments of a sound document are fair to its source. -/
theorem fair_of_sound {source : Text} {doc : Document} (sound : doc.Sound source) :
    (Press.of doc source).Fair := by
  have origin : ∀ c ∈ doc.preorder.flatMap fun id => (doc.node id).allComments,
      ∃ id slot, doc.Reaches id ∧ c ∈ (doc.node id).comments slot := by
    intro c hc
    obtain ⟨id, mem, hc⟩ := List.mem_flatMap.mp hc
    obtain ⟨slot, hc⟩ := Document.mem_allComments.mp hc
    exact ⟨id, slot, (Document.mem_preorder sound.linked sound.root_lt).mp mem, hc⟩
  obtain ⟨sorted, all⟩ := revisions_spec (P := fun r => doc.Revises r.lo r.hi r.text ∧
      ∃ s, doc.RemarkAt s ∧ s.Fits source ∧ s.lo = r.lo ∧ s.hi = r.hi)
    (doc.preorder.flatMap fun id => (doc.node id).allComments) (by
      intro c hc s span revised
      obtain ⟨id, slot, reached, mem⟩ := origin c hc
      exact ⟨⟨id, reached, c, Document.mem_allComments.mpr ⟨slot, mem⟩, revised, rfl, s, span, rfl,
        rfl⟩, s, ⟨id, slot, c, reached, mem, span⟩, (sound.each id reached).remarks slot c mem s span,
        rfl, rfl⟩) List.Pairwise.nil nofun
  refine ⟨rfl, ?_, fun r hr => ?_⟩
  · refine sorted.imp_of_mem fun {r q} hr hq lt => ?_
    obtain ⟨-, s, hs, fits, lo, hi⟩ := all r hr
    obtain ⟨-, t, ht, fits', lo', hi'⟩ := all q hq
    have := fits'.le
    rcases sound.apart s t hs ht with rfl | le | le
    · omega
    · omega
    · omega
  · obtain ⟨revises, s, -, fits, lo, hi⟩ := all r hr
    rw [← lo, ← hi] at revises ⊢
    exact ⟨fits.le, fits.lo, fits.hi, revises⟩

end Press

namespace Document

variable {source : Text} {doc : Document}

/-- One byte behind the start of a block is a cut: its opening brace. -/
def Braced (source : Text) (doc : Document) : Prop :=
  ∀ id, doc.Reaches id → doc.kind id = .block → ∀ s, doc.span id = some s → Cut source (s.lo + 1)

theorem Frame.braced {doc' : Document} (frame : doc.Frame doc') (braced : doc.Braced source) :
    doc'.Braced source := by
  intro id reached kind s span
  obtain ⟨was, block, same⟩ := frame.block reached kind
  exact braced id was block s (same ▸ span)

theorem mem_endsOf {cs : List Comment} {n : Nat} (h : n ∈ endsOf cs) :
    ∃ c ∈ cs, ∃ s, c.span = some s ∧ s.hi = n := by
  obtain ⟨c, hc, span⟩ := List.mem_filterMap.mp h
  obtain ⟨s, hs, rfl⟩ := Option.map_eq_some_iff.mp span
  exact ⟨c, hc, s, hs, rfl⟩

section Fits

variable (sound : doc.Sound source) (braced : doc.Braced source)

include sound

theorem cut_endsOf {id : NodeId} (reached : doc.Reaches id) (slot : Slot) {n : Nat}
    (h : n ∈ endsOf ((doc.node id).comments slot)) : Cut source n := by
  obtain ⟨c, hc, s, hs, rfl⟩ := mem_endsOf h
  exact ((sound.each id reached).remarks slot c hc s hs).hi

theorem fits_marginOf {id p : NodeId} (reached : doc.Reaches p) (hold : doc.Holds p id) :
    (doc.marginOf id p).Fits source := by
  unfold marginOf
  split
  · rename_i s hs
    exact (sound.fits (reached.child hold) hs).lo
  · intro n hn
    obtain ⟨s, hs, rfl⟩ := Option.map_eq_some_iff.mp hn
    exact (sound.fits reached hs).lo

theorem fits_strokesBehind {id p : NodeId} (reached : doc.Reaches p) (hold : doc.Holds p id) :
    ∀ stroke ∈ doc.strokesBehind id p, stroke.Fits source := by
  intro stroke h
  unfold strokesBehind at h
  split at h
  · cases h
  · rw [List.mem_singleton.mp h]
    refine ⟨fun n hn => ?_, fits_marginOf sound reached hold⟩
    exact cut_endsOf sound (reached.child hold) .trailing (List.max?_mem hn)

include braced

theorem fits_gather (id : NodeId) (reached : doc.Reaches id) :
    ∀ stroke ∈ doc.gather doc.strokesOf id, stroke.Fits source := by
  refine forall_gather sound.linked (fun x => sound.reaches_lt)
    (fun x c hx hold => Reaches.child hx hold) ?_ ?_ ?_ (fun _ => trivial) id reached
  · intro x s hx span
    have fits := sound.fits hx span
    exact ⟨fits.lo, fits.hi⟩
  · intro x hx block
    refine ⟨fun n hn => ?_, fun n hn => cut_endsOf sound hx .inner hn⟩
    obtain ⟨s, hs, rfl⟩ := Option.map_eq_some_iff.mp hn
    exact braced x hx block s hs
  · exact fun x c hx hold => fits_strokesBehind sound hx hold

theorem run_ok : ∃ page, (Press.of doc source).run = .ok page ∧
    Spends doc source 0 page.pieces.reverse := by
  have fair := Press.fair_of_sound sound
  obtain ⟨q, performed, hq⟩ := Press.performAll_ok fair Page.Sound.start
    (doc.gather doc.strokesOf root) (fits_gather sound braced root ReflTransGen.refl)
  obtain ⟨page, flushed, pos, hpage⟩ := Press.flushTo_ok fair hq (Cut.full source)
  refine ⟨page, ?_, ?_⟩
  · rw [Press.run_eq_perform]
    unfold strokes
    rw [List.foldlM_append, performed]
    show [Stroke.reach source.bytes].foldlM (Press.of doc source).perform q = _
    rw [List.foldlM_cons]
    simp only [Press.perform, flushed]
    rfl
  · have full : page.pos = source.bytes := by
      have := Cut.le_bytes hq.cut
      rw [pos]
      exact Nat.max_eq_right this
    have whole := hpage.spends [] (by rw [full]; exact .done)
    rwa [List.append_nil] at whole

end Fits

def Called (doc doc' : Document) : Prop :=
  ∃ o line rule r, doc.annotateOne o line rule = .ok (doc', r)

/-- Any number of calls, one after the other. -/
def Calls : Document → Document → Prop := ReflTransGen Called

theorem Called.call {doc' : Document} (called : doc.Called doc') (sound : doc.Sound source) :
    ∃ o line rule r, Call o rule line doc doc' r := by
  obtain ⟨o, line, rule, r, result⟩ := called
  obtain ⟨d, r', result', call⟩ := annotateOne_ok sound o line rule
  cases result.symm.trans result'
  exact ⟨o, line, rule, r, call⟩

theorem Calls.frame {doc' : Document} (calls : doc.Calls doc') (sound : doc.Sound source) :
    doc'.Sound source ∧ doc.Frame doc' := by
  induction calls with
  | refl => exact ⟨sound, .refl doc⟩
  | tail _ called ih =>
    obtain ⟨sound', frame⟩ := ih
    obtain ⟨o, line, rule, r, call⟩ := called.call sound'
    have edits := (call.settles sound').edits
    exact ⟨Edits.sound edits sound', frame.trans (Edits.frame edits sound')⟩

/-- After any run of calls on a well-formed document whose blocks start with a brace, the document
prints without a fault, and its pieces use the source up. -/
theorem print_conserves {doc' : Document} (wf : doc.WellFormed source) (braced : doc.Braced source)
    (calls : doc.Calls doc') :
    ∃ page, (Press.of doc' source).run = .ok page ∧ doc'.print source = .ok page.text ∧
      Spends doc' source 0 page.pieces.reverse := by
  obtain ⟨sound, frame⟩ := Calls.frame calls wf.sound
  obtain ⟨page, run, spends⟩ := run_ok sound (frame.braced braced)
  refine ⟨page, run, ?_, spends⟩
  unfold print
  rw [run]
  rfl

theorem braced_of_table
    (h : ∀ id < doc.nodes.size, doc.kind id = .block → ∀ s ∈ doc.span id, Cut source (s.lo + 1)) :
    doc.Braced source := by
  intro id _ kind s span
  rcases Nat.lt_or_ge id doc.nodes.size with lt | ge
  · exact h id lt kind s span
  · exact absurd kind ((Frame.refl doc).fresh id ge)

/-- An alternate behind an empty block. -/
def branchSource : Text := "if (a) {}\nelse b();".toList

def branchSample : Document where
  nodes := #[
    { kind := .program, span := some ⟨0, 19, 1, 2⟩, children := [1] },
    { kind := .conditional, span := some ⟨0, 19, 1, 2⟩, parent := some 0, children := [2, 3, 4] },
    { kind := .expression, span := some ⟨4, 5, 1, 1⟩, parent := some 1 },
    { kind := .block, span := some ⟨7, 9, 1, 1⟩, parent := some 1 },
    { kind := .statement, span := some ⟨15, 19, 2, 2⟩, parent := some 1 }]

theorem print_conserves_branch : branchSample.WellFormed branchSource ∧
    branchSample.Braced branchSource ∧ ∃ doc', branchSample.Calls doc' ∧
      ∃ page, (Press.of doc' branchSource).run = .ok page ∧
        doc'.print branchSource = .ok page.text ∧
        Spends doc' branchSource 0 page.pieces.reverse := by
  have wf : branchSample.WellFormed branchSource := wellFormed_of_reads (by decide)
  have braced : branchSample.Braced branchSource := braced_of_table (by decide)
  have calls : branchSample.Calls (attachToBlockTail {} branchSample 3 ['r']).1 :=
    ReflTransGen.single ⟨{}, 2, ['r'], .inserted, rfl⟩
  exact ⟨wf, braced, _, calls, print_conserves wf braced calls⟩

/-- A source with a byte order mark and a wide blank in front of a brace. -/
def shiftedSource : Text := "\uFEFFif (a)\u3000{   }\nelse if (b) {}".toList

/-- How it is read: the mark is left out, so all spans are three bytes too low. -/
def shiftedSample : Document where
  nodes := #[
    { kind := .program, span := some ⟨0, 32, 1, 2⟩, children := [1] },
    { kind := .conditional, span := some ⟨0, 29, 1, 2⟩, parent := some 0, children := [2, 3, 4] },
    { kind := .expression, span := some ⟨4, 5, 1, 1⟩, parent := some 1 },
    { kind := .block, span := some ⟨9, 14, 1, 1⟩, parent := some 1 },
    { kind := .conditional, span := some ⟨20, 29, 2, 2⟩, parent := some 1, children := [5, 6] },
    { kind := .expression, span := some ⟨24, 25, 2, 2⟩, parent := some 4 },
    { kind := .block, span := some ⟨27, 29, 2, 2⟩, parent := some 4 }]

/-- Without a brace at the start of a block a well-formed document may not print: the offset behind
the brace lies inside of a character. -/
theorem print_faults_shifted : shiftedSample.WellFormed shiftedSource ∧
    ∃ doc', shiftedSample.Calls doc' ∧ doc'.print shiftedSource = .error .outsideText := by
  refine ⟨wellFormed_of_reads (by decide), (attachToBlockTail {} shiftedSample 3 ['r']).1,
    ReflTransGen.single ⟨{}, 2, ['r'], .inserted, rfl⟩, rfl⟩

end Document
end Quell
