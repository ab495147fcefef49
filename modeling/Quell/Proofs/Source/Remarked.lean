import Quell.Proofs.Source.Rehomed

/-!
The document of a source with line comments put in.

It is well-formed if that of the source is (`Reread.wellFormed`), and each of the comments is the last
one in front of the target below it (`Reread.marked`).
-/
namespace Quell

open Text Relation Grammar

namespace Grammar

section

variable {ι : Type} {P : ι → Label → Nat → Nat → Prop}

mutual

theorem Term.all_forall : (t : Term) → (∀ i, t.All (P i)) →
    t.All fun label lo hi => ∀ i, P i label lo hi
  | .mk _ _ _ ps, h =>
    .mk (fun i => (Term.all_mk.mp (h i)).1) (all_forall_parts ps fun i => (Term.all_mk.mp (h i)).2)

theorem all_forall_parts : (ts : List Term) → (∀ i, ∀ t ∈ ts, t.All (P i)) →
    ∀ t ∈ ts, t.All fun label lo hi => ∀ i, P i label lo hi
  | [], _ => nofun
  | t :: ts, h => List.forall_mem_cons.mpr ⟨t.all_forall fun i => h i t List.mem_cons_self,
      all_forall_parts ts fun i t mem => h i t (List.mem_cons_of_mem _ mem)⟩

end

end

end Grammar

namespace Document

variable {source text : Text} {doc doc' : Document} {rows : List RowAt} {id q : NodeId} {line : Nat}
variable {p p' : Program} {u : Span} {eol : LineEnding} {notes : List Grammar.Note} {note : Grammar.Note}

theorem span_fits {t : Text} {lo hi : Nat} (le : lo ≤ hi) (start : Cut t lo) (stop : Cut t hi) :
    ((Source.of t).span lo hi).Fits t :=
  ⟨le, start, stop, rfl, rfl⟩

namespace Lowered

variable (lowered : Lowered rows source text doc doc')

include lowered

theorem of_sameTree {tree : Document} (same : doc'.SameTree tree)
    (parent : ∀ j, tree.parent j = doc'.parent j) : Lowered rows source text doc tree :=
  { lowered with displaced := lowered.displaced.of_sameTree (.refl doc) same (fun _ => rfl) parent }

theorem text?_eq {j : NodeId} (hj : doc.Reaches j) : doc'.text? j = doc.text? j := by
  unfold text?
  rw [lowered.kind_eq hj]

/-- Only the comments are left to check. -/
theorem wellFormed (wf : doc.WellFormed source)
    (silent : ∀ j t slot, doc.Reaches j → doc.text? j = some t → (doc'.node j).comments slot = [])
    (remarks : ∀ j, doc.Reaches j → ∀ slot, ∀ c ∈ (doc'.node j).comments slot,
      c.revised = false ∧ ∃ s, c.span = some s ∧ s.Fits text)
    (apart : ∀ s t, doc'.RemarkAt s → doc'.RemarkAt t → s = t ∨ s.hi ≤ t.lo ∨ t.hi ≤ s.lo) :
    doc'.WellFormed text := by
  have displaced := lowered.displaced
  have sound := lowered.sound
  have spanned : ∀ j, doc.Reaches j → ∃ s, doc'.span j = some s ∧ s.Fits text := by
    intro j hj
    by_cases top : j = root
    · subst top
      exact ⟨_, displaced.top, span_fits (Nat.zero_le _) (.zero text) (.full text)⟩
    · obtain ⟨v, span, fits⟩ := (wf.each j hj).spanned
      exact ⟨_, lowered.span_eq top span, lowered.fits fits⟩
  refine ⟨wf.linked.of_same displaced.children displaced.parent, displaced.size.symm ▸ wf.root_lt,
    (lowered.kind_eq .refl).trans wf.root_kind, (displaced.parent root).trans wf.root_parent,
    fun j reached => ?_, apart⟩
  have hj := (reaches_of_same displaced.children).mp reached
  have ok := wf.each j hj
  have child : ∀ {c}, doc.Holds j c → ∃ v, doc.span c = some v ∧ doc'.span c =
      some ((Source.of text).span (startAfter rows v.lo) (startAfter rows v.hi)) := by
    intro c hold
    obtain ⟨v, span, -⟩ := (wf.each c (hj.child hold)).spanned
    exact ⟨v, span, lowered.span_eq (sound.ne_root_of_holds hold) span⟩
  have holds : ∀ {c}, doc'.Holds j c → doc.Holds j c := fun hold => by
    unfold Holds at hold ⊢
    rwa [displaced.children] at hold
  refine ⟨spanned j hj, fun s c t hs hold ht => ?_, ?_, fun t value => ?_, fun c t hold value => ?_,
    remarks j hj, fun markup => ?_⟩
  · obtain ⟨v, span, span'⟩ := child (holds hold)
    cases ht.symm.trans span'
    by_cases top : j = root
    · subst top
      cases hs.symm.trans displaced.top
      have fits := lowered.fits (sound.fits (hj.child (holds hold)) span)
      exact ⟨Nat.zero_le _, fits.hi.le_bytes⟩
    · obtain ⟨w, hw, -⟩ := ok.spanned
      cases hs.symm.trans (lowered.span_eq top hw)
      obtain ⟨lo, hi⟩ := ok.nested w c v hw (holds hold) span
      exact ⟨startAfter_le_iff.mpr lo, startAfter_le_iff.mpr hi⟩
  · rw [displaced.children]
    refine ok.ordered.imp_of_mem fun {a b} ha hb le s t hs ht => ?_
    obtain ⟨v, span, span'⟩ := child ha
    obtain ⟨w, there, there'⟩ := child hb
    cases hs.symm.trans span'
    cases ht.symm.trans there'
    exact startAfter_le_iff.mpr (le v w span there)
  · rw [lowered.text?_eq hj] at value
    obtain ⟨leaf, -, slice⟩ := ok.text t value
    refine ⟨(displaced.children j).trans leaf, fun slot => silent j t slot hj value, fun s hs => ?_⟩
    have proper : j ≠ root := by
      rintro rfl
      unfold text? at value
      rw [wf.root_kind] at value
      cases value
    obtain ⟨v, span, -⟩ := ok.spanned
    cases hs.symm.trans (lowered.span_eq proper span)
    refine lowered.weaves.slice? (slice v span) (lowered.text_free hj value span)
      (displaced.apart j v proper (fun empty => ?_) span)
    unfold text? at value
    rw [empty] at value
    cases value
  · rw [lowered.text?_eq (hj.child (holds hold))] at value
    rw [lowered.kind_eq hj]
    exact ok.texts c t (holds hold) value
  · rw [lowered.kind_eq hj] at markup
    obtain ⟨o, items, closing, layout⟩ := ok.layout markup
    have same : ∀ x, doc.Holds j x → doc'.kind x = doc.kind x ∧ doc'.span x ≠ none := by
      intro x hold
      obtain ⟨v, -, span'⟩ := child hold
      exact ⟨lowered.kind_eq (hj.child hold), by rw [span']; exact nofun⟩
    have held : ∀ x ∈ o :: (items ++ closing), doc.Holds j x := fun x mem => by
      unfold Holds
      rwa [layout.split]
    refine ⟨o, items, closing, (displaced.children j).trans layout.split, ?_, ?_, fun i mem => ?_⟩
    · obtain ⟨kind, span⟩ := same o (held o List.mem_cons_self)
      exact ⟨kind.trans layout.opening.1, span⟩
    · rcases layout.closing with none | ⟨c, rfl, kind, -⟩
      · exact .inl none
      · obtain ⟨kind', span⟩ := same c (held c (by simp))
        exact .inr ⟨c, rfl, kind'.trans kind, span⟩
    · rw [(same i (held i (by simp [mem]))).1]
      exact layout.items i mem

end Lowered

/-- A source with line comments put in, each above a target, and the documents that are read from the
two. -/
structure Reread (eol : LineEnding) (notes : List Grammar.Note) (source text : Text) (p p' : Program)
    (doc doc' : Document) : Prop where
  lowered : Lowered (notes.map (Note.row eol)) source text doc doc'
  wellFormed : doc.WellFormed source
  read : ofProgram (Source.of source) p = .ok doc
  read' : ofProgram (Source.of text) p' = .ok doc'
  passed : ∃ hi, Grammar.Passed source 0 hi p.remarks.reverse
  passed' : ∃ hi, Grammar.Passed text 0 hi p'.remarks.reverse
  regains : p.Regains eol notes p'

theorem span_fits_of_passed {t : Text} {rs : List Remark} {r : Remark}
    (passed : ∃ hi, Grammar.Passed t 0 hi rs.reverse) (mem : r ∈ rs) :
    ((Source.of t).span r.lo r.hi).Fits t ∧ r.lo < r.hi := by
  obtain ⟨hi, passed⟩ := passed
  have fits := (passed.fits r (List.mem_reverse.mpr mem)).1
  obtain ⟨start, stop, le⟩ := slice?_cuts fits
  exact ⟨span_fits le start stop, solid_of_fits fits⟩

theorem apart_of_passed {t : Text} {rs : List Remark} {r r' : Remark}
    (passed : ∃ hi, Grammar.Passed t 0 hi rs.reverse) (mem : r ∈ rs) (mem' : r' ∈ rs) :
    r = r' ∨ r.hi ≤ r'.lo ∨ r'.hi ≤ r.lo := by
  obtain ⟨hi, passed⟩ := passed
  have order : rs.Pairwise fun a b => a.hi ≤ b.lo := List.pairwise_reverse.mp passed.pairwise
  by_cases same : r = r'
  · exact .inl same
  · have symm : Std.Symm fun a b : Remark => a.hi ≤ b.lo ∨ b.hi ≤ a.lo := ⟨fun _ _ h => h.symm⟩
    have either : rs.Pairwise fun a b : Remark => a.hi ≤ b.lo ∨ b.hi ≤ a.lo :=
      order.imp fun le => .inl le
    exact .inr (either.forall mem mem' same)

namespace Reread

variable (again : Reread eol notes source text p p' doc doc')

include again

/-- Where the comment of a note stands in a document with the tree of the new one. -/
theorem between {tree : Document} (same : doc'.SameTree tree)
    (parent : ∀ j, tree.parent j = doc'.parent j) (mem : note ∈ notes)
    (opens : doc.OpensAt source note.lo line id q u) {r : Remark}
    (here : r = note.remark (notes.map (Note.row eol))) : ∃ A C,
      tree.Between q A (id :: C) ((Source.of text).span r.lo r.hi) ∧
        ∀ x ∈ A.getLast?, (tree.span x).map (·.endLine) ≠
          some ((Source.of text).span r.lo r.hi).startLine := by
  subst here
  have held : (note.lo, (note.row eol).2) ∈ notes.map (Note.row eol) := List.mem_map_of_mem mem
  have fits := row_fits held
  have size := note.size_lt eol
  refine (again.lowered.of_sameTree same parent).between_row again.wellFormed opens rfl ?_ ?_ rfl
  · show stopAfter _ note.lo < stopAfter _ note.lo + 2 + bytes note.body
    omega
  · show stopAfter _ note.lo + 2 + bytes note.body ≤ _
    omega

/-- It belongs to the target. -/
theorem owner_note (mem : note ∈ notes) (opens : doc.OpensAt source note.lo line id q u) {r : Remark}
    (here : r = note.remark (notes.map (Note.row eol))) :
    (doc'.owner ((Source.of text).span r.lo r.hi)).1 = id ∧
      (doc'.owner ((Source.of text).span r.lo r.hi)).2.1 = .leading := by
  obtain ⟨tree, planted, rfl⟩ := ofProgram_ok again.read'
  have same := sameTree_attachAll tree.sortChildren
    (p'.remarks.map fun r => ⟨r.kind, r.text, (Source.of text).span r.lo r.hi⟩)
  have links := (links_attachAll tree.sortChildren
    (p'.remarks.map fun r => ⟨r.kind, r.text, (Source.of text).span r.lo r.hi⟩)).2
  have silent := ((silent_new _ _).plantAll planted).sortChildren
  -- without its comments the new document is well-formed at once
  have back : Document.SameTree _ tree.sortChildren := same.symm
  have bare := (again.lowered.of_sameTree back fun j => (links j).symm).wellFormed again.wellFormed
    (fun j _ slot _ _ => silent j slot)
    (fun j _ slot c mem => absurd (silent j slot ▸ mem) List.not_mem_nil) (by
      rintro s t ⟨j, slot, c, -, mem, -⟩
      exact absurd (silent j slot ▸ mem) List.not_mem_nil)
  obtain ⟨A, C, between, apart⟩ := again.between back (fun j => (links j).symm) mem opens here
  rw [same.owner_eq]
  exact bare.sound.owner_front between apart

/-- A comment of the source belongs to the slot to which it has belonged. -/
theorem owner_old {r : Remark} (mem : r ∈ p.remarks) :
    ∃ j slot, doc.Reaches j ∧ (∃ c, c ∈ (doc.node j).comments slot) ∧
      (doc'.owner (Span.moved (notes.map (Note.row eol)) text ((Source.of source).span r.lo r.hi))).1 =
        j ∧
      (doc'.owner (Span.moved (notes.map (Note.row eol)) text
        ((Source.of source).span r.lo r.hi))).2.1 = slot := by
  have sound := again.wellFormed.sound
  obtain ⟨fits, solid⟩ := span_fits_of_passed again.passed mem
  have reached : doc.Reaches (doc.owner ((Source.of source).span r.lo r.hi)).1 := by
    have around := sound.reaches_around ((Source.of source).span r.lo r.hi)
    rcases doc.owner_spec ((Source.of source).span r.lo r.hi) with ⟨-, hold, -⟩ | ⟨same, -⟩
    · exact around.child hold
    · rwa [same]
  obtain ⟨c, held, -⟩ := comment_of_remark again.read (sound.reaches_lt reached) mem ⟨rfl, rfl⟩
  exact ⟨_, _, reached, ⟨c, held⟩,
    again.lowered.owner_moved again.wellFormed ⟨rfl, rfl⟩ held fits solid⟩

theorem wellFormed' : doc'.WellFormed text := by
  have sound := again.wellFormed.sound
  have valid : ∀ {j}, doc.Reaches j → j < doc'.nodes.size := fun hj =>
    again.lowered.displaced.size.symm ▸ sound.reaches_lt hj
  refine again.lowered.wellFormed again.wellFormed (fun j t slot hj value => ?_)
    (fun j hj slot c held => ?_) ?_
  · refine List.eq_nil_iff_forall_not_mem.mpr fun c held => ?_
    obtain ⟨r, stands, -, -, owner, slot_eq⟩ := remark_of_comment again.read' (valid hj) held
    rcases (again.regains.remarks r).mp stands with ⟨r, old, rfl⟩ | ⟨note, mem, here⟩
    · obtain ⟨i, slot', reached, ⟨c, has⟩, mine, -⟩ := again.owner_old old
      obtain rfl : j = i := owner.symm.trans mine
      rw [((again.wellFormed.each j reached).text t value).2.1 slot'] at has
      cases has
    · obtain ⟨line, id, q, u, opens⟩ := again.lowered.each _ (List.mem_map_of_mem mem)
      have mine := (again.owner_note mem opens here).1
      obtain rfl : j = id := owner.symm.trans mine
      rw [opens.aimed.token.solid] at value
      cases value
  · obtain ⟨r, stands, span, fresh, -⟩ := remark_of_comment again.read' (valid hj) held
    exact ⟨fresh, _, span, (span_fits_of_passed again.passed' stands).1⟩
  · rintro s t ⟨i, slot, c, hi, held, span⟩ ⟨j, slot', c', hj, held', span'⟩
    have old : ∀ {i}, doc'.Reaches i → doc.Reaches i :=
      (reaches_of_same again.lowered.displaced.children).mp
    obtain ⟨r, stands, there, -⟩ := remark_of_comment again.read' (valid (old hi)) held
    obtain ⟨r', stands', there', -⟩ := remark_of_comment again.read' (valid (old hj)) held'
    cases span.symm.trans there
    cases span'.symm.trans there'
    rcases apart_of_passed again.passed' stands stands' with rfl | apart
    · exact .inl rfl
    · exact .inr apart

/-- The comment of a note is the last one in front of the target. -/
theorem marked (mem : note ∈ notes) (opens : doc.OpensAt source note.lo line id q u) {rule : Text}
    (covers : ∀ c : Comment, c.kind = .line → c.text = note.body → c.Suppresses rule) :
    doc'.Marked rule (.node id (some q)) := by
  have displaced := again.lowered.displaced
  have owner := again.owner_note mem opens rfl
  have stands := (again.regains.remarks _).mpr (.inr ⟨note, mem, rfl⟩)
  have reached : doc'.Reaches id := (reaches_of_same displaced.children).mpr opens.reached
  have valid := again.wellFormed'.sound.reaches_lt reached
  obtain ⟨c, held, kind, body, span⟩ := comment_of_remark again.read' valid stands owner
  obtain ⟨A, C, between, apart⟩ := again.between (.refl doc') (fun _ => rfl) mem opens rfl
  refine .front ⟨id, .leading, c, reached, held, span, covers c kind body⟩ between apart
    fun e held t ht => ?_
  obtain ⟨r, stands, there, -, mine, front⟩ := remark_of_comment again.read' valid held
  cases ht.symm.trans there
  have solid := (span_fits_of_passed again.passed' stands).2
  have low : r.hi ≤ startAfter (notes.map (Note.row eol)) note.lo := by
    rcases doc'.owner_spec ((Source.of text).span r.lo r.hi) with
      ⟨t, -, span, ⟨-, le⟩ | ⟨trails, -⟩⟩ | ⟨-, inner⟩
    · rw [mine, again.lowered.span_eq opens.aimed.token.proper opens.aimed.span] at span
      cases span
      rw [← opens.here]
      exact le
    · cases front.symm.trans trails
    · cases front.symm.trans inner
  show r.lo ≤ stopAfter (notes.map (Note.row eol)) note.lo
  rcases (again.regains.remarks r).mp stands with ⟨o, old, rfl⟩ | ⟨n, -, rfl⟩
  · have before := (span_fits_of_passed again.passed old).2
    have behind := stopAfter_le_startAfter_iff.mp low
    exact Nat.le_of_lt (startAfter_lt_stopAfter (Nat.lt_of_lt_of_le before behind))
  · refine stopAfter_le_iff.mpr (Nat.le_of_not_lt fun lt => ?_)
    have : startAfter (notes.map (Note.row eol)) note.lo < stopAfter (notes.map (Note.row eol)) n.lo :=
      startAfter_lt_stopAfter lt
    have : stopAfter (notes.map (Note.row eol)) n.lo < startAfter (notes.map (Note.row eol)) note.lo :=
      Nat.lt_of_lt_of_le solid low
    omega

theorem filed : doc'.Filed := by
  obtain ⟨hi, passed⟩ := again.passed'
  have order : p'.remarks.Pairwise fun a b => a.hi ≤ b.lo := List.pairwise_reverse.mp passed.pairwise
  refine filed_ofProgram again.read' (order.imp_of_mem fun {a b} ha _ le => ?_) again.wellFormed'.sound
  exact Nat.lt_of_lt_of_le (span_fits_of_passed again.passed' ha).2 le

end Reread

/-- If line comments are put in above targets that start their lines, then what comes out is read. -/
theorem exists_reread {d : Dialect} (untyped : d.typed = false) (wf : doc.WellFormed source)
    (snug : doc.Snug source) (program : Program.read? d source = some p)
    (read : ofProgram (Source.of source) p = .ok doc)
    (weaves : Weaves (notes.map (Note.row eol)) 0 source text) (order : notes.Pairwise (·.lo < ·.lo))
    (fits : ∀ n ∈ notes, n.Fits source p)
    (opens : ∀ n ∈ notes, ∃ line id q u, doc.OpensAt source n.lo line id q u) :
    ∃ p' doc', Program.read? d text = some p' ∧ Reread eol notes source text p p' doc doc' := by
  obtain ⟨p', program', regains⟩ := Program.read?_notes untyped program weaves fits order
  have movable : ∀ t ∈ p.terms, t.All (Movable (notes.map (Note.row eol))) := by
    intro t mem
    refine (Term.all_forall t fun n : {n // n ∈ notes} =>
      regains.apart n.1 n.2 t mem).imp fun label lo hi free full r held same => ?_
    obtain ⟨n, inside, rfl⟩ := List.mem_map.mp held
    exact free ⟨n, inside⟩ full same.symm
  obtain ⟨doc', read', displaced⟩ := @exists_ofProgram_moved doc (Source.of source)
    (Source.of text) _ p p' weaves movable read regains.terms wf.linked wf.root_parent
  refine ⟨p', doc', program', ⟨⟨wf.sound, snug, weaves, displaced, fun r mem => ?_⟩, wf, read, read',
    (read?_sited program).2, (read?_sited program').2, regains⟩⟩
  obtain ⟨n, held, rfl⟩ := List.mem_map.mp mem
  exact opens n held

end Document
end Quell
