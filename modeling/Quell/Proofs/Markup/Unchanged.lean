import Quell.Proofs.Markup.Content
import Quell.Proofs.Source.Reading

/-!
Annotating and what markup shows.

Whatever is asked for, the children of an element stay and no character is lost but blank ones. The
blanks are kept, too, where the element is `Smooth`, given the texts that the run kept whole:
`annotate_content`. Otherwise a markup comment can part two lines of one text, and the space that
was shown between them is gone: `annotate_content_parted`.
-/
namespace Quell.Document

open Text Relation

section Places

variable {source : Text} {doc : Document} {kept : NodeId → Prop} {p : NodeId}
variable {A C F D : List NodeId} {indent : Text}

theorem Opens.not_level (opens : doc.Opens p A C) (split : A = F ++ D)
    (solid : ∀ b ∈ F.getLast?, doc.text? b = none) (texts : ∀ d ∈ D, doc.text? d ≠ none)
    (free : '\n' ∉ doc.headText D) (tag : D ≠ [] → ∀ b ∈ F.getLast?, doc.kind b = .openingTag)
    {s : Span} (span : doc.span (doc.anchor p F) = some s) : ¬ doc.Level s.startLine (D ++ C) := by
  obtain ⟨line, outer, above, G, t, R, u, rfl, on, start, lineOf⟩ := opens
  intro level
  have other : s.startLine ≠ line := by
    cases last : F.getLast? with
    | none =>
      have self : doc.anchor p F = p := by simp [anchor, last]
      exact outer s (self ▸ span)
    | some b =>
      by_cases opening : doc.kind b = .openingTag
      · have self : doc.anchor p F = p := by simp [anchor, last, opening]
        exact outer s (self ▸ span)
      · obtain rfl : D = [] := by
          by_contra ne
          exact opening (tag ne b last)
        have self : doc.anchor p F = b := by simp [anchor, last, opening]
        rw [List.append_nil] at split
        exact above b (split ▸ last) (solid b last) opening s (self ▸ span)
  have rest := level.behind texts free
  clear above
  induction G with
  | nil =>
    rw [List.nil_append, Level] at rest
    exact other ((rest.1 u start).symm.trans lineOf)
  | cons g G ih =>
    rw [List.cons_append, Level] at rest
    rcases (on g (by simp)).2 with ⟨v, value, free'⟩ | ⟨-, v, hv, same⟩
    · have next := rest.2
      rw [value] at next
      rcases next with breaks | next
      · exact free' breaks
      · exact ih (fun x hx => on x (by simp [hx])) (level.append next) next
    · exact other ((rest.1 v hv).symm.trans same)

theorem Settled.ends_line {t : Text} (settled : Settled t) (breaks : '\n' ∈ t)
    (plain : trailingIndent t = none) : ∃ b, t = b ++ ['\n'] := by
  unfold trailingIndent at plain
  cases found : splitLast? '\n' t with
  | none => exact absurd breaks (splitLast?_eq_none.mp found)
  | some x =>
    obtain ⟨b, run⟩ := x
    obtain ⟨rfl, -⟩ := splitLast?_eq_some found
    have blank := settled.blank_of_break breaks
    rw [← List.singleton_append, allBlank_append, allBlank_append, Bool.and_eq_true,
      Bool.and_eq_true] at blank
    rw [found] at plain
    simp only [blank.2.2, Bool.and_true, ite_eq_right_iff, reduceCtorEq, imp_false,
      Bool.not_eq_true, Bool.not_eq_false', List.isEmpty_iff] at plain
    exact ⟨b, by rw [plain]⟩

theorem SmoothOn.cutAt (smooth : doc.SmoothOn kept p (A ++ C)) (whole : ∀ y ∈ A, doc.Whole y)
    (blank : allBlank indent = true) (free : '\n' ∉ indent) (margin : doc.Margin A indent)
    (opens : doc.Opens p A C) (split : A = F ++ D)
    (solid : ∀ b ∈ F.getLast?, doc.text? b = none) (texts : ∀ d ∈ D, doc.text? d ≠ none) :
    ∃ a, doc.headText D = a ++ indent ∧ CutAt a indent (doc.headText C) := by
  obtain ⟨margins, row, front⟩ := smooth F (D ++ C) (by rw [split, List.append_assoc]) solid
  rw [headText_append texts] at margins row front
  have sides : ∀ b, doc.headText D = b ++ '\n' :: indent →
      layout b = true ∨ layout (doc.headText C) = true := by
    intro b head
    rcases row with row | lone
    · rw [head, List.append_assoc, List.cons_append, oneRow_break] at row
      rcases row with ⟨above, -⟩ | ⟨-, below⟩
      · exact .inl above
      · rw [layout_append, Bool.and_eq_true] at below
        exact .inr below.2
    · rcases (lone_append texts).mp lone with ⟨above, -⟩ | ⟨-, below⟩
      · rw [head, layout_append, Bool.and_eq_true] at above
        exact .inl above.1
      · exact .inr below
  have flush : '\n' ∉ doc.headText D → (D ≠ [] → ∀ b ∈ F.getLast?, doc.kind b = .openingTag) →
      Flush (doc.headText D ++ doc.headText C) := by
    intro free tag
    rcases front with flush | ⟨s, span, level⟩
    · exact flush
    · exact absurd level (opens.not_level split solid texts free tag span)
  rcases List.eq_nil_or_concat D with rfl | ⟨D, y, rfl⟩
  · rw [List.append_nil] at split
    subst split
    rcases margin with ⟨A', y, rfl, value, -, -⟩ | ⟨rfl, -⟩
    · have := solid y (by simp)
      rw [value] at this
      cases this
    · exact ⟨[], rfl, margins, blank, free, .inl ⟨rfl, flush nofun fun h => absurd rfl h⟩⟩
  · rw [List.concat_eq_append] at *
    have texts' : ∀ d ∈ D, doc.text? d ≠ none := fun d hd => texts d (by simp [hd])
    have head : ∀ t, doc.text? y = some t → doc.headText (D ++ [y]) = doc.headText D ++ t := by
      intro t value
      rw [headText_append texts', headText, value]
      simp [headText]
    rcases margin with ⟨A', z, last, value, -, behind⟩ | ⟨rfl, behind⟩
    · obtain ⟨rfl, e⟩ : A' = F ++ D ∧ [z] = [y] := by
        rw [split, ← List.append_assoc] at last
        exact List.append_inj' last.symm rfl
      obtain rfl : z = y := by simpa using e
      rw [head indent value] at margins flush sides ⊢
      refine ⟨doc.headText D, rfl, margins, blank, free, ?_⟩
      rcases List.eq_nil_or_concat D with rfl | ⟨D, b, rfl⟩
      · refine .inl ⟨rfl, flush (by simpa [headText] using free) fun _ b hb => ?_⟩
        rw [List.append_nil] at behind
        rcases behind b hb with h | ⟨⟨u, hu, -⟩, -⟩
        · exact h
        · rw [solid b hb] at hu
          cases hu
      · rw [List.concat_eq_append] at *
        have more : ∀ d ∈ D, doc.text? d ≠ none := fun d hd => texts' d (by simp [hd])
        rcases behind b (by rw [← List.append_assoc, List.getLast?_concat]; rfl) with
          h | ⟨⟨u, hu, ends⟩, -⟩
        · exact absurd h (plain_of_text
            (Option.ne_none_iff_exists'.mp (texts' b (by simp))).choose_spec).1
        · obtain ⟨w, rfl⟩ := List.getLast?_eq_some_iff.mp ends
          have ends : doc.headText (D ++ [b]) = doc.headText D ++ w ++ ['\n'] := by
            rw [headText_append more, headText, hu]
            simp [headText]
          exact .inr ⟨_, ends, sides _ (by rw [ends]; simp)⟩
    · obtain ⟨t, value⟩ := Option.ne_none_iff_exists'.mp (texts y (by simp))
      obtain ⟨breaks, plain⟩ := behind y
        (by rw [split, ← List.append_assoc, List.getLast?_concat]; rfl) t value
      obtain ⟨b, rfl⟩ := Settled.ends_line (whole y (by rw [split]; simp) t value) breaks plain
      rw [head _ value] at margins sides ⊢
      refine ⟨doc.headText D ++ (b ++ ['\n']), by simp, by simpa using margins, blank, free, .inr ?_⟩
      exact ⟨doc.headText D ++ b, by simp, sides _ (by simp)⟩

/-- A comment in front of the closing tag stands behind all text, which gets no more than
indentation. -/
theorem SmoothOn.unseen_last {first c : NodeId} {items : List NodeId} {indent : Option Text}
    (smooth : doc.SmoothOn kept p (first :: items ++ [c])) (opening : doc.text? first = none)
    (closing : doc.text? c = none) (run : trailingIndent (doc.tailText items.reverse) = indent) :
    doc.UnseenBetween (first :: items) [c] ((indent.map Press.indentUnit).getD [])
      (doc.eol.text ++ indent.getD []) := by
  intro F D split solid texts
  have none : doc.headText [c] = [] := by rw [headText, closing]
  have margins := (smooth F (D ++ [c]) (by rw [split, List.append_assoc]) solid).margins
  rw [headText_append texts, none] at margins
  have tail : doc.tailText items.reverse = doc.headText D := by
    rw [← tailText_concat opening, ← List.reverse_cons, split, tailText_reverse solid texts]
  rw [none]
  rw [tail] at run
  cases indent with
  | none =>
    rw [List.append_nil] at margins
    rw [Option.getD_none, List.append_nil]
    exact unseen_end margins doc.eol
  | some indent =>
    obtain ⟨b, head, -, blank, free⟩ := trailingIndent_eq_some run
    rw [head] at margins ⊢
    have cut : CutAt (b ++ ['\n']) indent [] := ⟨margins, blank, free, .inr ⟨b, rfl, .inr rfl⟩⟩
    refine cut.unseen_last ?_ doc.eol
    rw [Option.map_some, Option.getD_some]
    unfold Press.indentUnit
    split <;> decide

end Places

structure Counts (doc doc' : Document) (x : NodeId) : Prop where
  kind : doc'.kind x = doc.kind x
  span : doc'.span x = doc.span x
  slot : doc'.commentSlot x = doc.commentSlot x

theorem commentSlot_of_ne_hole {doc : Document} {x : NodeId} (h : doc.kind x ≠ .hole) :
    doc.commentSlot x = none := by
  unfold commentSlot
  split
  · rename_i kind _
    exact absurd kind h
  · rfl

structure Carries (doc doc' : Document) (kept : NodeId → Prop) (p : NodeId) : Prop where
  ink : inked (doc'.content p) = inked (doc.content p)
  smooth : doc.Smooth kept p → doc'.Smooth kept p
  content : doc.Smooth kept p → doc'.content p = doc.content p

theorem Carries.refl (doc : Document) (kept : NodeId → Prop) (p : NodeId) :
    doc.Carries doc kept p :=
  ⟨rfl, id, fun _ => rfl⟩

theorem Carries.trans {doc mid doc' : Document} {kept : NodeId → Prop} {p : NodeId}
    (h : doc.Carries mid kept p) (h' : mid.Carries doc' kept p) : doc.Carries doc' kept p where
  ink := h'.ink.trans h.ink
  smooth := h'.smooth ∘ h.smooth
  content := fun smooth => (h'.content (h.smooth smooth)).trans (h.content smooth)

section Congr

variable {doc doc' : Document} {kept : NodeId → Prop} {p : NodeId} {ids A C : List NodeId}
variable {line : Nat} {lead gap : Text}

theorem Counts.text? {x : NodeId} (h : doc.Counts doc' x) : doc'.text? x = doc.text? x := by
  unfold Document.text?
  rw [h.kind]

theorem headText_congr (same : ∀ x ∈ ids, doc.Counts doc' x) :
    doc'.headText ids = doc.headText ids := by
  induction ids with
  | nil => rfl
  | cons x ids ih =>
    rw [headText, headText, (same x (by simp)).text?, ih fun y hy => same y (by simp [hy])]

theorem contentFrom_congr (same : ∀ x ∈ ids, doc.Counts doc' x) (run : Text) :
    doc'.contentFrom run ids = doc.contentFrom run ids := by
  induction ids generalizing run with
  | nil => rfl
  | cons x ids ih =>
    have rest : ∀ y ∈ ids, doc.Counts doc' y := fun y hy => same y (by simp [hy])
    unfold contentFrom mark
    rw [(same x (by simp)).text?, (same x (by simp)).slot, ih rest []]
    cases doc.text? x with
    | none => rfl
    | some t => exact ih rest _

theorem Level.congr (same : ∀ x ∈ ids, doc.Counts doc' x) (level : doc.Level line ids) :
    doc'.Level line ids := by
  induction ids with
  | nil => trivial
  | cons x ids ih =>
    rw [Level] at level ⊢
    rw [(same x (by simp)).span, (same x (by simp)).text?]
    refine ⟨level.1, ?_⟩
    have rest := level.2
    cases value : doc.text? x with
    | none => trivial
    | some t =>
      rw [value] at rest
      exact rest.imp_right (ih fun y hy => same y (by simp [hy]))

theorem Lone.congr (same : ∀ x ∈ ids, doc.Counts doc' x) (lone : doc.Lone kept ids) :
    doc'.Lone kept ids := by
  induction ids with
  | nil => exact lone
  | cons x ids ih =>
    have rest : ∀ y ∈ ids, doc.Counts doc' y := fun y hy => same y (by simp [hy])
    rw [Lone] at lone ⊢
    rw [(same x (by simp)).text?, headText_congr rest]
    cases value : doc.text? x with
    | none => simp [value] at lone
    | some t =>
      rw [value] at lone
      exact lone.imp_left fun h => ⟨h.1, ih rest h.2⟩

theorem SmoothOn.congr (self : doc.Counts doc' p) (same : ∀ x ∈ ids, doc.Counts doc' x)
    (smooth : doc.SmoothOn kept p ids) : doc'.SmoothOn kept p ids := by
  rintro A B rfl solid
  have front : ∀ b ∈ A, doc.Counts doc' b := fun b hb => same b (by simp [hb])
  have back : ∀ b ∈ B, doc.Counts doc' b := fun b hb => same b (by simp [hb])
  have anchored : doc'.anchor p A = doc.anchor p A ∧ doc.Counts doc' (doc.anchor p A) := by
    unfold anchor
    cases last : A.getLast? with
    | none => exact ⟨rfl, self⟩
    | some b =>
      have mem := List.mem_of_getLast? last
      dsimp only
      rw [(front b mem).kind]
      exact ⟨rfl, by split <;> [exact self; exact front b mem]⟩
  obtain ⟨margins, row, start⟩ := smooth A B rfl fun b hb =>
    ((front b (List.mem_of_getLast? hb)).text?).symm.trans (solid b hb)
  refine ⟨by rwa [headText_congr back], ?_, ?_⟩
  · rw [headText_congr back]
    exact row.imp_right fun lone => lone.congr back
  · rw [headText_congr back, anchored.1, anchored.2.span]
    exact start.imp_right fun ⟨s, hs, level⟩ => ⟨s, hs, level.congr back⟩

theorem UnseenBetween.congr (front : ∀ x ∈ A, doc.Counts doc' x) (back : ∀ x ∈ C, doc.Counts doc' x)
    (unseen : doc.UnseenBetween A C lead gap) : doc'.UnseenBetween A C lead gap := by
  rintro F D rfl solid texts
  have here : ∀ x ∈ D, doc.Counts doc' x := fun x hx => front x (by simp [hx])
  rw [headText_congr here, headText_congr back]
  refine unseen F D rfl (fun b hb => ?_) fun d hd => ?_
  · rw [← (front b (by simp [List.mem_of_getLast? hb])).text?]
    exact solid b hb
  · rw [← (here d hd).text?]
    exact texts d hd

end Congr

def inkAt (doc : Document) (x : NodeId) : Content :=
  match doc.text? x with
  | some t => (ink t).map .inl
  | none => doc.mark x

section Ink

variable {doc : Document} {x : NodeId}

theorem inked_append (a b : Content) : inked (a ++ b) = inked a ++ inked b := List.filter_append ..

theorem inked_shown (t : Text) : inked (shown t) = (ink t).map .inl := by
  unfold inked shown
  rw [List.filter_map, ← ink_clean]
  rfl

theorem inked_mark (doc : Document) (x : NodeId) : inked (doc.mark x) = doc.mark x := by
  unfold mark
  split <;> rfl

theorem inked_contentFrom (run : Text) (ids : List NodeId) :
    inked (doc.contentFrom run ids) = (ink run).map .inl ++ ids.flatMap doc.inkAt := by
  induction ids generalizing run with
  | nil => rw [contentFrom, inked_shown, List.flatMap_nil, List.append_nil]
  | cons x ids ih =>
    rw [contentFrom, List.flatMap_cons, inkAt]
    cases doc.text? x with
    | none =>
      dsimp only
      rw [inked_append, inked_append, inked_shown, inked_mark, ih, List.append_assoc]
      rfl
    | some t =>
      dsimp only
      rw [ih, ink_append, List.map_append, List.append_assoc]

theorem inkAt_text {t : Text} (value : doc.text? x = some t) : doc.inkAt x = (ink t).map .inl := by
  unfold inkAt
  rw [value]

theorem Pieces.inkAt_eq {line : Nat} {ts : List Text} {ns : List NodeId}
    (pieces : doc.Pieces line ts ns) : ns.flatMap doc.inkAt = (ink ts.flatten).map .inl := by
  induction pieces with
  | nil => rfl
  | cons value _ _ ih =>
    rw [List.flatMap_cons, List.flatten_cons, ink_append, List.map_append, inkAt_text value, ih]

theorem NoteAt.inkAt_eq {U : List NodeId} {h g : NodeId} {lead gap : Text}
    (note : doc.NoteAt U h g lead gap) (blank : allBlank lead = true) (blank' : allBlank gap = true) :
    (U ++ [h, g]).flatMap doc.inkAt = [] := by
  have hole : doc.inkAt h = [] := by
    unfold inkAt
    rw [note.hole]
    exact note.slot
  have behind : doc.inkAt g = [] := by rw [inkAt_text note.gap, ink_of_blank blank']; rfl
  have front : ∀ V : List NodeId, (∀ u ∈ V, doc.text? u ≠ none) → allBlank (doc.headText V) = true →
      V.flatMap doc.inkAt = [] := by
    intro V
    induction V with
    | nil => exact fun _ _ => rfl
    | cons u V ih =>
      intro texts blank
      obtain ⟨t, value⟩ := Option.ne_none_iff_exists'.mp (texts u (by simp))
      rw [headText, value] at blank
      dsimp only at blank
      rw [allBlank_append, Bool.and_eq_true] at blank
      rw [List.flatMap_cons, inkAt_text value, ink_of_blank blank.1,
        ih (fun v hv => texts v (by simp [hv])) blank.2]
      rfl
  rw [List.flatMap_append, front U note.texts (note.lead.symm ▸ blank), List.flatMap_cons,
    List.flatMap_cons, hole, behind]
  rfl

end Ink

section Edits

variable {source : Text} {doc doc' fin : Document} {o : AnnotateOptions} {rule : Text}
variable {kept : NodeId → Prop} {q : NodeId}

theorem Edit.counts (edit : Edit o rule doc doc') (sound : doc.Sound source) {x : NodeId}
    (lt : x < doc.nodes.size) : doc.Counts doc' x := by
  have frame := (edit.frame sound).1
  obtain ⟨kind, span⟩ := frame.same x lt
  refine ⟨kind, span, ?_⟩
  by_cases hole : doc.kind x = .hole
  · refine commentSlot_congr kind (edit.children_eq sound lt ?_ ?_) fun c hold =>
      (frame.same c (sound.linked.child_lt hold)).1
    · rw [hole]
      exact nofun
    · rw [hole]
      rfl
  · rw [commentSlot_of_ne_hole hole, commentSlot_of_ne_hole (by rwa [kind])]

theorem Carries.of_children {ids : List NodeId} (self : doc.Counts doc' q)
    (old : ∀ x ∈ doc.children q, doc.Counts doc' x) (kids : doc'.children q = ids)
    (ink : ids.flatMap doc'.inkAt = (doc.children q).flatMap doc'.inkAt)
    (step : doc.Smooth kept q → doc'.SmoothOn kept q (doc.children q) →
      doc'.SmoothOn kept q ids ∧
        doc'.contentFrom [] ids = doc'.contentFrom [] (doc.children q)) :
    doc.Carries doc' kept q where
  ink := by
    unfold Document.content
    rw [kids, ← contentFrom_congr old, inked_contentFrom, inked_contentFrom, ink]
  smooth := by
    intro smooth
    unfold Smooth
    rw [kids]
    exact (step smooth (smooth.congr self old)).1
  content := by
    intro smooth
    unfold Document.content
    rw [kids, ← contentFrom_congr old]
    exact (step smooth (smooth.congr self old)).2

theorem Carries.of_same (self : doc.Counts doc' q) (old : ∀ x ∈ doc.children q, doc.Counts doc' x)
    (kids : doc'.children q = doc.children q) : doc.Carries doc' kept q :=
  .of_children self old kids rfl fun _ smooth => ⟨smooth, rfl⟩

theorem Noted.noteAt {p : NodeId} {A C : List NodeId} {lead : Option Text} {body gap : Text}
    (noted : doc.Noted doc' p A C lead body gap) :
    ∃ U g, noteIds doc.nodes.size lead = U ++ [doc.nodes.size, g] ∧
      doc'.NoteAt U doc.nodes.size g (lead.getD []) gap := by
  have hole : doc'.text? doc.nodes.size = none := by
    unfold text? kind
    rw [noted.hole]
    rfl
  have found : doc'.commentSlot doc.nodes.size = some (doc.nodes.size + 1) := by
    unfold commentSlot kind children
    rw [noted.hole]
    dsimp only
    rw [noted.slot]
    rfl
  have slot : doc'.mark doc.nodes.size = [] := by
    unfold mark
    rw [found]
    rfl
  have span := span_of_node noted.hole
  have behind := text?_of_node noted.behind rfl
  cases lead with
  | none => exact ⟨[], doc.nodes.size + 2, rfl, nofun, rfl, by simpa using span, hole, slot, behind⟩
  | some u =>
    have front := noted.front u rfl
    have value := text?_of_node front rfl
    refine ⟨[doc.nodes.size + 2], doc.nodes.size + 3, rfl, ?_, ?_, ?_, hole, slot, behind⟩
    · intro v hv
      rw [List.mem_singleton.mp hv, value]
      exact nofun
    · rw [headText, value]
      simp [headText]
    · intro v hv
      rcases List.mem_pair.mp hv with rfl | rfl
      · exact span_of_node front
      · exact span

theorem Noted.carries {p : NodeId} {A C : List NodeId} {lead : Option Text} {body gap : Text}
    (noted : doc.Noted doc' p A C lead body gap) (self : doc.Counts doc' p)
    (old : ∀ x ∈ doc.children p, doc.Counts doc' x) (blank : allBlank (lead.getD []) = true)
    (blank' : allBlank gap = true)
    (unseen : doc.Smooth kept p → doc.UnseenBetween A C (lead.getD []) gap) :
    doc.Carries doc' kept p := by
  obtain ⟨U, g, ids, note⟩ := noted.noteAt
  have split : doc.children p = A ++ C := by
    rw [noted.splice.split, List.append_nil]
  have kids := noted.splice.children_here
  rw [ids] at kids
  rw [split] at old
  refine .of_children self (split ▸ old) kids ?_ fun smooth smooth' => ?_
  · have none := note.inkAt_eq blank blank'
    simp only [split, List.flatMap_append] at none ⊢
    rw [none, List.append_nil]
  · rw [split] at smooth' ⊢
    have unseen' := (unseen smooth).congr (fun x hx => old x (by simp [hx]))
      fun x hx => old x (by simp [hx])
    exact ⟨smooth'.note note unseen', note.content_eq unseen'⟩

theorem Recut.carries {p id : NodeId} {A C : List NodeId} {parts : List Text} {s : Span}
    (recut : doc.Recut doc' p A id C parts) (span : doc.span id = some s) (gone : ¬ kept id)
    (self : doc.Counts doc' p) (old : ∀ x ∈ doc.children p, doc.Counts doc' x) :
    doc.Carries doc' kept p := by
  have split := recut.splice.split
  have cut := old id (by rw [split]; simp)
  have value : doc'.text? id = some parts.flatten := cut.text?.trans recut.value
  have pieces := recut.pieces span
  refine .of_children self old recut.splice.children_here ?_ fun _ smooth => ?_
  · rw [split, List.flatMap_append, List.flatMap_append, List.flatMap_append, List.flatMap_append,
      pieces.inkAt_eq, List.flatMap_singleton, inkAt_text value]
  · rw [split] at smooth ⊢
    exact ⟨smooth.cut pieces value ⟨s, cut.span.trans span, rfl⟩ gone,
      contentFrom_cut pieces value [] A C⟩

theorem Edit.carries (edit : Edit o rule doc doc') (sound : doc.Sound source)
    (reached : doc.Reaches q) (markup : (doc.kind q).hasMarkupChildren = true)
    (stay : ∀ x, doc.Holds q x → kept x → doc'.Holds q x) : doc.Carries doc' kept q := by
  have valid := sound.reaches_lt reached
  have self := edit.counts sound valid
  have old : ∀ x ∈ doc.children q, doc.Counts doc' x := fun x hx =>
    edit.counts sound (sound.linked.child_lt hx)
  cases edit with
  | extend => exact .of_same self old (tree_setComments q).2.2.1
  | beside =>
    rw [appendComment_eq] at self old ⊢
    exact .of_same self old (tree_setComments q).2.2.1
  | behind =>
    rw [appendComment_eq] at self old ⊢
    exact .of_same self old (tree_setComments q).2.2.1
  | @fill block above kind =>
    refine .of_same self old ((addPlaceholder_spec (sound.reaches_lt above)).1.children_rest valid ?_)
    rintro rfl
    rw [kind] at markup
    cases markup
  | @cut _ p id _ _ _ _ _ _ span _ recut =>
    by_cases here : q = p
    · subst here
      have hold : doc.Holds q id := recut.splice.holds_of_mem (by simp)
      refine recut.carries span (fun whole => ?_) self old
      exact ((recut.splice.holds_old sound.linked valid (sound.linked.child_lt hold)).mp
        (stay id hold whole)).2 (by simp)
    · exact .of_same self old (recut.splice.children_rest valid here)
  | @among _ p x A C indent _ _ _ _ whole blank free margin noted opens =>
    by_cases here : q = p
    · subst here
      have gap : allBlank (doc.eol.text ++ indent) = true := by
        rw [allBlank_append, LineEnding.allBlank_text, blank]
        rfl
      refine noted.carries self old rfl gap fun smooth F D split solid texts => ?_
      unfold Smooth at smooth
      rw [noted.splice.split, List.append_nil] at smooth
      obtain ⟨a, head, cut⟩ := smooth.cutAt whole blank free margin opens split solid texts
      rw [head]
      exact cut.unseen doc.eol
    · exact .of_same self old (noted.splice.children_rest valid here)
  | @last _ p first c items indent _ _ layout _ run noted =>
    by_cases here : q = p
    · subst here
      obtain ⟨blank, blank'⟩ : allBlank ((indent.map Press.indentUnit).getD []) = true ∧
          allBlank (doc.eol.text ++ indent.getD []) = true := by
        rw [allBlank_append, LineEnding.allBlank_text]
        cases indent with
        | none => exact ⟨rfl, rfl⟩
        | some indent =>
          obtain ⟨-, -, -, blank, -⟩ := trailingIndent_eq_some run
          exact ⟨(indentUnit_spec indent).2.1, by simpa using blank⟩
      refine noted.carries self old blank blank' fun smooth => ?_
      unfold Smooth at smooth
      rw [noted.splice.split, List.append_nil] at smooth
      obtain ⟨e, found, kind, -⟩ := layout.closing.resolve_left nofun
      cases found
      refine smooth.unseen_last ?_ ?_ run
      · unfold text?
        rw [layout.opening.1]
        rfl
      · unfold text?
        rw [kind]
        rfl
    · exact .of_same self old (noted.splice.children_rest valid here)

structure Tracks (doc fin : Document) (q : NodeId) : Prop where
  back : ∀ x < doc.nodes.size, fin.Holds q x → doc.Holds q x
  reached : fin.Reaches q
  carries : doc.Carries fin (fin.Holds q) q

theorem Edit.tracks (edit : Edit o rule doc doc') (sound : doc.Sound source)
    (reached : doc.Reaches q) (markup : (doc.kind q).hasMarkupChildren = true)
    (tracks : doc'.Tracks fin q) : doc.Tracks fin q := by
  have grows := (edit.frame sound).1.grows
  refine ⟨fun x lt hold => ?_, tracks.reached, ?_⟩
  · exact edit.holds_old sound lt
      (tracks.back x (Nat.lt_of_lt_of_le lt grows) hold)
  · refine (edit.carries sound reached markup fun x hold whole => ?_).trans tracks.carries
    exact tracks.back x (Nat.lt_of_lt_of_le (sound.linked.child_lt hold) grows) whole

theorem Edits.tracks (edits : Edits o rule doc doc') (sound : doc.Sound source)
    (reached : doc.Reaches q) (markup : (doc.kind q).hasMarkupChildren = true)
    (tracks : doc'.Tracks fin q) : doc.Tracks fin q := by
  -- From the last edit back: what is kept is known at the end of the run only.
  induction edits using ReflTransGen.head_induction_on with
  | refl => exact tracks
  | @head doc mid edit _ ih =>
    have frame := (edit.frame sound).1
    have valid := sound.reaches_lt reached
    refine edit.tracks sound reached markup (ih (edit.sound sound) ?_ ?_)
    · exact frame.kept q valid reached (text?_of_markup markup)
    · rw [(frame.same q valid).1]
      exact markup

theorem annotateFrom_tracks (sound : doc.Sound source) (ds : List Diagnostic) (summary : Summary) :
    ∃ fin summary', doc.annotateFrom o summary ds = .ok (fin, summary') ∧
      ∀ q, doc.Reaches q → (doc.kind q).hasMarkupChildren = true → doc.Tracks fin q := by
  induction ds generalizing doc summary with
  | nil =>
    exact ⟨doc, summary, rfl, fun q reached _ => ⟨fun _ _ => id, reached, .refl doc _ q⟩⟩
  | cons d ds ih =>
    rw [annotateFrom]
    cases d.actionableRule with
    | none => exact ih sound summary
    | some rule =>
      dsimp only
      split
      next =>
        obtain ⟨mid, r, result, call⟩ := annotateOne_ok sound o d.line rule
        have edits := (call.settles sound).edits
        have frame := Edits.frame edits sound
        obtain ⟨fin, summary', rest, each⟩ :=
          ih (Edits.sound edits sound) (summary.record d.line rule r)
        refine ⟨fin, summary', by rw [result]; exact rest, fun q reached markup => ?_⟩
        have valid := sound.reaches_lt reached
        refine Edits.tracks edits sound reached markup (each q ?_ ?_)
        · exact frame.kept q valid reached (text?_of_markup markup)
        · rw [(frame.same q valid).1]
          exact markup
      next => exact ih sound summary

end Edits

/-- Annotating leaves the children of every element and fragment, and all that its texts show but
blanks. It leaves the blanks, too, where nothing is seen of the cuts in texts that were not kept. -/
theorem annotate_content {source : Text} {doc : Document} (wf : doc.WellFormed source)
    (o : AnnotateOptions) (ds : List Diagnostic) :
    ∃ doc' summary, doc.annotate o ds = .ok (doc', summary) ∧
      ∀ p, doc.Reaches p → (doc.kind p).hasMarkupChildren = true →
        doc'.Reaches p ∧ inked (doc'.content p) = inked (doc.content p) ∧
          (doc.Smooth (doc'.Holds p) p → doc'.content p = doc.content p) := by
  obtain ⟨doc', summary, result, each⟩ := annotateFrom_tracks (o := o) wf.sound ds {}
  refine ⟨doc', summary, result, fun p reached markup => ?_⟩
  have tracks := each p reached markup
  exact ⟨tracks.reached, tracks.carries.ink, tracks.carries.content⟩

/-- Words on a line with an element, so that spaces between them are shown, and words on two lines in
front of a closing tag. -/
def proseSource : Text := "<a>\n  x <b/> y\n  <c>\n    u\n    v\n  </c>\n</a>".toList

def proseSample : Document where
  nodes := #[
    { kind := .program, span := some ⟨0, 44, 1, 7⟩, children := [1] },
    { kind := .statement, span := some ⟨0, 44, 1, 7⟩, parent := some 0, children := [2] },
    { kind := .element, span := some ⟨0, 44, 1, 7⟩, parent := some 1
      children := [3, 4, 5, 7, 8, 12, 13] },
    { kind := .openingTag, span := some ⟨0, 3, 1, 1⟩, parent := some 2 },
    { kind := .text "\n  x ".toList, span := some ⟨3, 8, 1, 2⟩, parent := some 2 },
    { kind := .element, span := some ⟨8, 12, 2, 2⟩, parent := some 2, children := [6] },
    { kind := .openingTag, span := some ⟨8, 12, 2, 2⟩, parent := some 5 },
    { kind := .text " y\n  ".toList, span := some ⟨12, 17, 2, 3⟩, parent := some 2 },
    { kind := .element, span := some ⟨17, 39, 3, 6⟩, parent := some 2, children := [9, 10, 11] },
    { kind := .openingTag, span := some ⟨17, 20, 3, 3⟩, parent := some 8 },
    { kind := .text "\n    u\n    v\n  ".toList, span := some ⟨20, 35, 3, 6⟩, parent := some 8 },
    { kind := .closingTag, span := some ⟨35, 39, 6, 6⟩, parent := some 8 },
    { kind := .text "\n".toList, span := some ⟨39, 40, 6, 7⟩, parent := some 2 },
    { kind := .closingTag, span := some ⟨40, 44, 7, 7⟩, parent := some 2 }]

set_option maxRecDepth 100000 in
/-- Four directives come in. The spaces around the first element are still shown, and so is the one
between the words on two lines, which are not parted by the directive behind them. -/
theorem annotate_content_prose : read? "a.jsx".toList proseSource = .ok (some proseSample) ∧
    proseSample.WellFormed proseSource ∧
    proseSample.Smooth (fun _ => False) 2 ∧ proseSample.Smooth (· = 10) 8 ∧
    ∃ doc' summary, proseSample.annotate briefOptions
        [complaint 2 'r', complaint 3 'r', complaint 6 'r', complaint 7 'r'] = .ok (doc', summary) ∧
      summary.inserted = 4 ∧ doc'.Holds 8 10 ∧
      doc'.content 2 =
        [.inr 3, .inl 'x', .inl ' ', .inr 5, .inl ' ', .inl 'y', .inr 8, .inr 13] ∧
      doc'.content 8 = [.inr 9, .inl 'u', .inl ' ', .inl 'v', .inr 11] := by
  have read : read? "a.jsx".toList proseSource = .ok (some proseSample) := by
    apply read?_of_inOrder
    unfold proseSample proseSource
    simp only [String.reduceToList]
    decide +kernel
  have wf : proseSample.WellFormed proseSource := wellFormed_of_reads (by decide)
  have cut : proseSample.Smooth (fun _ => False) 2 := by decide
  have whole : proseSample.Smooth (· = 10) 8 := by decide
  have outer : proseSample.Reaches 2 :=
    (ReflTransGen.single (show 1 ∈ proseSample.children root by decide)).tail
      (show 2 ∈ proseSample.children 1 by decide)
  have inner : proseSample.Reaches 8 := outer.tail (show 8 ∈ proseSample.children 2 by decide)
  obtain ⟨doc', summary, result, each⟩ := annotate_content wf briefOptions
    [complaint 2 'r', complaint 3 'r', complaint 6 'r', complaint 7 'r']
  have found : (proseSample.annotate briefOptions
      [complaint 2 'r', complaint 3 'r', complaint 6 'r', complaint 7 'r']).toOption.map
        (fun x => (x.2.inserted, decide (10 ∈ x.1.children 8))) = some (4, true) := by
    decide +kernel
  rw [result] at found
  obtain ⟨count, stays⟩ := Prod.mk.inj (Option.some.inj found)
  have hold : doc'.Holds 8 10 := (decide_eq_true_iff (p := 10 ∈ doc'.children 8)).mp stays
  refine ⟨read, wf, cut, whole, doc', summary, result, count, hold, ?_, ?_⟩
  · rw [(each 2 outer rfl).2.2 (cut.mono nofun)]
    decide
  · rw [(each 8 inner rfl).2.2 (whole.mono fun x hx => hx ▸ hold)]
    decide

/-- Words on two lines of one text. -/
def partedSource : Text := "<a>\n  b\n  c \x7bd\x7d\n</a>".toList

def partedSample : Document where
  nodes := #[
    { kind := .program, span := some ⟨0, 20, 1, 4⟩, children := [1] },
    { kind := .statement, span := some ⟨0, 20, 1, 4⟩, parent := some 0, children := [2] },
    { kind := .element, span := some ⟨0, 20, 1, 4⟩, parent := some 1, children := [3, 4, 5, 7, 8] },
    { kind := .openingTag, span := some ⟨0, 3, 1, 1⟩, parent := some 2 },
    { kind := .text "\n  b\n  c ".toList, span := some ⟨3, 12, 1, 3⟩, parent := some 2 },
    { kind := .hole, span := some ⟨12, 15, 3, 3⟩, parent := some 2, children := [6] },
    { kind := .expression, span := some ⟨13, 14, 3, 3⟩, parent := some 5 },
    { kind := .text "\n".toList, span := some ⟨15, 16, 3, 4⟩, parent := some 2 },
    { kind := .closingTag, span := some ⟨16, 20, 4, 4⟩, parent := some 2 }]

set_option maxRecDepth 100000 in
/-- The directive for the second line of the words parts them, and the space between them is no
longer shown. -/
theorem annotate_content_parted : read? "a.jsx".toList partedSource = .ok (some partedSample) ∧
    partedSample.WellFormed partedSource ∧ partedSample.Reaches 2 ∧
    ∃ doc' summary,
      partedSample.annotate briefOptions [complaint 3 'r'] = .ok (doc', summary) ∧
      partedSample.content 2 =
        [.inr 3, .inl 'b', .inl ' ', .inl 'c', .inl ' ', .inr 5, .inr 8] ∧
      doc'.content 2 = [.inr 3, .inl 'b', .inl 'c', .inl ' ', .inr 5, .inr 8] := by
  have read : read? "a.jsx".toList partedSource = .ok (some partedSample) := by
    apply read?_of_inOrder
    unfold partedSample partedSource
    simp only [String.reduceToList]
    decide +kernel
  have wf : partedSample.WellFormed partedSource := wellFormed_of_reads (by decide)
  have reached : partedSample.Reaches 2 :=
    (ReflTransGen.single (show 1 ∈ partedSample.children root by decide)).tail
      (show 2 ∈ partedSample.children 1 by decide)
  have lost : ((partedSample.annotate briefOptions [complaint 3 'r']).toOption.map
      (·.1.content 2)) = some [.inr 3, .inl 'b', .inl 'c', .inl ' ', .inr 5, .inr 8] := by
    decide +kernel
  obtain ⟨doc', summary, result, -⟩ := annotateFrom_tracks (o := briefOptions) wf.sound
    [complaint 3 'r'] {}
  refine ⟨read, wf, reached, doc', summary, result, by decide, ?_⟩
  unfold annotate at lost
  rw [result] at lost
  exact Option.some.inj lost

end Quell.Document
