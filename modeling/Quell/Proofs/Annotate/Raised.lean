import Quell.Proofs.Annotate.Above
import Quell.Proofs.Print.Seam
import Quell.Proofs.Source.Reading

/-!
The line that a new directive takes, wherever its target stands.

Outside of elements the printer makes the line; among the children of an element a markup comment
brings its own line break along, and the indentation behind it is read off the texts in front. Where
only spaces and tabs stand in front of the comment in its line of the source, these texts end in a
line feed and that indentation (`Woven.tail_row`). So a new directive has a line above its target,
and in a target's own line that is all that changes: `annotateOne_raises`.
-/
namespace Quell

open Text Relation

namespace OnlyBlanks

variable {source t : Text} {lo hi : Nat}

theorem not_ink (blanks : OnlyBlanks source hi) (ink : InkBefore source hi) : False := by
  obtain ⟨a, b, split, rfl, run⟩ := blanks
  obtain ⟨x, y, split', same, seen⟩ := ink
  cases (append_inj_bytes (split'.symm.trans split) same).1
  rw [run.allBlank] at seen
  cases seen

theorem of_break (blanks : OnlyBlanks source hi) (slice : slice? lo hi source = some t)
    (breaks : '\n' ∈ t) : Run (lastLine t) := by
  obtain ⟨a, b, split, rfl, run⟩ := blanks
  obtain ⟨x, y, split', rfl, same⟩ := slice?_eq_some.mp slice
  rw [← bytes_append] at same
  cases (append_inj_bytes (split'.symm.trans split) same).1
  rwa [lastLine_append breaks] at run

theorem of_free (blanks : OnlyBlanks source hi) (slice : slice? lo hi source = some t)
    (free : '\n' ∉ t) : OnlyBlanks source lo ∧ Run t := by
  obtain ⟨a, b, split, rfl, run⟩ := blanks
  obtain ⟨x, y, split', rfl, same⟩ := slice?_eq_some.mp slice
  rw [← bytes_append] at same
  cases (append_inj_bytes (split'.symm.trans split) same).1
  rw [lastLine_append_free free] at run
  refine ⟨⟨x, t ++ b, by rw [split, List.append_assoc], rfl, fun c hc => ?_⟩, fun c hc => ?_⟩
  · exact run c (List.mem_append_left t hc)
  · exact run c (List.mem_append_right _ hc)

end OnlyBlanks

def EndsIn (t indent : Text) : Prop :=
  (∃ z, t = z ++ ['\n'] ++ indent) ∧ allBlank indent = true ∧ '\n' ∉ indent

namespace EndsIn

variable {t u indent : Text}

theorem lastLine_eq (h : EndsIn t indent) : lastLine t = indent := by
  obtain ⟨⟨z, rfl⟩, -, free⟩ := h
  exact Text.lastLine_eq (.inr ⟨z, rfl⟩) free

theorem breaks (h : EndsIn t indent) : '\n' ∈ t := by
  obtain ⟨⟨z, rfl⟩, -⟩ := h
  simp

theorem of_lastLine (breaks : '\n' ∈ t) (blank : allBlank (lastLine t) = true) :
    EndsIn t (lastLine t) := by
  obtain ⟨a, split, free, start⟩ := lastLine_spec t
  refine ⟨?_, blank, free⟩
  rcases start with rfl | ⟨z, rfl⟩
  · rw [List.nil_append] at split
    rw [split] at breaks
    exact absurd breaks free
  · exact ⟨z, split⟩

/-- What stands in front does not matter. -/
theorem under (h : EndsIn t indent) (front : Text) : EndsIn (front ++ t) indent := by
  obtain ⟨⟨z, rfl⟩, rest⟩ := h
  exact ⟨⟨front ++ z, by simp only [List.append_assoc]⟩, rest⟩

theorem append (h : EndsIn t indent) (run : Run u) : EndsIn (t ++ u) (indent ++ u) := by
  obtain ⟨⟨z, rfl⟩, blank, free⟩ := h
  refine ⟨⟨z, by simp only [List.append_assoc]⟩, ?_, ?_⟩
  · rw [allBlank_append, blank, run.allBlank]
    rfl
  · rw [List.mem_append, not_or]
    exact ⟨free, fun mem => nomatch run '\n' mem⟩

theorem trailingIndent_eq (h : EndsIn t indent) :
    Document.trailingIndent t = if indent = [] then none else some indent := by
  have line := h.lastLine_eq
  have breaks := h.breaks
  obtain ⟨-, blank, -⟩ := h
  unfold Document.trailingIndent
  cases found : splitLast? '\n' t with
  | none => exact absurd breaks (splitLast?_eq_none.mp found)
  | some x =>
    obtain ⟨z, last⟩ := x
    unfold lastLine at line
    rw [found] at line
    obtain rfl : last = indent := line
    dsimp only
    rw [blank, Bool.and_true]
    cases last <;> rfl

end EndsIn

namespace Document

variable {source : Text} {doc doc' : Document} {o : AnnotateOptions} {rule : Text} {line : Nat}
variable {p target : NodeId} {lo n : Nat}

theorem Gap.endsIn {b : NodeId} (gap : doc.Gap b) :
    ∃ t indent, doc.text? b = some t ∧ EndsIn t indent := by
  obtain ⟨indent, text, blank, free⟩ := gap.text?_eq
  refine ⟨_, indent, text, ?_, blank, free⟩
  cases doc.eol with
  | lf => exact ⟨[], rfl⟩
  | crlf => exact ⟨['\r'], rfl⟩

/-- Where only blanks stand in front of an offset in its line, the children of an element up to it
end in a line feed and blanks. -/
theorem Woven.tail_row {first : NodeId} {X : List NodeId} (woven : doc.Woven source)
    (reached : doc.Reaches p) (markup : (doc.kind p).hasMarkupChildren = true)
    (tag : doc.kind first = .openingTag ∧ doc.span first ≠ none) (rows : doc.Rows X)
    (held : ∀ y ∈ first :: X, doc.Holds p y) (abut : doc.Abut lo n (doc.inSource (first :: X)))
    (blanks : OnlyBlanks source n) : ∃ run, EndsIn (doc.tailText (first :: X).reverse) run := by
  -- a token at the end of the children would stand among the blanks
  have token : ∀ {y : NodeId} {s : Span}, doc.Holds p y → doc.text? y = none → doc.span y = some s →
      ¬ OnlyBlanks source s.hi := fun hold solid span blanks =>
    blanks.not_ink (woven.snug.ends _ _ (woven.token_of_child reached markup hold solid span))
  induction X using List.reverseRecOn generalizing n with
  | nil =>
    obtain ⟨s, span⟩ := Option.ne_none_iff_exists'.mp tag.2
    rw [inSource_of_spanned (by simp [span])] at abut
    obtain ⟨u, hu, -, high⟩ := abut
    cases span.symm.trans hu
    have solid : doc.text? first = none := by
      unfold text?
      rw [tag.1]
      rfl
    exact absurd (high ▸ blanks) (token (held first (by simp)) solid span)
  | append_singleton X b ih =>
    rw [← List.cons_append]
    rcases rows.ends with ⟨spanned, front⟩ | ⟨-, -, -, -, gap, -⟩
    · obtain ⟨s, span⟩ := Option.ne_none_iff_exists'.mp spanned
      rw [← List.cons_append, inSource_append] at abut
      obtain ⟨m, before, last⟩ := abut_append.mp abut
      rw [inSource_of_spanned (by simp [span])] at last
      obtain ⟨u, hu, low, high⟩ := last
      cases span.symm.trans hu
      have hold := held b (by simp)
      cases value : doc.text? b with
      | none => exact absurd (high ▸ blanks) (token hold value span)
      | some t =>
        have slice := ((woven.sound.each b (reached.child hold)).text t value).2.2 s span
        rw [high, low] at slice
        rw [tailText_text value]
        by_cases breaks : '\n' ∈ t
        · exact ⟨_, (EndsIn.of_lastLine breaks (blanks.of_break slice breaks).allBlank).under _⟩
        · obtain ⟨above, run⟩ := blanks.of_free slice breaks
          obtain ⟨indent, ends⟩ := ih front
            (fun y hy => held y (by rw [← List.cons_append]; exact List.mem_append_left _ hy)) before
            above
          exact ⟨_, ends.append run⟩
    · obtain ⟨t, indent, value, ends⟩ := gap.endsIn
      rw [tailText_text value]
      exact ⟨indent, ends.under _⟩

theorem Margin.indent_eq {A : List NodeId} {indent run : Text} (margin : doc.Margin A indent)
    (free : '\n' ∉ indent) (ends : EndsIn (doc.tailText A.reverse) run) : run = indent := by
  rcases margin with ⟨A, y, rfl, value, -, above⟩ | ⟨rfl, last⟩
  · rw [tailText_text value] at ends
    rcases List.eq_nil_or_concat A with rfl | ⟨B, b, rfl⟩
    · exact absurd ends.breaks free
    · rw [List.concat_eq_append] at above ends
      rcases above b (by simp) with tag | ⟨⟨u, hu, final⟩, -⟩
      · have solid : doc.text? b = none := by
          unfold text?
          rw [tag]
          rfl
        rw [tailText_solid solid] at ends
        exact absurd ends.breaks free
      · obtain ⟨v, rfl⟩ := List.getLast?_eq_some_iff.mp final
        rw [tailText_text hu, ← List.append_assoc] at ends
        exact ends.lastLine_eq.symm.trans (Text.lastLine_eq (.inr ⟨_, rfl⟩) free)
  · rcases List.eq_nil_or_concat A with rfl | ⟨B, b, rfl⟩
    · cases ends.breaks
    · rw [List.concat_eq_append] at last ends
      cases value : doc.text? b with
      | none =>
        rw [tailText_solid value] at ends
        cases ends.breaks
      | some t =>
        obtain ⟨breaks, none⟩ := last b (by simp) t value
        rw [tailText_text value] at ends
        have line : lastLine t = run := by
          rw [← lastLine_append breaks]
          exact ends.lastLine_eq
        have own : EndsIn t run := line ▸ EndsIn.of_lastLine breaks (line ▸ ends.2.1)
        rw [own.trailingIndent_eq] at none
        by_contra some
        rw [if_neg some] at none
        cases none

/-- What stands in front of a target before and after: the row ends a line, and the next one leads
through blanks and `lead` to the target. If only spaces and tabs stand in front of the offset `n` in
its line of the source, then the row has a line of its own, indented like the next one and by `pad`
more. Then, and always inside of an element, the row and the line break and blanks that go with it are
all that is new; elsewhere they may also end the line that the target was on. -/
def LineAbove (source : Text) (inside : Prop) (n : Nat) (eol row : Text) (pad : Text → Text)
    (lead before after : Text) : Prop :=
  ∃ front indent, allBlank indent = true ∧ '\n' ∉ indent ∧
    after = front ++ pad indent ++ row ++ eol ++ indent ++ lead ∧
    (OnlyBlanks source n → ∃ above, LineStart above ∧ front = above ++ indent) ∧
    (inside ∨ OnlyBlanks source n → before = front ++ lead) ∧
    (¬ inside → Press.MakesRoom eol indent before front)

def padOf (kind : NodeKind) (indent : Text) : Text :=
  if kind = .closingTag ∧ indent ≠ [] then Press.indentUnit indent else []

/-- The row of a new directive above a child of a node. -/
def rowIn (doc : Document) (p : NodeId) (o : AnnotateOptions) (rule : Text) : Text :=
  if (doc.kind p).hasMarkupChildren then noteRow (directiveText o .nextLine rule .block)
  else rowOf o rule

/-- In the print of the second document the row of a new directive stands above the line on which a
node starts, at the offset `lo`: the page parts there, in front of the first character of the node,
and what it shows from there on is what the page of the first document ends with. Only among the
children of an element does anything stand in front of the node on its line, the `lead`, and never in
front of a closing tag. -/
def Raised (source : Text) (doc doc' : Document) (o : AnnotateOptions) (rule : Text) (p id : NodeId)
    (lo : Nat) : Prop :=
  ∃ before after rest a lead c b, doc.print source = .ok (before ++ c :: rest) ∧
    ((doc.kind p).hasMarkupChildren = false → doc.PartsAt source lo before (c :: rest)) ∧
    doc'.PartsAt source lo after (c :: rest) ∧
    source = a ++ lead ++ c :: b ∧ bytes (a ++ lead) = lo ∧ '\n' ∉ lead ∧
    ((doc.kind p).hasMarkupChildren = false ∨ doc.kind id = .closingTag → lead = []) ∧
    LineAbove source ((doc.kind p).hasMarkupChildren = true) (bytes a) doc.eol.text
      (doc.rowIn p o rule) (padOf (doc.kind id)) lead before after

theorem lineAbove_of_rowAbove {eol row before after : Text} {kind : NodeKind} {inside : Prop}
    (row_above : RowAbove source lo eol row before after) (plain : kind ≠ .closingTag)
    (outside : ¬ inside) : LineAbove source inside lo eol row (padOf kind) [] before after := by
  obtain ⟨front, indent, run, shape, room, first⟩ := row_above
  have pad : padOf kind indent = [] := if_neg fun h => plain h.1
  refine ⟨front, indent, run.allBlank, (nomatch run '\n' ·), ?_, fun blanks => (first blanks).2,
    fun blanks => ?_, fun _ => room⟩
  · rw [pad, List.append_nil, List.append_nil, shape]
  · rw [List.append_nil]
    exact (first (blanks.resolve_left outside)).1.symm

theorem Inset.lineAbove {first : NodeId} {X G : List NodeId} {c : Char} {a b : Text}
    {row eol indent before after : Text} {pad : Text → Text}
    (between : Inset source doc p (first :: X) G n lo (pad indent ++ row ++ (eol ++ indent)) before
      after)
    (split : source = a ++ c :: b) (at_lo : bytes a = lo) (woven : doc.Woven source)
    (reached : doc.Reaches p) (markup : (doc.kind p).hasMarkupChildren = true)
    (tag : doc.kind first = .openingTag ∧ doc.span first ≠ none) (rows : doc.Rows X)
    (held : ∀ y ∈ first :: X, doc.Holds p y) (blank : allBlank indent = true) (free : '\n' ∉ indent)
    (margin : ∀ run, EndsIn (doc.tailText (first :: X).reverse) run → run = indent) {inside : Prop}
    (within : inside) :
    ∃ a lead, source = a ++ lead ++ c :: b ∧ bytes (a ++ lead) = lo ∧ '\n' ∉ lead ∧
      (G = [] → lead = []) ∧ LineAbove source inside (bytes a) eol row pad lead before after := by
  obtain ⟨⟨u, -, abut⟩, near, above, lead, slice, lead_free, shape, shape'⟩ := between
  obtain ⟨x, y, split', rfl, same⟩ := slice?_eq_some.mp slice
  have place : bytes (x ++ lead) = bytes a := by rw [bytes_append, same, at_lo]
  obtain ⟨rfl, rfl⟩ := append_inj_bytes (split'.symm.trans split) place
  refine ⟨x, lead, split', at_lo, lead_free, fun empty => ?_,
    above ++ doc.tailText (first :: X).reverse, indent, blank, free, ?_, fun blanks => ?_,
    fun _ => shape, fun outside => absurd within outside⟩
  · rw [empty] at near
    have zero : bytes lead = 0 := by
      have near : bytes x = lo := near
      omega
    exact bytes_eq_zero.mp zero
  · rw [shape']
    simp only [List.append_assoc]
  · obtain ⟨run, ends⟩ := woven.tail_row reached markup tag rows held abut blanks
    obtain rfl := margin run ends
    obtain ⟨⟨z, eq⟩, -⟩ := ends
    exact ⟨above ++ z ++ ['\n'], .inr ⟨_, rfl⟩, by rw [eq]; simp only [List.append_assoc]⟩

theorem tailText_cons {x : NodeId} {X : List NodeId} (solid : doc.text? x = none) :
    doc.tailText (x :: X).reverse = doc.tailText X.reverse := by
  rw [List.reverse_cons]
  induction X.reverse with
  | nil => simp [tailText, solid]
  | cons y ys ih => rw [List.cons_append, tailText, tailText, ih]

theorem Arranged.rows_of_spanned {first : NodeId} {items closing : List NodeId}
    (arranged : doc.Arranged p) (layout : doc.Layout p first items closing)
    (spanned : ∀ y ∈ items.getLast?, doc.span y ≠ none) : doc.Rows items := by
  obtain ⟨o, body, tail, closing', layout', rows, tails, -⟩ := arranged
  obtain ⟨rfl, rfl, rfl⟩ := layout.unique layout'
  rcases tails with rfl | ⟨u, h, b, rfl, -, -, gap⟩
  · rwa [List.append_nil]
  · exact absurd gap.span_eq (spanned b (by simp))

theorem Woven.raised_closing {id : NodeId} {s : Span} (woven : doc.Woven source)
    (reached : doc.Reaches p) (markup : (doc.kind p).hasMarkupChildren = true) (hold : doc.Holds p id)
    (kind : doc.kind id = .closingTag) (span : doc.span id = some s)
    (sound' : (attachBeforeClosing o doc p rule).1.Sound source)
    (braced' : (attachBeforeClosing o doc p rule).1.Braced source)
    (answer : (attachBeforeClosing o doc p rule).2 = .inserted) :
    Raised source doc (attachBeforeClosing o doc p rule).1 o rule p id s.lo := by
  have sound := woven.sound
  obtain ⟨first, items, layout, ⟨e, r, -, settled, result⟩ |
    ⟨spanned, doc', indent, found, noted, result⟩⟩ :=
    attachBeforeClosing_cases o sound reached markup hold kind rule
  · rw [result] at answer
    cases answer
    exact absurd settled (ofMerge_ne_inserted _)
  · have rows := ((sound.each p reached).arranged markup).rows_of_spanned layout spanned
    have solid : ∀ {x : NodeId}, doc.kind x = .openingTag ∨ doc.kind x = .closingTag →
        doc.text? x = none := by
      intro x tag
      unfold text?
      rcases tag with h | h <;> rw [h] <;> rfl
    rw [result] at sound' braced' ⊢
    obtain ⟨n, before, after, rest, a, c, b, old, new, src, at_lo, between⟩ :=
      noted.print_between (G := []) (R := []) woven sound' braced' reached markup nofun span
        (by rw [solid (.inr kind)]; exact nofun)
    have pad : (indent.map Press.indentUnit).getD [] = padOf (doc.kind id) (indent.getD []) ∧
        allBlank (indent.getD []) = true ∧ '\n' ∉ indent.getD [] := by
      cases indent with
      | none => exact ⟨(if_neg fun h => h.2 rfl).symm, rfl, nofun⟩
      | some t =>
        obtain ⟨a, -, ne, blank, free⟩ := trailingIndent_eq_some found
        exact ⟨(if_pos ⟨kind, ne⟩).symm, blank, free⟩
    have margin : ∀ run, EndsIn (doc.tailText (first :: items).reverse) run →
        run = indent.getD [] := by
      intro run ends
      rw [tailText_cons (solid (.inl layout.opening.1))] at ends
      rw [ends.trailingIndent_eq] at found
      rw [← found]
      split
      · assumption
      · rfl
    have held : ∀ y ∈ first :: items, doc.Holds p y := by
      intro y hy
      unfold Holds
      rw [layout.split]
      exact List.mem_append_left [id] hy
    rw [pad.1] at between
    obtain ⟨a, lead, split, at_lo, free, tight, line⟩ :=
      between.lineAbove src at_lo woven reached markup layout.opening rows held pad.2.1 pad.2.2 margin
        markup
    refine ⟨before, after, rest, a, lead, c, b, old.print, fun _ => old, new, split, at_lo, free,
      fun _ => tight rfl, ?_⟩
    unfold rowIn
    rw [if_pos markup]
    exact line

def Foremost (doc : Document) (line : Nat) (p target : NodeId) : Prop :=
  ∀ y s, [y, target].Sublist (doc.children p) → doc.text? y = none → doc.span y = some s →
    s.startLine ≠ line

theorem Woven.foremost {rest : List NodeId} (woven : doc.Woven source) (reached : doc.Reaches p)
    (markup : (doc.kind p).hasMarkupChildren = true) (found : doc.startingOn line = target :: rest) :
    doc.Foremost line p target := by
  intro y s sub solid span same
  have sound := woven.sound
  have hold : doc.Holds p y := sub.subset (by simp)
  have hold' : doc.Holds p target := sub.subset (by simp)
  have token := woven.token_of_child reached markup hold solid span
  have ne : y ≠ target := by
    have nodup := (sound.linked.nodup p).sublist sub
    simpa using nodup
  have visible : doc.isBlankText y = false := by
    unfold isBlankText
    rw [solid]
  have mem : y ∈ doc.startingOn line :=
    sound.mem_startingOn.mpr ⟨token.reached, token.proper, visible, s, span, same⟩
  have ordered : (doc.startingOn line).Pairwise _ := sound.legible.preorder_pairwise.filter _
  rw [found] at mem ordered
  have later := (List.mem_cons.mp mem).resolve_left ne
  rcases ((List.pairwise_cons.mp ordered).1 y later).1 with below | behind
  · exact ne (sound.linked.sibling_unique hold hold' .refl below)
  · obtain ⟨-, -, -, u, hu, -⟩ := sound.mem_startingOn.mp (found ▸ List.mem_cons_self)
    have before := (sound.each p reached).ordered.sublist sub
    have := List.rel_of_pairwise_cons before List.mem_cons_self s u span hu
    have := behind u s hu span
    have := (sound.fits (reached.child hold') hu).le
    have := woven.snug.wide y s token
    omega

theorem Foremost.slit (foremost : doc.Foremost line p target) (slit : Slit p target doc doc')
    (sound : doc.Sound source) (reached : doc.Reaches p) (hold : doc.Holds p target) :
    doc'.Foremost line p target := by
  obtain ⟨A, id, C, t, s, ne, span, -, -, recut⟩ := slit
  intro y u sub solid span_y
  have held : doc'.Holds p y := sub.subset (by simp)
  have old : y < doc.nodes.size := by
    by_contra new
    have part := ((recut.splice.holds_new sound.linked (sound.reaches_lt reached)
      (Nat.le_of_not_lt new)).mp held).2
    obtain ⟨i, lt, rfl⟩ := List.mem_range'.mp part
    have node := recut.part i t.segments[i] (List.getElem?_eq_getElem lt)
    rw [Nat.one_mul, text?_of_node node rfl] at solid
    cases solid
  have old' : ∀ {x : NodeId}, x < doc.nodes.size →
      x ∉ List.range' doc.nodes.size t.segments.length := fun lt mem =>
    absurd (recut.splice.fresh _ mem).1 (Nat.not_le_of_lt lt)
  have stays := ((recut.splice.holds_old sound.linked (sound.reaches_lt reached) old).mp held)
  have keeps := (recut.stays sound reached span stays.1 (by simpa using stays.2)).2
  have back : [y, target].Sublist (doc.children p) := by
    rw [recut.splice.children_here] at sub
    rw [recut.splice.split]
    refine sublist_swap sub ?_
    simp only [List.mem_cons, List.not_mem_nil, or_false, forall_eq_or_imp, forall_eq]
    exact ⟨old' old, old' (sound.linked.child_lt hold)⟩
  rw [keeps.text?_eq] at solid
  rw [keeps.span] at span_y
  exact foremost y u back solid span_y

theorem Foremost.slits (foremost : doc.Foremost line p target) (slits : Slits p target doc doc')
    (sound : doc.Sound source) (reached : doc.Reaches p)
    (markup : (doc.kind p).hasMarkupChildren = true) (hold : doc.Holds p target) :
    doc'.Foremost line p target := by
  induction slits with
  | refl => exact foremost
  | tail before slit ih =>
    obtain ⟨sound', reached', -, keep⟩ := Slits.spec before sound reached markup
    exact ih.slit slit sound' reached' (keep hold).1

/-- The group on the line of the first node that starts there consists of texts. -/
theorem Spot.texts {first : NodeId} {X₁ X₂ R closing : List NodeId}
    (spot : doc.Spot p target line first X₁ X₂ R closing) (foremost : doc.Foremost line p target) :
    ∀ x ∈ X₂, doc.span x ≠ none ∧ ∃ t, doc.text? x = some t ∧ '\n' ∉ t := by
  intro x hx
  obtain ⟨spanned, text | ⟨solid, s, span, same⟩⟩ := spot.group.on x hx
  · exact ⟨spanned, text⟩
  · refine absurd same (foremost x s ?_ solid span)
    obtain ⟨Y, Z, rfl⟩ := List.append_of_mem hx
    rw [spot.layout.split]
    have pair : [x, target].Sublist (x :: (Z ++ target :: (R ++ closing))) :=
      (List.singleton_sublist.mpr (by simp)).cons_cons x
    have regroup : first :: (X₁ ++ (Y ++ x :: Z) ++ target :: R ++ closing) =
        (first :: (X₁ ++ Y)) ++ x :: (Z ++ target :: (R ++ closing)) := by
      simp
    rw [regroup]
    exact pair.trans (List.sublist_append_right _ _)

theorem Room.part {first : NodeId} {X₁ X₂ R closing Z G : List NodeId} {room : Document}
    {indent : Text} (made : Room doc p target first X₁ X₂ R closing room Z G indent) :
    ∀ g ∈ G, g ∈ X₂ := by
  cases made with
  | own split =>
    subst split
    exact fun g hg => List.mem_cons_of_mem _ hg
  | split => exact fun g hg => hg
  | flush => exact fun g hg => hg

/-- The cut that makes room cannot be seen in the print. -/
theorem Room.print_eq {first : NodeId} {X₁ X₂ R closing Z G : List NodeId} {room : Document}
    {indent : Text} (made : Room doc p target first X₁ X₂ R closing room Z G indent)
    (sound : doc.Sound source) (clear : doc.Clear) (reached : doc.Reaches p)
    (markup : (doc.kind p).hasMarkupChildren = true) : room.print source = doc.print source := by
  cases made with
  | own => rfl
  | split _ _ span _ _ _ recut => exact recut.print_eq sound clear reached markup span
  | flush => rfl

theorem Roomy.rows {first x : NodeId} {Z C : List NodeId} {room : Document} {indent : Text}
    (roomy : Roomy source room p (first :: Z) (x :: C) indent)
    (split : room.children p = first :: Z ++ x :: C) :
    (room.kind first = .openingTag ∧ room.span first ≠ none) ∧ room.Rows Z := by
  obtain ⟨y, C', eq, spanned, plain⟩ := roomy.next
  obtain ⟨rfl, rfl⟩ := List.cons.inj eq
  obtain ⟨o, X, Y, tail, closing, same, -, layout, rows, -⟩ :=
    ((roomy.sound.each p roomy.reached).arranged roomy.markup).place (roomy.sound.linked.nodup p)
      split spanned plain
  obtain ⟨rfl, rfl⟩ := List.cons.inj same
  exact ⟨layout.opening, rows⟩

theorem Woven.raised_among {cut : Document} {rest : List NodeId} {s : Span} (woven : doc.Woven source)
    (reached : doc.Reaches p) (markup : (doc.kind p).hasMarkupChildren = true)
    (found : doc.startingOn line = target :: rest) (hold : doc.Holds p target)
    (last : doc.kind target ≠ .closingTag) (span : doc.span target = some s)
    (slits : Slits p target doc cut)
    (among : AmongSiblings o rule line p target cut doc' .inserted) (sound_new : doc'.Sound source)
    (braced_new : doc'.Braced source) : Raised source doc doc' o rule p target s.lo := by
  have sound := woven.sound
  have starts := (sound.mem_startingOn.mp (found ▸ List.mem_cons_self)).2
  have edits : Edits o rule doc cut := slits.edits sound reached markup
  obtain ⟨sound', reached', kind', keep⟩ := slits.spec sound reached markup
  obtain ⟨hold', target', span'⟩ := keep hold
  have markup' : (cut.kind p).hasMarkupChildren = true := by
    rw [kind']
    exact markup
  have starts' : cut.Starts line target := by
    rw [← starts?_iff, starts?_congr target' span', starts?_iff]
    exact starts
  have heads : cut.Heads line p target := Heads.slits slits ⟨target, rest, found, .inl rfl⟩ sound
    reached markup hold (starts?_iff.mpr starts) last
  cases among with
  | merge _ _ settled => exact absurd settled (ofMerge_ne_inserted _)
  | @insert first X₁ X₂ R closing Z G room _ indent spot flat made noted =>
    obtain ⟨more, roomy⟩ :=
      made.roomy sound' reached' markup' spot (heads.hits sound' markup' hold' starts') flat
    have all : Edits o rule doc room := edits.trans (more o rule)
    have frame := Edits.frame all sound
    have frame' := Edits.frame (more o rule) sound'
    have lt := sound.linked.child_lt hold
    have texts : ∀ g ∈ G, room.span g ≠ none ∧ ∃ t, room.text? g = some t ∧ '\n' ∉ t := by
      intro g hg
      have mem := made.part g hg
      have old := sound'.linked.child_lt (spot.layout.mem_children (x := g) (by simp [mem]))
      rw [(frame'.same g old).2, frame'.text?_eq old]
      exact spot.texts ((woven.foremost reached markup found).slits slits sound reached markup hold)
        g mem
    have seen : ∀ t, room.text? target = some t → allBlank t = false := by
      intro t value
      rw [frame.text?_eq lt] at value
      have visible := starts.2.1
      unfold isBlankText at visible
      rw [value] at visible
      exact visible
    rw [List.append_assoc, List.cons_append] at noted
    have split : room.children p = first :: Z ++ (G ++ target :: (R ++ closing)) := by
      rw [noted.splice.split, List.append_nil]
    obtain ⟨n, before, after, back, a, c, b, old, new, src, at_lo, between⟩ :=
      noted.print_between (Edits.woven all woven) sound_new braced_new roomy.reached roomy.markup texts
        ((frame.same target lt).2.trans span) seen
    have pad : padOf (doc.kind target) indent = [] := if_neg fun h => last h.1
    have held : ∀ y ∈ first :: Z, room.Holds p y := by
      intro y hy
      unfold Holds
      rw [split]
      exact List.mem_append_left _ hy
    have tagged : (room.kind first = .openingTag ∧ room.span first ≠ none) ∧ room.Rows Z := by
      obtain ⟨x, C, eq, -⟩ := roomy.next
      rw [List.append_assoc, List.cons_append] at eq roomy
      rw [eq] at roomy split
      exact roomy.rows split
    have inset : Inset source room p (first :: Z) G n s.lo (padOf (doc.kind target) indent ++
        noteRow (directiveText o .nextLine rule .block) ++ (room.eol.text ++ indent)) before after := by
      rw [pad]
      exact between
    obtain ⟨a, lead, src, at_lo, free, -, line_above⟩ :=
      inset.lineAbove src at_lo (Edits.woven all woven) roomy.reached roomy.markup tagged.1 tagged.2
        held roomy.blank.1 roomy.blank.2 (fun run ends => roomy.margin.indent_eq roomy.blank.2 ends)
        markup
    have printed : room.print source = doc.print source := by
      have same := slits.print_eq sound woven.clear reached markup (woven.worded.inked reached)
      exact (made.print_eq sound' same.2.1 reached' markup').trans same.1
    refine ⟨before, after, back, a, lead, c, b, printed ▸ old.print, fun plain => ?_, new, src, at_lo,
      free, fun h => ?_, ?_⟩
    · rw [markup] at plain
      cases plain
    · rcases h with plain | tag
      · rw [markup] at plain
        cases plain
      · exact absurd tag last
    · unfold rowIn
      rw [if_pos markup, ← frame.eol]
      exact line_above

theorem rowIn_break (tidy : '\n' ∉ rule) (brief : '\n' ∉ o.message) : '\n' ∉ doc.rowIn p o rule := by
  unfold rowIn
  split
  · have keyword : '\n' ∉ Directive.Form.nextLine.keyword := by decide
    have separator : '\n' ∉ Directive.separator := by decide
    simp [noteRow, noteOf, Comment.render, Comment.delimit, directiveText, Directive.encode,
      Directive.single, joinWith, tidy, brief, keyword, separator]
  · exact rowOf_break tidy brief

/-- A directive that a call puts in, above the code and not at the end of a branch, after any run of
calls on a well-formed document whose spans hold their tokens and whose elements have no gaps between
their children: in what is printed it ends a line, and its target stands on the next one. If only
spaces and tabs stand in front of it in the source, then one line with the indentation of that line
is added above it, one unit farther in for an indented closing tag, and the rest is as before. -/
theorem annotateOne_raises {id : NodeId} {s : Span} {one two : Document} (wf : doc.WellFormed source)
    (braced : doc.Braced source) (snug : doc.Snug source) (clear : doc.Clear) (worded : doc.Worded)
    (seamless : doc.Seamless) (calls : doc.Calls one) (above : o.inline = false)
    (tidy : '\n' ∉ rule) (brief : '\n' ∉ o.message)
    (called : one.annotateOne o line rule = .ok (two, .inserted))
    (located : one.locate line = some (.node id (some p))) (span : one.span id = some s) :
    '\n' ∉ one.rowIn p o rule ∧ Raised source one two o rule p id s.lo := by
  refine ⟨rowIn_break tidy brief, ?_⟩
  have woven := calls.woven (wf.woven braced snug clear worded seamless)
  have sound := woven.sound
  obtain ⟨sound', frame⟩ := Calls.frame (calls.tail ⟨o, line, rule, _, called⟩) wf.sound
  have braced' := frame.braced braced
  obtain ⟨_, _, result, call⟩ := annotateOne_ok sound o line rule
  cases called.symm.trans result
  have aimed : ∀ {j : NodeId} {rest : List NodeId} {t : Target}, one.startingOn line = j :: rest →
      one.aim j = t → t = .node id (some p) := by
    rintro j rest t found rfl
    rw [sound.locate_eq, found] at located
    exact Option.some.inj located
  have context : ∀ {rest : List NodeId}, one.startingOn line = id :: rest →
      one.aim id = .node id (some p) → one.Reaches p ∧ one.Holds p id := by
    intro rest found aim
    obtain ⟨-, -, q, link, within, -⟩ := sound.first_spec found
    cases link.symm.trans (parent_of_aim aim)
    exact ⟨within, (sound.linked.agree p id).mpr link⟩
  generalize answer : Resolution.inserted = r at call
  cases call with
  | missed => cases answer
  | tail found aim => cases aimed found aim
  | closing found aim kind =>
    cases aimed found aim
    obtain ⟨reached, hold⟩ := context found aim
    cases markup : (one.kind p).hasMarkupChildren with
    | false =>
      rw [attachBeforeClosing_childless o rule markup] at answer
      cases answer
    | true => exact woven.raised_closing reached markup hold kind span sound' braced' answer.symm
  | beside found aim last place =>
    cases aimed found aim
    obtain ⟨reached, hold⟩ := context found aim
    cases markup : (one.kind p).hasMarkupChildren with
    | true =>
      exact absurd place (not_beside_of_markup markup (woven.seamless.tags p id reached markup hold))
    | false =>
      obtain ⟨before, after, rest, a, c, b, old, new, split, lo, -, row⟩ :=
        annotateOne_above wf braced snug calls above tidy brief called located markup span
      refine ⟨before, after, rest, a, [], c, b, old.print, fun _ => old, new,
        by rw [List.append_nil, split], by rw [List.append_nil, lo], nofun, fun _ => rfl, ?_⟩
      unfold rowIn
      rw [lo, markup]
      exact lineAbove_of_rowAbove row last nofun
  | among found aim last _ attach =>
    cases aimed found aim
    obtain ⟨reached, hold⟩ := context found aim
    cases attach with
    | childless => cases answer
    | own _ _ settled =>
      rw [← answer] at settled
      exact absurd settled (ofMerge_ne_inserted _)
    | placed markup _ _ slits among =>
      rw [← answer] at among
      exact woven.raised_among reached markup found hold last span slits among sound' braced'

/-- An element that holds words and, on the line where they end, an element. -/
def mixedSource : Text := "<a>\n  x\n  y <b/>\n</a>".toList

def mixedSample : Document where
  nodes := #[
    { kind := .program, span := some ⟨0, 21, 1, 4⟩, children := [1] },
    { kind := .statement, span := some ⟨0, 21, 1, 4⟩, parent := some 0, children := [2] },
    { kind := .element, span := some ⟨0, 21, 1, 4⟩, parent := some 1, children := [3, 4, 5, 7, 8] },
    { kind := .openingTag, span := some ⟨0, 3, 1, 1⟩, parent := some 2 },
    { kind := .text "\n  x\n  y ".toList, span := some ⟨3, 12, 1, 3⟩, parent := some 2 },
    { kind := .element, span := some ⟨12, 16, 3, 3⟩, parent := some 2, children := [6] },
    { kind := .openingTag, span := some ⟨12, 16, 3, 3⟩, parent := some 5 },
    { kind := .text "\n".toList, span := some ⟨16, 17, 3, 4⟩, parent := some 2 },
    { kind := .closingTag, span := some ⟨17, 21, 4, 4⟩, parent := some 2 }]

/-- The words in front of the inner element are cut, and the directive stands above the last of
them. -/
theorem annotateOne_raises_mixed : mixedSample.WellFormed mixedSource ∧
    mixedSample.Braced mixedSource ∧ mixedSample.Snug mixedSource ∧ mixedSample.Clear ∧
    mixedSample.Worded ∧ mixedSample.Seamless ∧ OnlyBlanks mixedSource 10 ∧
    ∃ one two, mixedSample.Calls one ∧ one.annotateOne {} 3 ['r'] = .ok (two, .inserted) ∧
      '\n' ∉ one.rowIn 2 {} ['r'] ∧ Raised mixedSource one two {} ['r'] 2 5 12 := by
  have wf : mixedSample.WellFormed mixedSource := wellFormed_of_reads (by decide)
  have braced : mixedSample.Braced mixedSource := braced_of_table (by decide)
  have snug : mixedSample.Snug mixedSource := snug_of_table (by decide)
  have clear : mixedSample.Clear := clear_of_table (by decide)
  have worded : mixedSample.Worded := by
    have table : ∀ id < mixedSample.nodes.size, mixedSample.text? id ≠ some [] := by decide
    exact fun x reached => table x (wf.linked.reaches_lt wf.root_lt reached)
  have seamless : mixedSample.Seamless := wf.seamless_of_table snug (by decide)
  have blanks : OnlyBlanks mixedSource 10 :=
    ⟨mixedSource.take 10, mixedSource.drop 10, rfl, by decide, by decide⟩
  -- the line of the closing tag has been served before
  have calls : mixedSample.Calls (attachBeforeClosing {} mixedSample 2 ['q']).1 :=
    ReflTransGen.single ⟨{}, 4, ['q'], .inserted, rfl⟩
  obtain ⟨two, r, called, -⟩ :=
    annotateOne_ok (calls.woven (wf.woven braced snug clear worded seamless)).sound {} 3 ['r']
  have verdict : ((attachBeforeClosing {} mixedSample 2 ['q']).1.annotateOne {} 3 ['r']).map (·.2) =
      .ok .inserted := by rfl
  rw [called] at verdict
  obtain rfl : r = .inserted := Except.ok.inj verdict
  exact ⟨wf, braced, snug, clear, worded, seamless, blanks, _, two, calls, called,
    annotateOne_raises wf braced snug clear worded seamless calls rfl (by decide) (by decide) called
      rfl rfl⟩

/-- Behind a byte order mark all spans are three bytes too low, and what is indented by three spaces
gets its directive at the start of the line and is itself moved. -/
theorem annotateSource_moves_indented :
    annotateSource briefOptions "a.js".toList "\uFEFF\n   b;".toList [complaint 2 'r'] =
      .ok (some ⟨{ inserted := 1 }, some
        "\uFEFF\n// eslint-disable-next-line r -- m\n      b;".toList⟩) := by
  simp only [String.reduceToList]
  exact annotateSource_of_inOrder (by decide) (by decide +kernel)

end Document
end Quell
