import Quell.Proofs.Annotate.Among
import Quell.Proofs.Document.Locate
import Quell.Proofs.Document.Preserve
import Quell.Proofs.Document.Target

/-!
The edits of which annotating consists.

`Edit` lists them, each with what its caller has made sure of. None of them harms a sound document
(`Edit.sound`), and so no run of them does.
-/
namespace Quell.Document

open Text Relation

def besideComment (o : AnnotateOptions) (rule : Text) : Slot × Comment :=
  if o.inline then
    (.trailing, { kind := .line, text := directiveText o .sameLine rule .line
                  placement := .trailing false })
  else
    (.leading, { kind := .line, text := directiveText o .nextLine rule .line, placement := .leading })

def behindComment (o : AnnotateOptions) (rule : Text) : Comment :=
  { kind := .line, text := directiveText o .nextLine rule .line, placement := .trailing true }

/-- The indentation of a line that starts behind these children of an element: a text of its own, or
none. -/
def Margin (doc : Document) (A : List NodeId) (indent : Text) : Prop :=
  (∃ A' y, A = A' ++ [y] ∧ doc.text? y = some indent ∧ doc.span y ≠ none ∧
    ∀ b ∈ A'.getLast?, doc.kind b = .openingTag ∨ (doc.LineEnd b ∧ doc.span b ≠ none)) ∨
  indent = [] ∧ ∀ b ∈ A.getLast?, ∀ t, doc.text? b = some t → '\n' ∈ t ∧ trailingIndent t = none

/-- A line starts between these children of an element: neither the element nor the last child in
front starts on it, and behind only siblings on it stand in front of one that starts there. -/
def Opens (doc : Document) (p : NodeId) (A C : List NodeId) : Prop :=
  ∃ line, (∀ s, doc.span p = some s → s.startLine ≠ line) ∧
    (∀ b ∈ A.getLast?, doc.text? b = none → doc.kind b ≠ .openingTag →
      ∀ s, doc.span b = some s → s.startLine ≠ line) ∧
    ∃ G t R s, C = G ++ t :: R ∧ (∀ g ∈ G, doc.OnLine line g) ∧ doc.span t = some s ∧
      s.startLine = line

def Beside (doc : Document) (id p : NodeId) : Prop :=
  doc.kind id = .attribute ∨ doc.kind p = .hole ∨ (doc.kind p).isMarkup = false

instance (doc : Document) (id p : NodeId) : Decidable (doc.Beside id p) :=
  inferInstanceAs (Decidable (_ ∨ _))

inductive Edit (o : AnnotateOptions) (rule : Text) (doc : Document) : Document → Prop where
  /-- A rule more in a directive. -/
  | extend {id : NodeId} {slot : Slot} {cs : List Comment} {c c' : Comment} : doc.Reaches id →
      (doc.node id).comments slot = cs ++ [c] → c.merge rule = (c', .merged) →
      (slot = .inner → doc.kind id = .block → doc.children id = []) →
      Edit o rule doc (doc.update id (·.setComments slot (cs ++ [c'])))
  /-- A comment at the first node of a line. -/
  | beside {line : Nat} {id p : NodeId} {rest : List NodeId} : doc.startingOn line = id :: rest →
      doc.aim id = .node id (some p) → doc.Beside id p → doc.Bare id (besideComment o rule).1 →
      Edit o rule doc (doc.appendComment id (besideComment o rule).1 (besideComment o rule).2)
  /-- A comment at the end of a block. -/
  | behind {block last : NodeId} : doc.Reaches block → doc.kind block = .block →
      (doc.children block).getLast? = some last → doc.Bare last .trailing →
      Edit o rule doc (doc.appendComment last .trailing (behindComment o rule))
  /-- A placeholder in an empty block. -/
  | fill {block : NodeId} : doc.Reaches block → doc.kind block = .block →
      doc.children block = [] → doc.Bare block .inner → Edit o rule doc (doc.addPlaceholder block).1
  /-- A text of the source in parts. -/
  | cut {doc' : Document} {p id : NodeId} {A C : List NodeId} {parts : List Text} {s : Span} :
      doc.Reaches p → (doc.kind p).hasMarkupChildren = true → doc.span id = some s →
      (∀ t ∈ parts, Settled t) → doc.Recut doc' p A id C parts → parts.IsChain Meets →
      Edit o rule doc doc'
  /-- A markup comment in front of a child of an element. -/
  | among {doc' : Document} {p x : NodeId} {A C : List NodeId} {indent : Text} :
      doc.Reaches p → (doc.kind p).hasMarkupChildren = true → doc.span x ≠ none →
      (doc.kind x ≠ .openingTag ∧ doc.kind x ≠ .closingTag) → (∀ y ∈ A, doc.Whole y) →
      allBlank indent = true → '\n' ∉ indent → doc.Margin A indent →
      doc.Noted doc' p A (x :: C) none (directiveText o .nextLine rule .block)
        (doc.eol.text ++ indent) → doc.Opens p A (x :: C) → Edit o rule doc doc'
  /-- A markup comment in front of a closing tag. -/
  | last {doc' : Document} {p first c : NodeId} {items : List NodeId} {indent : Option Text} :
      doc.Reaches p → (doc.kind p).hasMarkupChildren = true → doc.Layout p first items [c] →
      (∀ y ∈ items.getLast?, doc.span y ≠ none) →
      trailingIndent (doc.tailText items.reverse) = indent →
      doc.Noted doc' p (first :: items) [c] (indent.map Press.indentUnit)
        (directiveText o .nextLine rule .block) (doc.eol.text ++ indent.getD []) →
      Edit o rule doc doc'

section Sound

variable {source : Text} {doc doc' : Document} {o : AnnotateOptions} {rule : Text}

theorem Sound.ghost_comment (sound : doc.Sound source) {id : NodeId} (reached : doc.Reaches id)
    (spanless : doc.span id = none) {slot : Slot} {cs : List Comment} {c : Comment}
    (held : (doc.node id).comments slot = cs ++ [c]) :
    doc.kind id = .empty ∨ doc.kind id = .emptyHole ∧ slot = .inner ∧ cs = [] ∧ c.span = none := by
  rcases ReflTransGen.cases_tail reached with e | ⟨p, hp, hold⟩
  · exact absurd (e ▸ spanless) sound.root_span
  · rcases (sound.each p hp).ghosts id hold spanless with markup | ⟨-, -, h, -⟩ |
      ⟨hole, above, kind, -⟩
    · have quiet : ∀ {k : NodeKind} {q : Option NodeId} {ch : List NodeId},
          doc.node id ≠ { kind := k, span := none, parent := q, children := ch } := by
        intro k q ch node
        rw [node] at held
        cases slot <;> simp [Node.comments] at held
      rcases ((sound.each p hp).arranged markup).part hold spanless with h | h | h
      · obtain ⟨_, _, _, node, -, -, -⟩ := h
        exact absurd node quiet
      · obtain ⟨_, _, node, -, -⟩ := h
        exact absurd node quiet
      · obtain ⟨_, _, node, -, -, -⟩ := h
        exact absurd node quiet
    · exact .inl h
    · refine .inr ⟨kind, ?_⟩
      -- The hole itself has no span, so it stands among the children of an element.
      rcases ReflTransGen.cases_tail hp with e | ⟨q, hq, hold'⟩
      · exact absurd (e ▸ above) sound.root_span
      · have markup : (doc.kind q).hasMarkupChildren = true := by
          rcases (sound.each q hq).ghosts p hold' above with h | ⟨-, -, h, -⟩ | ⟨-, -, h, -⟩
          · exact h
          · rw [hole] at h
            cases h
          · rw [hole] at h
            cases h
        rcases ((sound.each q hq).arranged markup).part hold' above with h | h | h
        · obtain ⟨_, e, k, node, slotnode, kspan, -⟩ := h
          have same : id = e := by
            unfold Holds children at hold
            rw [node] at hold
            simpa using hold
          rw [same, slotnode] at held
          cases slot with
          | leading => simp [Node.comments] at held
          | trailing => simp [Node.comments] at held
          | inner =>
            obtain ⟨rfl, rfl⟩ : cs = [] ∧ c = k := by
              cases cs with
              | nil => simpa [Node.comments] using held.symm
              | cons _ _ => simp [Node.comments] at held
            exact ⟨rfl, rfl, kspan⟩
        · obtain ⟨_, _, node, -, -⟩ := h
          unfold Holds children at hold
          rw [node] at hold
          cases hold
        · obtain ⟨_, _, node, -, -, -⟩ := h
          unfold Holds children at hold
          rw [node] at hold
          cases hold

theorem Sound.solid_of_comment (sound : doc.Sound source) {id : NodeId} (reached : doc.Reaches id)
    {slot : Slot} {cs : List Comment} {c : Comment}
    (held : (doc.node id).comments slot = cs ++ [c]) : doc.text? id = none := by
  cases value : doc.text? id with
  | none => rfl
  | some t =>
    have := ((sound.each id reached).text t value).2.1 slot
    rw [held] at this
    simp at this

/-- A directive takes a rule more. -/
theorem Sound.extend (sound : doc.Sound source) {id : NodeId} {slot : Slot} {cs : List Comment}
    {c c' : Comment} (reached : doc.Reaches id) (held : (doc.node id).comments slot = cs ++ [c])
    (merged : c.merge rule = (c', .merged)) :
    (doc.update id (·.setComments slot (cs ++ [c']))).Sound source := by
  obtain ⟨span, -, -, -, parses⟩ := Comment.merge_parses merged
  refine sound.setComments reached (sound.solid_of_comment reached held) ?_ fun spanless => ?_
  · intro d hd s hs
    rw [held]
    rcases List.mem_append.mp hd with h | h
    · exact ⟨d, by simp [h], hs⟩
    · rw [List.mem_singleton.mp h, span] at hs
      exact ⟨c, by simp, hs⟩
  · rcases sound.ghost_comment reached spanless held with h | ⟨kind, rfl, rfl, none⟩
    · exact .inl h
    · exact .inr ⟨kind, rfl, c', rfl, by rw [span, none], parses⟩

/-- A comment is put behind the others of a node that carries comments. -/
theorem Sound.appendComment (sound : doc.Sound source) {id : NodeId} (reached : doc.Reaches id)
    (solid : doc.text? id = none) (place : doc.span id = none → doc.kind id = .empty) (slot : Slot)
    {c : Comment} (new : c.span = none) : (doc.appendComment id slot c).Sound source := by
  rw [appendComment_eq]
  refine sound.setComments reached solid ?_ fun spanless => .inl (place spanless)
  intro d hd s hs
  rcases List.mem_append.mp hd with h | h
  · exact ⟨d, h, hs⟩
  · rw [List.mem_singleton.mp h, new] at hs
    cases hs

theorem besideComment_span (o : AnnotateOptions) (rule : Text) :
    (besideComment o rule).2.span = none := by
  unfold besideComment
  split <;> rfl

theorem besideComment_slot (o : AnnotateOptions) (rule : Text) :
    (besideComment o rule).1 ≠ .inner := by
  unfold besideComment
  cases o.inline with
  | false => exact nofun
  | true => exact nofun

theorem Sound.solid_target (sound : doc.Sound source) {id p : NodeId} (reached : doc.Reaches p)
    (hold : doc.Holds p id) (place : doc.Beside id p) : doc.text? id = none := by
  cases value : doc.text? id with
  | none => rfl
  | some t =>
    have markup := (sound.each p reached).texts id t hold value
    rcases place with h | h | h
    · unfold text? at value
      rw [h] at value
      cases value
    · rw [h] at markup
      cases markup
    · cases kind : doc.kind p <;> rw [kind] at h markup <;> cases h <;> cases markup

/-- The last statement of a block has a span or is a placeholder. -/
theorem Sound.last_statement (sound : doc.Sound source) {block last : NodeId}
    (reached : doc.Reaches block) (kind : doc.kind block = .block)
    (found : (doc.children block).getLast? = some last) :
    doc.Reaches last ∧ doc.text? last = none ∧ (doc.span last = none → doc.kind last = .empty) := by
  have hold : doc.Holds block last := List.mem_of_getLast? found
  refine ⟨reached.child hold, sound.solid_target reached hold (.inr (.inr (by rw [kind]; rfl))), ?_⟩
  intro spanless
  rcases (sound.each block reached).ghosts last hold spanless with h | ⟨-, -, h, -⟩ | ⟨h, -, -, -⟩
  · rw [kind] at h
    cases h
  · exact h
  · rw [kind] at h
    cases h

theorem indentUnit_spec (indent : Text) :
    Press.indentUnit indent ≠ [] ∧ allBlank (Press.indentUnit indent) = true ∧
      '\n' ∉ Press.indentUnit indent := by
  unfold Press.indentUnit
  split <;> decide

theorem directiveText_parses (o : AnnotateOptions) (form : Directive.Form) (rule : Text)
    (kind : CommentKind) :
    (Directive.parse? (directiveText o form rule kind)).isSome = true :=
  Directive.parse_encode_isSome _ _

/-- An edit keeps a document sound. -/
theorem Edit.sound (edit : Edit o rule doc doc') (sound : doc.Sound source) :
    doc'.Sound source := by
  cases edit with
  | extend reached held merged => exact sound.extend reached held merged
  | beside found aim place =>
    obtain ⟨reached, starts, p', link, above, -⟩ := sound.first_spec found
    obtain ⟨s, span, -⟩ := starts.2.2
    cases link.symm.trans (parent_of_aim aim)
    refine sound.appendComment reached ?_ (fun h => ?_) _ (besideComment_span o rule)
    · exact sound.solid_target above ((sound.linked.agree _ _).mpr link) place
    · rw [span] at h
      cases h
  | behind reached kind found =>
    obtain ⟨reached', solid, place⟩ := sound.last_statement reached kind found
    exact sound.appendComment reached' solid place _ rfl
  | fill reached kind empty => exact sound.addPlaceholder reached kind empty
  | cut reached markup span settled recut => exact sound.recut recut reached markup span settled
  | among reached markup spanned plain whole blank free margin noted =>
    obtain ⟨note, gap, -⟩ := noted.parts (directiveText_parses o _ rule _) rfl blank free nofun
    exact sound.noted noted reached markup
      (noted.arranged_among sound reached markup spanned plain whole note gap)
  | @last _ _ _ _ _ indent reached markup layout spanned run noted =>
    have blank : allBlank (indent.getD []) = true ∧ '\n' ∉ indent.getD [] := by
      cases indent with
      | none => exact ⟨rfl, nofun⟩
      | some indent =>
        obtain ⟨a, -, -, blank, free⟩ := trailingIndent_eq_some run
        exact ⟨blank, free⟩
    have lead : ∀ u ∈ indent.map Press.indentUnit, u ≠ [] ∧ allBlank u = true ∧ '\n' ∉ u := by
      intro u hu
      obtain ⟨t, -, rfl⟩ := Option.map_eq_some_iff.mp hu
      exact indentUnit_spec t
    obtain ⟨note, gap, leads⟩ := noted.parts (directiveText_parses o _ rule _) rfl blank.1 blank.2
      lead
    exact sound.noted noted reached markup
      (noted.arranged_last sound reached markup layout spanned note gap leads)

end Sound

abbrev Edits (o : AnnotateOptions) (rule : Text) : Document → Document → Prop :=
  ReflTransGen (Edit o rule)

theorem Edits.sound {source : Text} {doc doc' : Document} {o : AnnotateOptions} {rule : Text}
    (edits : Edits o rule doc doc') (sound : doc.Sound source) : doc'.Sound source := by
  induction edits with
  | refl => exact sound
  | tail _ edit ih => exact edit.sound ih

end Quell.Document
