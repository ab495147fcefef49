import Quell.Document.Edit
import Quell.Proofs.Directive
import Quell.Proofs.Document.Tree

/-!
Merging a rule into a comment.

A merge changes the last comment of a slot or nothing at all. A comment that it changes is a
directive before and after, with the same form and explanation and one rule more.
-/
namespace Quell

namespace Directive

open Text

theorem explanation_of_parse {t : Text} {d : Directive} (h : parse? t = some d) :
    (d.explanation.map Text.trim).filter (!·.isEmpty) = d.explanation := by
  have each : ∀ form body, ((ofBody form body).explanation.map Text.trim).filter (!·.isEmpty) =
      (ofBody form body).explanation := by
    intro form body
    unfold ofBody
    split
    · rename_i rules why found
      by_cases empty : (Text.trim why).isEmpty = true
      · simp [Option.filter, empty]
      · simp [Option.filter, empty, Text.trim_idem]
    · rfl
  unfold parse? at h
  dsimp only at h
  split at h
  · cases h
    exact each _ _
  · obtain ⟨rest, -, rfl⟩ := Option.map_eq_some_iff.mp h
    exact each _ _

structure Clean (d : Directive) : Prop where
  listed : d.Listed
  trimmed : (d.explanation.map trim).filter (!·.isEmpty) = d.explanation

theorem clean_of_parse {t : Text} {d : Directive} (h : parse? t = some d) : d.Clean :=
  ⟨listed_of_parse h, explanation_of_parse h⟩

theorem Clean.parse_encode {d : Directive} (clean : d.Clean) (kind : CommentKind) :
    parse? (d.encode kind) = some d := by
  rw [Directive.parse_encode clean.listed, clean.trimmed]

theorem Clean.add {d : Directive} (clean : d.Clean) {rule : Text} (name : RuleName rule)
    (new : d.suppresses rule = false) : Clean { d with rules := d.rules ++ [rule] } := by
  have added : d.add? rule = some { d with rules := d.rules ++ [rule] } := by
    unfold add?
    rw [new]
    rfl
  exact ⟨(clean.listed.add name added).1, clean.trimmed⟩

theorem firm_keyword (form : Form) : Firm form.keyword := by
  cases form
  · exact ⟨'e', by decide, by decide⟩
  · exact ⟨'e', by decide, by decide⟩

/-- The body of a line comment ends in a rule, an explanation or a keyword. -/
theorem Clean.firm {d : Directive} (clean : d.Clean) : Firm (d.encode .line) := by
  have line : (if CommentKind.line = .block then [' '] else []) = ([] : Text) := rfl
  unfold encode
  rw [line, List.append_nil]
  cases why : d.explanation with
  | some t =>
    have trimmed := clean.trimmed
    rw [why] at trimmed
    obtain ⟨e, nonempty⟩ := Option.filter_eq_some_iff.mp trimmed
    have same : trim t = t := Option.some.inj e
    have solid : t ≠ [] := by simpa using nonempty
    refine Firm.append _ ?_
    exact Firm.append (' ' :: separator ++ [' ']) (firm_of_trimmed solid same)
  | none =>
    rw [List.append_nil]
    by_cases none : d.rules = []
    · rw [none, List.isEmpty_nil, if_pos rfl, List.append_nil]
      exact Firm.append [' '] (firm_keyword d.form)
    · rw [if_neg (by simpa using none)]
      refine Firm.append _ (Firm.append [' '] (firm_joinWith _ none fun rule mem => ?_))
      have name := clean.listed.names rule mem
      exact firm_of_trimmed name.nonempty name.trimmed

theorem parse_encode_isSome (d : Directive) (kind : CommentKind) :
    (parse? (d.encode kind)).isSome = true := by
  rw [parse_encode_tail]
  rfl

/-- The explanation that a message gives. -/
def why (message : Text) : Option Text := (some message.trim).filter (!·.isEmpty)

theorem parse_single (form : Form) {rule : Text} (name : RuleName rule) (message : Text)
    (kind : CommentKind) :
    parse? ((single form rule (some message)).encode kind) = some ⟨form, [rule], why message⟩ := by
  have listed : (single form rule (some message)).Listed := by
    refine ⟨fun r hr => ?_, List.nodup_singleton rule⟩
    exact List.mem_singleton.mp hr ▸ name
  rw [parse_encode listed]
  rfl

end Directive

namespace Comment

/-- The comment is a directive that covers the rule. -/
def Suppresses (c : Comment) (rule : Text) : Prop :=
  ∃ d, Directive.parse? c.text = some d ∧ d.suppresses rule = true

theorem merge_cases (c : Comment) (rule : Text) :
    c.merge rule = (c, .notADirective) ∧ Directive.parse? c.text = none ∨
    c.merge rule = (c, .alreadySuppressed) ∧ c.Suppresses rule ∨
    ∃ d, Directive.parse? c.text = some d ∧ d.suppresses rule = false ∧
      c.merge rule =
        (c.setText (Directive.encode { d with rules := d.rules ++ [rule] } c.kind), .merged) := by
  unfold merge
  cases parsed : Directive.parse? c.text with
  | none => exact .inl ⟨rfl, rfl⟩
  | some d =>
    by_cases covered : d.suppresses rule = true
    · refine .inr (.inl ⟨?_, d, parsed, covered⟩)
      simp [Directive.add?, covered]
    · refine .inr (.inr ⟨d, rfl, by simpa using covered, ?_⟩)
      simp [Directive.add?, covered]

theorem merge_parses {c c' : Comment} {rule : Text} (h : c.merge rule = (c', .merged)) :
    c'.span = c.span ∧ c'.kind = c.kind ∧ c'.placement = c.placement ∧ c'.revised = true ∧
      (Directive.parse? c'.text).isSome = true := by
  rcases c.merge_cases rule with ⟨e, -⟩ | ⟨e, -⟩ | ⟨d, -, -, e⟩
  · rw [e] at h
    cases h
  · rw [e] at h
    cases h
  · rw [e] at h
    cases h
    exact ⟨rfl, rfl, rfl, rfl, Directive.parse_encode_isSome _ _⟩

theorem merge_directive {c c' : Comment} {rule : Text} (name : RuleName rule)
    (h : c.merge rule = (c', .merged)) :
    ∃ d, Directive.parse? c.text = some d ∧ d.rules ≠ [] ∧
      Directive.parse? c'.text = some { d with rules := d.rules ++ [rule] } := by
  rcases c.merge_cases rule with ⟨e, -⟩ | ⟨e, -⟩ | ⟨d, parsed, uncovered, e⟩
  · rw [e] at h
    cases h
  · rw [e] at h
    cases h
  · rw [e] at h
    cases h
    have added : d.add? rule = some { d with rules := d.rules ++ [rule] } := by
      simp [Directive.add?, uncovered]
    obtain ⟨listed, -⟩ := (Directive.listed_of_parse parsed).add name added
    refine ⟨d, parsed, ?_, ?_⟩
    · intro none
      simp [Directive.suppresses, none] at uncovered
    · have read := Directive.parse_encode listed c.kind
      simp only [Directive.explanation_of_parse parsed] at read
      exact read

theorem merge_suppresses {c c' : Comment} {rule : Text} (name : RuleName rule)
    (h : c.merge rule = (c', .merged)) : c'.Suppresses rule := by
  obtain ⟨d, -, -, parsed⟩ := merge_directive name h
  exact ⟨_, parsed, by simp [Directive.suppresses]⟩

theorem merge_of_suppresses {c : Comment} {rule : Text} (h : c.Suppresses rule) :
    c.merge rule = (c, .alreadySuppressed) := by
  obtain ⟨d, parsed, covered⟩ := h
  simp [merge, parsed, Directive.add?, covered]

theorem mergeLast_append (cs : List Comment) (c : Comment) (rule : Text) :
    mergeLast (cs ++ [c]) rule = (cs ++ [(c.merge rule).1], (c.merge rule).2) := by
  induction cs with
  | nil => rfl
  | cons d cs ih =>
    cases cs with
    | nil => rfl
    | cons e cs =>
      rw [List.cons_append] at ih ⊢
      rw [List.cons_append, mergeLast, ih]
      rfl

end Comment

namespace Document

/-- Some comment that the root reaches covers the rule. -/
def Suppresses (doc : Document) (rule : Text) : Prop :=
  ∃ id slot c, doc.Reaches id ∧ c ∈ (doc.node id).comments slot ∧ c.Suppresses rule

def Covers (doc : Document) (id : NodeId) (slot : Slot) (rule : Text) : Prop :=
  ∃ cs c, (doc.node id).comments slot = cs ++ [c] ∧ c.Suppresses rule

theorem Covers.suppresses {doc : Document} {id : NodeId} {slot : Slot} {rule : Text}
    (h : doc.Covers id slot rule) (reached : doc.Reaches id) : doc.Suppresses rule := by
  obtain ⟨cs, c, held, covered⟩ := h
  exact ⟨id, slot, c, reached, by simp [held], covered⟩

theorem setComments_comments (n : Node) (slot : Slot) : n.setComments slot (n.comments slot) = n := by
  cases slot <;> rfl

theorem mergeInto_cases (doc : Document) (id : NodeId) (slot : Slot) (rule : Text) :
    doc.mergeInto id slot rule = (doc, .notADirective) ∨
    doc.mergeInto id slot rule = (doc, .alreadySuppressed) ∧ doc.Covers id slot rule ∨
    ∃ cs c c', (doc.node id).comments slot = cs ++ [c] ∧ c.merge rule = (c', .merged) ∧
      doc.mergeInto id slot rule =
        (doc.update id (·.setComments slot (cs ++ [c'])), .merged) := by
  have same : ∀ cs, (doc.node id).comments slot = cs →
      doc.update id (·.setComments slot cs) = doc := by
    rintro cs rfl
    exact doc.update_eq_self id _ (setComments_comments _ slot)
  unfold mergeInto
  rcases List.eq_nil_or_concat ((doc.node id).comments slot) with held | ⟨cs, c, held⟩
  · left
    rw [held, Comment.mergeLast]
    dsimp only
    rw [same [] held]
  · rw [List.concat_eq_append] at held
    rw [held, Comment.mergeLast_append]
    dsimp only
    rcases c.merge_cases rule with ⟨e, -⟩ | ⟨e, covered⟩ | ⟨d, -, -, e⟩
    · left
      rw [e, same _ held]
    · right
      left
      rw [e, same _ held]
      exact ⟨rfl, cs, c, held, covered⟩
    · right
      right
      exact ⟨cs, c, _, rfl, e, by rw [e]⟩

theorem mergeInto_handled {doc : Document} {id : NodeId} {slot : Slot} {c : Comment}
    (last : ((doc.node id).comments slot).getLast? = some c)
    (parses : (Directive.parse? c.text).isSome = true) (rule : Text) :
    (doc.mergeInto id slot rule).2 ≠ .notADirective := by
  obtain ⟨cs, held⟩ := List.getLast?_eq_some_iff.mp last
  unfold mergeInto
  rw [held, Comment.mergeLast_append]
  dsimp only
  rcases c.merge_cases rule with ⟨-, none⟩ | ⟨e, -⟩ | ⟨d, -, -, e⟩
  · rw [none] at parses
    cases parses
  · rw [e]
    exact nofun
  · rw [e]
    exact nofun

def Bare (doc : Document) (id : NodeId) (slot : Slot) : Prop :=
  ∀ c ∈ ((doc.node id).comments slot).getLast?, Directive.parse? c.text = none

theorem bare_of_unread {doc : Document} {id : NodeId} {slot : Slot} {rule : Text}
    (h : (doc.mergeInto id slot rule).2 = .notADirective) : doc.Bare id slot := by
  intro c last
  cases parses : Directive.parse? c.text with
  | none => rfl
  | some d => exact absurd h (mergeInto_handled last (by rw [parses]; rfl) rule)

theorem Covers.mergeInto_eq {doc : Document} {id : NodeId} {slot : Slot} {rule : Text}
    (h : doc.Covers id slot rule) :
    doc.mergeInto id slot rule = (doc, .alreadySuppressed) := by
  obtain ⟨cs, c, held, covered⟩ := h
  unfold mergeInto
  rw [held, Comment.mergeLast_append, Comment.merge_of_suppresses covered]
  dsimp only
  rw [← held, doc.update_eq_self id _ (setComments_comments _ slot)]

end Document
end Quell
