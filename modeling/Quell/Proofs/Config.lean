import Quell.Config
import Quell.Proofs.Annotate.Merge
import Quell.Proofs.Grammar.Rest

/-!
What the values of a checked configuration are written as.

A new directive is meant to be one comment that names one rule. A check of the configuration keeps
most of what would break that out of the rules and the message, but not all: it lets pass a rule
with two dashes or a closing delimiter in it and a message with a line or paragraph separator. The
theorem `Config.check_writes` says that nothing else gets through.
-/
namespace Quell

open Grammar

namespace Text

theorem holds_eq_false {s t : Text} (h : holds s t = false) : ¬ s <:+: t := by
  apply splitOnce?_eq_none
  simpa [holds] using h

end Text

open Text

namespace Comment

/-- The delimiters hold the whole body: a line comment ends with its line, a block comment at the
first closing delimiter. -/
def Holds : CommentKind → Text → Prop
  | .line, body => ∀ c ∈ body, isLineEnd c = false
  | .block, body => ¬ ['*', '/'] <:+: body

def IsSole (kind : CommentKind) (body text : Text) : Prop :=
  (Token.next 0 text false).lexeme = .done ∧
    (Token.next 0 text false).remarks = [⟨kind, body, 0, bytes text⟩]

end Comment

namespace Grammar

theorem Gap.skip_remarks {rs : List Remark} (fuel : Nat) (g : Gap) (h : rs <:+ g.remarks) :
    rs <:+ (g.skip fuel).remarks := by
  induction fuel generalizing g with
  | zero => exact h
  | succ fuel ih =>
    rw [skip]
    split
    · exact ih _ (h.trans (List.suffix_cons _ _))
    · split
      · exact ih _ (h.trans (List.suffix_cons _ _))
      · exact h
    · split
      · exact ih _ h
      · split
        · exact ih _ h
        · exact h
    · exact h

theorem Gap.skip_line (cs : Text) :
    skip ('/' :: '/' :: cs).length ⟨0, '/' :: '/' :: cs, false, [], false⟩ =
      skip ('/' :: cs).length
        ⟨2 + bytes (cs.takeWhile (!isLineEnd ·)), cs.drop (cs.takeWhile (!isLineEnd ·)).length, false,
          [⟨.line, cs.takeWhile (!isLineEnd ·), 0, 2 + bytes (cs.takeWhile (!isLineEnd ·))⟩], false⟩ := by
  rw [List.length_cons, skip]
  simp only [Nat.zero_add]

theorem Gap.skip_block {cs body rest : Text} (h : splitOnce? ['*', '/'] cs = some (body, rest)) :
    skip ('/' :: '*' :: cs).length ⟨0, '/' :: '*' :: cs, false, [], false⟩ =
      skip ('*' :: cs).length ⟨4 + bytes body, rest, body.any isLineEnd,
        [⟨.block, body, 0, 4 + bytes body⟩], false⟩ := by
  rw [List.length_cons, skip]
  simp only [h, Nat.zero_add, Bool.false_or]

theorem Token.next_remarks (pos : Nat) (rest : Text) (fresh : Bool) :
    (Token.next pos rest fresh).remarks =
      (Gap.skip rest.length ⟨pos, rest, fresh, [], false⟩).remarks := by
  unfold Token.next
  dsimp only
  split
  · rfl
  · rfl

end Grammar

namespace Comment

theorem isSole_of_skip {kind : CommentKind} {body text : Text} {fresh : Bool}
    (h : Gap.skip text.length ⟨0, text, false, [], false⟩ =
      ⟨bytes text, [], fresh, [⟨kind, body, 0, bytes text⟩], false⟩) : IsSole kind body text := by
  unfold IsSole Token.next
  dsimp only
  rw [h]
  exact ⟨rfl, rfl⟩

theorem IsSole.eq_of_skip {kind kind' : CommentKind} {body body' text : Text} {fuel hi : Nat} {g : Gap}
    (sole : IsSole kind body text) (first : g.remarks = [⟨kind', body', 0, hi⟩])
    (h : Gap.skip text.length ⟨0, text, false, [], false⟩ = g.skip fuel) : body' = body := by
  have kept := Gap.skip_remarks fuel g (List.suffix_refl _)
  rw [← h, ← Token.next_remarks, sole.2, first] at kept
  have same := kept.eq_of_length rfl
  simp only [List.cons.injEq, Remark.mk.injEq] at same
  exact same.1.2.1

theorem Holds.not_infix_star {body : Text} (holds : Holds .block body) :
    ¬ ['*', '/'] <:+: body ++ ['*'] := by
  rw [List.infix_append_iff]
  rintro (inside | inside | ⟨x, y, e, back, front⟩)
  · exact holds inside
  · exact absurd inside (by decide)
  · rcases List.prefix_cons_iff.mp front with rfl | ⟨t, rfl, nil⟩
    · exact holds (by simpa [e] using back.isInfix)
    · rw [List.prefix_nil.mp nil] at e
      have := congrArg List.getLast? e
      simp at this

theorem splitOnce?_closing {body : Text} (holds : Holds .block body) :
    splitOnce? ['*', '/'] (body ++ ['*', '/']) = some (body, []) := by
  have found : splitOnce? ['*', '/'] (body ++ ['*', '/'] ++ []) = some (body, []) :=
    splitOnce?_append holds.not_infix_star []
  rwa [List.append_nil] at found

theorem isSole_delimit_iff (kind : CommentKind) (body : Text) :
    IsSole kind body (delimit kind body) ↔ Holds kind body := by
  cases kind with
  | line =>
    constructor
    · intro sole c mem
      have whole := sole.eq_of_skip rfl (Gap.skip_line body)
      simpa using List.takeWhile_eq_self_iff.mp whole c mem
    · intro holds
      have whole : body.takeWhile (!isLineEnd ·) = body :=
        List.takeWhile_eq_self_iff.mpr fun c mem => by simp [holds c mem]
      have size : bytes (delimit .line body) = 2 + bytes body := by
        change 1 + (1 + bytes body) = _
        omega
      apply isSole_of_skip
      rw [size, delimit, Gap.skip_line, whole, List.drop_length, Gap.skip_nil]
  | block =>
    constructor
    · intro sole
      cases found : splitOnce? ['*', '/'] (body ++ ['*', '/']) with
      | none => exact absurd (List.suffix_append body _).isInfix (splitOnce?_eq_none found)
      | some parts =>
        have whole := sole.eq_of_skip rfl (Gap.skip_block found)
        exact whole ▸ (splitOnce?_eq_some found).2 (by simp)
    · intro holds
      have size : bytes (delimit .block body) = 4 + bytes body := by
        change 1 + (1 + bytes (body ++ ['*', '/'])) = _
        rw [bytes_append]
        change 1 + (1 + (bytes body + 2)) = _
        omega
      apply isSole_of_skip
      rw [size, delimit, List.cons_append, List.cons_append,
        Gap.skip_block (splitOnce?_closing holds), Gap.skip_nil]

end Comment

theorem isBlank_of_isLineEnd {c : Char} (h : isLineEnd c = true) : isBlank c = true := by
  simp only [isLineEnd, Bool.or_eq_true, beq_iff_eq] at h
  obtain ((rfl | rfl) | rfl) | rfl := h
  · decide
  · decide
  · decide
  · decide

theorem checkMessage_eq_ok {message : Text} (h : checkMessage message = .ok ()) :
    (∀ c ∈ message, c ≠ '\n' ∧ c ≠ '\r') ∧ ¬ ['*', '/'] <:+: message := by
  unfold checkMessage at h
  split at h
  · cases h
  · rename_i oneLine
    split at h
    · cases h
    · rename_i open_
      exact ⟨by simpa using oneLine, holds_eq_false (by simpa using open_)⟩

namespace Config

theorem checkRules_eq_ok {rules : List Text} (h : checkRules rules = .ok ()) :
    ∀ rule ∈ rules, isRuleName rule = true := by
  unfold checkRules at h
  split at h
  · cases h
  · rename_i absent
    simpa using absent

theorem check_eq_ok {c : Config} (h : c.check = .ok ()) :
    checkMessage c.message = .ok () ∧ checkRules c.rules = .ok () := by
  unfold check at h
  cases ignores : checkIgnores c.ignores with
  | error e =>
    rw [ignores] at h
    cases h
  | ok =>
    rw [ignores] at h
    cases message : checkMessage c.message with
    | error e =>
      rw [message] at h
      cases h
    | ok =>
      rw [message] at h
      exact ⟨rfl, h⟩

theorem not_blank_of_isRuleName {rule : Text} (h : isRuleName rule = true) :
    ∀ c ∈ rule, isBlank c = false := by
  intro c mem
  simp only [isRuleName, Bool.and_eq_true, Bool.not_eq_true', List.any_eq_false] at h
  have inside := h.2 c mem
  simp only [Bool.or_eq_true, not_or, Bool.not_eq_true] at inside
  exact inside.2

theorem ruleName_of_isRuleName {rule : Text} (h : isRuleName rule = true)
    (free : ¬ Directive.separator <:+: rule) : RuleName rule where
  nonempty := by
    rintro rfl
    cases h
  trimmed := by
    have solid := not_blank_of_isRuleName h
    have start : trimStart rule = rule :=
      trimStart_eq_self.mpr fun c mem => solid c (List.mem_of_mem_head? mem)
    rw [trim, start]
    exact trimEnd_eq_self.mpr fun c mem => solid c (List.mem_of_getLast? mem)
  comma := by
    intro mem
    simp only [isRuleName, Bool.and_eq_true, Bool.not_eq_true', List.any_eq_false] at h
    exact h.2 _ mem (by simp)
  dashes := free

end Config

namespace Document

theorem directiveText_eq (o : AnnotateOptions) (form : Directive.Form) (rule : Text)
    (kind : CommentKind) :
    directiveText o form rule kind = (' ' :: form.keyword) ++ ' ' :: (rule ++ ' ' ::
      (Directive.separator ++ ' ' :: (o.message ++ if kind = .block then [' '] else []))) := by
  simp [directiveText, Directive.encode, Directive.single, joinWith]

theorem holds_line_iff (o : AnnotateOptions) (form : Directive.Form) (rule : Text) :
    Comment.Holds .line (directiveText o form rule .line) ↔
      (∀ c ∈ rule, isLineEnd c = false) ∧ ∀ c ∈ o.message, isLineEnd c = false := by
  have space : isLineEnd ' ' = false := by decide
  have keyword : ∀ c ∈ form.keyword, isLineEnd c = false := by cases form <;> decide
  have dashes : ∀ c ∈ Directive.separator, isLineEnd c = false := by decide
  rw [directiveText_eq, Comment.Holds]
  simp only [List.forall_mem_append, List.forall_mem_cons, space, true_and]
  constructor
  · rintro ⟨-, rule, -, message, -⟩
    exact ⟨rule, message⟩
  · rintro ⟨rule, message⟩
    exact ⟨keyword, rule, dashes, message, by simp⟩

theorem holds_block_iff (o : AnnotateOptions) (form : Directive.Form) (rule : Text) :
    Comment.Holds .block (directiveText o form rule .block) ↔
      ¬ ['*', '/'] <:+: rule ∧ ¬ ['*', '/'] <:+: o.message := by
  have keyword : ¬ ['*', '/'] <:+: ' ' :: form.keyword := by cases form <;> decide
  have dashes : ¬ ['*', '/'] <:+: Directive.separator := by decide
  have nothing : ¬ ['*', '/'] <:+: ([] : Text) := by decide
  rw [directiveText_eq, Comment.Holds, if_pos rfl]
  simp only [infix_append_cons_iff (c := ' ') (s := ['*', '/']) (by decide), keyword, dashes, nothing,
    false_or, or_false, not_or]

theorem parse_directiveText_iff (o : AnnotateOptions) (form : Directive.Form) {rule : Text}
    (h : Config.isRuleName rule = true) (kind : CommentKind) :
    Directive.parse? (directiveText o form rule kind) =
        some ⟨form, [rule], Directive.why o.message⟩ ↔ ¬ Directive.separator <:+: rule := by
  constructor
  · intro parsed
    have names := (Directive.listed_of_parse parsed).names
    exact (names rule (List.mem_singleton_self rule)).dashes
  · intro free
    exact Directive.parse_single form (Config.ruleName_of_isRuleName h free) o.message kind

end Document

namespace Config

/-- A checked configuration gives line comments that hold their body, unless a separator stands in
the message, and block comments that do, unless the rule has a closing delimiter; both name their
rule alone, unless it has two dashes. -/
theorem check_writes {c : Config} (checked : c.check = .ok ()) {rule : Text} (listed : rule ∈ c.rules)
    (form : Directive.Form) :
    let body := Document.directiveText c.annotateOptions form rule
    (∀ kind, Comment.IsSole kind (body kind) (Comment.delimit kind (body kind)) ↔
      Comment.Holds kind (body kind)) ∧
    (Comment.Holds .line (body .line) ↔ '\u2028' ∉ c.message ∧ '\u2029' ∉ c.message) ∧
    (Comment.Holds .block (body .block) ↔ ¬ ['*', '/'] <:+: rule) ∧
    ∀ kind, Directive.parse? (body kind) = some ⟨form, [rule], Directive.why c.message⟩ ↔
      ¬ Directive.separator <:+: rule := by
  obtain ⟨message, rules⟩ := check_eq_ok checked
  obtain ⟨oneLine, opens⟩ := checkMessage_eq_ok message
  have name := checkRules_eq_ok rules rule listed
  refine ⟨fun kind => Comment.isSole_delimit_iff kind _, ?_, ?_,
    fun kind => Document.parse_directiveText_iff c.annotateOptions form name kind⟩
  · have solid : ∀ x ∈ rule, isLineEnd x = false := by
      intro x mem
      by_contra ends
      have blank := isBlank_of_isLineEnd (by simpa using ends)
      rw [not_blank_of_isRuleName name x mem] at blank
      cases blank
    rw [Document.holds_line_iff]
    constructor
    · rintro ⟨-, free⟩
      exact ⟨fun mem => absurd (free _ mem) (by decide), fun mem => absurd (free _ mem) (by decide)⟩
    · rintro ⟨line, paragraph⟩
      refine ⟨solid, fun x mem => ?_⟩
      have := oneLine x mem
      have : x ≠ '\u2028' := fun e => line (e ▸ mem)
      have : x ≠ '\u2029' := fun e => paragraph (e ▸ mem)
      simp_all [isLineEnd]
  · rw [Document.holds_block_iff]
    exact ⟨And.left, fun free => ⟨free, opens⟩⟩

/-- A usual configuration writes comments that are one each and name their rule. -/
theorem check_writes_usual :
    let c : Config := { rules := ["no-alert".toList] }
    let body := Document.directiveText c.annotateOptions .nextLine "no-alert".toList
    c.check = .ok () ∧
    (∀ kind, Comment.IsSole kind (body kind) (Comment.delimit kind (body kind))) ∧
    ∀ kind, Directive.parse? (body kind) =
      some ⟨.nextLine, ["no-alert".toList], some defaultMessage⟩ := by
  have checked : Config.check { rules := ["no-alert".toList] } = .ok () := by decide +kernel
  have listed : "no-alert".toList ∈ ["no-alert".toList] := List.mem_singleton_self _
  obtain ⟨sole, line, block, parsed⟩ := check_writes checked listed .nextLine
  refine ⟨checked, fun kind => (sole kind).mpr ?_, fun kind => ?_⟩
  · cases kind with
    | line => exact line.mpr (by decide +kernel)
    | block => exact block.mpr (by decide +kernel)
  · rw [(parsed kind).mpr (by decide +kernel)]
    decide +kernel

/-- What passes and is not written as meant: a rule with two dashes, whose directive names another
rule, a rule that closes its comment, and a message that ends its line. -/
theorem check_passes_unwritable :
    let dashes : Config := { message := "m".toList, rules := ["a--b".toList] }
    let closing : Config := { message := "m".toList, rules := ["a*/b".toList] }
    let ending : Config := { message := "m\u2028n".toList, rules := ["a".toList] }
    let text (c : Config) (rule : String) :=
      Document.directiveText c.annotateOptions .nextLine rule.toList
    (dashes.check = .ok () ∧ Directive.parse? (text dashes "a--b" .line) =
      some ⟨.nextLine, ["a".toList], some "b -- m".toList⟩) ∧
    (closing.check = .ok () ∧ ¬ Comment.IsSole .block (text closing "a*/b" .block)
      (Comment.delimit .block (text closing "a*/b" .block))) ∧
    (ending.check = .ok () ∧ ¬ Comment.IsSole .line (text ending "a" .line)
      (Comment.delimit .line (text ending "a" .line))) := by
  refine ⟨by decide +kernel, ⟨by decide +kernel, ?_⟩, by decide +kernel, ?_⟩
  · rw [Comment.isSole_delimit_iff]
    exact not_not_intro (by decide +kernel)
  · rw [Comment.isSole_delimit_iff]
    exact fun holds => absurd (holds '\u2028' (by decide +kernel)) (by decide)

end Config
end Quell
