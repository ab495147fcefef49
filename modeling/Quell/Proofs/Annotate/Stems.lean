import Quell.Proofs.Annotate.Written
import Quell.Proofs.Config

/-!
What the comments of an annotated document stem from.

A comment of the source keeps its text or is a directive that was written anew with rules that it did
not name (`Comment.Stems`). The new text never ends the old comment: the rule that stands last in it
would have been read from the old one (`Directive.Regrown.line_ne`, `Directive.Regrown.block_ne`).
-/
namespace Quell

open Text Grammar

namespace Directive

theorem parse_split {t : Text} {d : Directive} (h : parse? t = some d) :
    ∃ front rest, t = front ++ rest ∧ ',' ∉ front ∧ d = ofBody d.form rest := by
  obtain ⟨v, split, blank, -⟩ := trimStart_spec t
  have free : ',' ∉ v := fun mem => absurd (allBlank_iff.mp blank _ mem) (by decide)
  have behind : ∀ {form : Form} {rest : Text},
      behindKeyword? form.keyword (trimStart t) = some rest →
      ∃ front, t = front ++ rest ∧ ',' ∉ front := by
    intro form rest h
    have word : ',' ∉ form.keyword := by cases form <;> decide
    unfold behindKeyword? at h
    split at h
    · rename_i found
      cases h
      exact ⟨t, by rw [List.append_nil], by rw [split, after?_eq_some.mp found]; simp [free, word]⟩
    · rename_i c tail found
      split at h
      · rename_i gap
        cases h
        have other : ',' ≠ c := fun e => absurd (e ▸ gap) (by decide)
        refine ⟨v ++ form.keyword ++ [c], ?_, by simp [free, word, other]⟩
        rw [split, after?_eq_some.mp found]
        simp
      · cases h
    · cases h
  have form_eq : ∀ form body, (ofBody form body).form = form := by
    intro form body
    unfold ofBody
    split <;> rfl
  unfold parse? at h
  dsimp only at h
  split at h
  · rename_i rest found
    cases h
    obtain ⟨front, whole, lacks⟩ := behind found
    exact ⟨front, rest, whole, lacks, by rw [form_eq]⟩
  · obtain ⟨rest, found, rfl⟩ := Option.map_eq_some_iff.mp h
    obtain ⟨front, whole, lacks⟩ := behind found
    exact ⟨front, rest, whole, lacks, by rw [form_eq]⟩

theorem mem_ruleList_last {rule w : Text} (name : RuleName rule) (blank : allBlank w = true)
    (a : Text) : rule ∈ ruleList (a ++ ',' :: ' ' :: (rule ++ w)) := by
  have lacks : ',' ∉ ' ' :: (rule ++ w) := by
    have free : ',' ∉ w := fun mem => absurd (allBlank_iff.mp blank _ mem) (by decide)
    simp [name.comma, free]
  have entry : trim (' ' :: (rule ++ w)) = rule := trim_around (v := [' ']) rfl blank name
  unfold ruleList
  rw [splitOn_append_cons, splitOn_of_not_mem lacks, List.map_append, List.map_singleton, entry]
  exact List.mem_filter.mpr ⟨by simp, by simpa using name.nonempty⟩

def behindRules : Option Text → Text
  | some why => ' ' :: separator ++ ' ' :: why
  | none => []

theorem encode_concat (form : Form) {rules : List Text} (some : rules ≠ []) (last : Text)
    (explanation : Option Text) (kind : CommentKind) :
    ∃ a w, encode ⟨form, rules ++ [last], explanation⟩ kind =
      a ++ ',' :: ' ' :: (last ++ behindRules explanation ++ w) ∧ allBlank w = true := by
  refine ⟨' ' :: form.keyword ++ ' ' :: joinWith [',', ' '] rules,
    if kind = .block then [' '] else [], ?_, by cases kind <;> rfl⟩
  have listed : (rules ++ [last]).isEmpty = false := by simp
  unfold encode
  simp only [listed, Bool.false_eq_true, if_false]
  rw [joinWith_concat _ _ some]
  cases explanation <;> simp [behindRules]

theorem not_dashes_end {rule a b : Text} (name : RuleName rule) :
    b ++ separator ≠ a ++ ',' :: ' ' :: rule := by
  intro same
  have dashes : separator <:+ a ++ [','] ++ (' ' :: rule) := ⟨b, by rw [same]; simp⟩
  have inside : separator <:+ ' ' :: rule :=
    List.suffix_of_suffix_length_le dashes (List.suffix_append _ _) (by
      have := List.length_pos_of_ne_nil name.nonempty
      simp only [separator, List.length_cons, List.length_nil]
      omega)
  rcases List.suffix_cons_iff.mp inside with whole | inside
  · cases whole
  · exact name.dashes inside.isInfix

theorem mem_rules_last {rule w a body : Text} {form : Form} (name : RuleName rule)
    (blank : allBlank w = true)
    (split : body = a ++ ',' :: ' ' :: (rule ++ behindRules (ofBody form body).explanation ++ w)) :
    rule ∈ (ofBody form body).rules := by
  have dashes : Firm separator := ⟨'-', rfl, by decide⟩
  cases found : splitOnce? separator body with
  | none =>
    have read : ofBody form body = ⟨form, distinct (ruleList body), none⟩ := by
      unfold ofBody
      rw [found]
    rw [read] at split ⊢
    simp only [behindRules, List.append_nil] at split
    rw [mem_distinct, split]
    exact mem_ruleList_last name blank a
  | some x =>
    obtain ⟨rules, tail⟩ := x
    have whole := (splitOnce?_eq_some found).1
    have read : ofBody form body = ⟨form, distinct (ruleList rules),
        (some (trim tail)).filter (!·.isEmpty)⟩ := by
      unfold ofBody
      rw [found]
    obtain ⟨v, u, spread, front, back⟩ := trim_spec tail
    rw [read] at split ⊢
    by_cases empty : trim tail = []
    · -- There are only blanks behind the dashes, so dashes and rule end in the same place.
      rw [empty] at split spread
      simp only [behindRules, Option.filter, List.isEmpty_nil, Bool.not_true, Bool.false_eq_true,
        if_false, List.append_nil] at split spread
      have blanks : allBlank tail = true := by rw [spread, allBlank_append, front, back]; rfl
      have trimmed := congrArg trimEnd (whole.symm.trans split)
      have regroup : a ++ ',' :: ' ' :: (rule ++ w) = (a ++ [',', ' '] ++ rule) ++ w := by simp
      rw [(Firm.append rules dashes).trimEnd_append blanks, regroup,
        (Firm.append _ (firm_of_trimmed name.nonempty name.trimmed)).trimEnd_append blank] at trimmed
      exact absurd (by rw [trimmed]; simp) (not_dashes_end (a := a) (b := rules) name)
    · -- The explanation is the same in both readings, and so are the dashes in front of it.
      have firm := firm_of_trimmed empty (trim_idem tail)
      have explained : (some (trim tail)).filter (!·.isEmpty) = some (trim tail) := by
        simp [Option.filter, empty]
      rw [explained] at split
      have ends : rules ++ separator ++ v ++ trim tail =
          a ++ ',' :: ' ' :: (rule ++ [' ']) ++ separator ++ [' '] ++ trim tail := by
        have trimmed := congrArg trimEnd (whole.symm.trans split)
        have old : rules ++ separator ++ tail = (rules ++ separator ++ v ++ trim tail) ++ u := by
          conv_lhs => rw [spread]
          simp only [List.append_assoc]
        have new : a ++ ',' :: ' ' :: (rule ++ behindRules (some (trim tail)) ++ w) =
            (a ++ ',' :: ' ' :: (rule ++ [' ']) ++ separator ++ [' '] ++ trim tail) ++ w := by
          simp [behindRules]
        rwa [old, new, (Firm.append _ firm).trimEnd_append back,
          (Firm.append _ firm).trimEnd_append blank] at trimmed
      have listed := congrArg trimEnd (List.append_cancel_right ends)
      rw [(Firm.append _ dashes).trimEnd_append front,
        (Firm.append _ dashes).trimEnd_append (by decide)] at listed
      rw [mem_distinct, List.append_cancel_right listed]
      exact mem_ruleList_last name (by decide) a

def Regrown (kind : CommentKind) (old new : Text) : Prop :=
  ∃ d more, parse? old = some d ∧ d.rules ≠ [] ∧ more ≠ [] ∧
    Listed { d with rules := d.rules ++ more } ∧
    new = encode { d with rules := d.rules ++ more } kind

theorem Regrown.body_ne {kind : CommentKind} {old new : Text} (grown : Regrown kind old new)
    {o a w : Text} (plain : ',' ∉ o) (blank : allBlank w = true) : o ++ old ≠ a ++ new ++ w := by
  obtain ⟨d, more, parsed, some, more_some, listed, rfl⟩ := grown
  obtain ⟨front, rest, rfl, free, read⟩ := parse_split parsed
  obtain ⟨others, last, rfl⟩ := List.eq_nil_or_concat more |>.resolve_left more_some
  rw [List.concat_eq_append, ← List.append_assoc d.rules] at listed ⊢
  have name : RuleName last := listed.names last (by simp)
  have new_rule : last ∉ d.rules := by
    have apart := listed.nodup
    intro mem
    exact List.disjoint_of_nodup_append apart (List.mem_append_left _ mem) (by simp)
  obtain ⟨b, v, spelled, blank'⟩ := encode_concat d.form (by simp [some] : d.rules ++ others ≠ []) last
    d.explanation kind
  rw [spelled]
  intro same
  have regroup : a ++ (b ++ ',' :: ' ' :: (last ++ behindRules d.explanation ++ v)) ++ w =
      (a ++ b) ++ ',' :: ' ' :: (last ++ behindRules d.explanation ++ (v ++ w)) := by simp
  rw [regroup, ← List.append_assoc] at same
  -- The last comma of the new text stands behind the keyword of the old one.
  obtain ⟨c, behind⟩ : ∃ c, rest = c ++ ',' :: ' ' :: (last ++ behindRules d.explanation ++ (v ++ w)) := by
    rcases List.append_eq_append_iff.mp same with ⟨c, -, tail⟩ | ⟨c, before, tail⟩
    · exact ⟨c, tail⟩
    · cases c with
      | nil => exact ⟨[], tail.symm⟩
      | cons x c =>
        obtain ⟨rfl, -⟩ := List.cons.inj tail
        have lacks : ',' ∉ o ++ front := by simp [plain, free]
        exact absurd (by rw [before]; simp) lacks
  rw [read] at behind new_rule
  exact new_rule (mem_rules_last name (by rw [allBlank_append, blank', blank]; rfl) behind)

end Directive

namespace Comment

/-- What a comment of the source has become: it stands there as it was read, and has that text still
or was written anew. -/
def Stems (source : Text) (c : Comment) : Prop :=
  ∀ s, c.span = some s → ∃ old, slice? s.lo s.hi source = some (delimit c.kind old) ∧
    Holds c.kind old ∧ (c.revised = false → c.text = old) ∧
    (c.revised = true → Directive.Regrown c.kind old c.text)

/-- A rule more, and the comment still stems from what it was. -/
theorem Stems.merge {source rule : Text} {c c' : Comment} (stems : c.Stems source) (name : RuleName rule)
    (merged : c.merge rule = (c', .merged)) : c'.Stems source := by
  rcases c.merge_cases rule with ⟨e, -⟩ | ⟨e, -⟩ | ⟨d, parsed, uncovered, e⟩
  · rw [e] at merged
    cases merged
  · rw [e] at merged
    cases merged
  · rw [e] at merged
    cases merged
    have some : d.rules ≠ [] := by
      intro none
      simp [Directive.suppresses, none] at uncovered
    have listed := ((Directive.clean_of_parse parsed).add name uncovered).listed
    intro s span
    obtain ⟨old, found, holds, still, grown⟩ := stems s span
    refine ⟨old, found, holds, fun kept => Bool.noConfusion kept, fun _ => ?_⟩
    cases revised : c.revised with
    | false =>
      rw [still revised] at parsed
      exact ⟨d, [rule], parsed, some, List.cons_ne_nil _ _, listed, rfl⟩
    | true =>
      obtain ⟨d₀, more, parsed₀, some₀, -, listed₀, text⟩ := grown revised
      have trimmed := Directive.explanation_of_parse parsed₀
      have clean : Directive.Clean { d₀ with rules := d₀.rules ++ more } := ⟨listed₀, trimmed⟩
      rw [text, clean.parse_encode] at parsed
      cases parsed
      refine ⟨d₀, more ++ [rule], parsed₀, some₀, by simp, ?_, ?_⟩
      · rwa [← List.append_assoc]
      · simp [setText]

end Comment
end Quell
