import Mathlib.Data.List.Nodup
import Quell.Comment
import Quell.Proofs.Text.Segments

/-!
Directives survive being written and read.

A rule name is what a rule list can hold as one entry. What is read from a comment lists rule names
once each; written out again it is read as the same directive, with the explanation trimmed.
-/
namespace Quell

namespace Text

theorem after?_append (p t : Text) : after? p (p ++ t) = some t := by
  induction p with
  | nil => rfl
  | cons c cs ih => rw [List.cons_append, after?, if_pos rfl, ih]

theorem after?_eq_some {p t r : Text} : after? p t = some r ↔ t = p ++ r := by
  constructor
  · intro h
    induction p generalizing t with
    | nil => exact Option.some.inj h
    | cons c cs ih =>
      cases t with
      | nil => cases h
      | cons d ds =>
        rw [after?] at h
        split at h
        · rename_i same
          rw [same, ih h, List.cons_append]
        · cases h
  · rintro rfl
    exact after?_append p r

theorem splitOnce?_eq_none {sep t : Text} (h : splitOnce? sep t = none) : ¬ sep <:+: t := by
  induction t with
  | nil =>
    rintro ⟨a, b, e⟩
    have : sep = [] := by
      have := List.append_eq_nil_iff.mp e
      exact (List.append_eq_nil_iff.mp this.1).2
    rw [splitOnce?, this] at h
    cases h
  | cons c cs ih =>
    rw [splitOnce?] at h
    split at h
    · cases h
    · rename_i absent
      rw [List.infix_cons_iff]
      rintro (⟨r, e⟩ | inside)
      · rw [after?_eq_some.mpr e.symm] at absent
        cases absent
      · exact ih (Option.map_eq_none_iff.mp h) inside

theorem splitOnce?_eq_some {sep t a b : Text} (h : splitOnce? sep t = some (a, b)) :
    t = a ++ sep ++ b ∧ (sep ≠ [] → ¬ sep <:+: a) := by
  induction t generalizing a with
  | nil =>
    rw [splitOnce?] at h
    split at h
    · rename_i empty
      cases h
      exact ⟨by simpa using empty, fun ne => absurd (by simpa using empty) ne⟩
    · cases h
  | cons c cs ih =>
    rw [splitOnce?] at h
    split at h
    · rename_i rest found
      cases h
      refine ⟨after?_eq_some.mp found, fun ne inside => ne ?_⟩
      exact List.infix_nil.mp inside
    · rename_i absent
      obtain ⟨⟨a', b'⟩, found, e⟩ := Option.map_eq_some_iff.mp h
      cases e
      obtain ⟨split, free⟩ := ih found
      refine ⟨by rw [split]; rfl, fun ne => ?_⟩
      rw [List.infix_cons_iff]
      rintro (⟨r, e⟩ | inside)
      · have : c :: cs = sep ++ (r ++ sep ++ b) := by
          rw [split, ← List.cons_append, ← List.cons_append, ← e]
          simp only [List.append_assoc]
        rw [after?_eq_some.mpr this] at absent
        cases absent
      · exact free ne inside

theorem splitOnce?_append {sep a : Text} (first : ¬ sep <:+: a ++ sep.dropLast) (b : Text) :
    splitOnce? sep (a ++ sep ++ b) = some (a, b) := by
  have ne : sep ≠ [] := fun e => first (e ▸ List.nil_infix)
  induction a with
  | nil =>
    obtain ⟨s, ss, rfl⟩ := List.exists_cons_of_ne_nil ne
    simp only [List.nil_append, List.cons_append, splitOnce?]
    rw [← List.cons_append, after?_append]
  | cons c cs ih =>
    have absent : after? sep (c :: cs ++ sep ++ b) = none := by
      by_contra found
      obtain ⟨r, e⟩ := Option.ne_none_iff_exists'.mp found
      have split := after?_eq_some.mp e
      apply first
      have long : c :: cs ++ sep.dropLast <+: c :: cs ++ sep ++ b := by
        refine List.IsPrefix.trans ?_ (List.prefix_append _ b)
        exact (List.prefix_append_right_inj _).mpr (List.dropLast_prefix sep)
      have short : sep <+: c :: cs ++ sep ++ b := ⟨r, split.symm⟩
      refine (List.prefix_of_prefix_length_le short long ?_).isInfix
      have := List.length_pos_of_ne_nil ne
      simp only [List.length_append, List.length_cons, List.length_dropLast]
      omega
    simp only [List.cons_append] at absent ⊢
    rw [splitOnce?, absent]
    simp only
    rw [ih fun inside => first (inside.trans (List.suffix_cons c _).isInfix)]
    rfl

end Text

section Firm

open Text

def Firm (t : Text) : Prop := ∃ c, t.getLast? = some c ∧ isBlank c = false

theorem Firm.append (a : Text) {b : Text} (firm : Firm b) : Firm (a ++ b) := by
  obtain ⟨c, last, solid⟩ := firm
  exact ⟨c, by rw [List.getLast?_append, last]; rfl, solid⟩

theorem firm_of_trimmed {t : Text} (nonempty : t ≠ []) (trimmed : trim t = t) : Firm t := by
  have ends := trimEnd_eq_self.mp (trimEnd_of_trim trimmed)
  have last := List.getLast?_eq_some_getLast nonempty
  exact ⟨t.getLast nonempty, last, ends _ last⟩

theorem Firm.trimEnd_eq {t : Text} (firm : Firm t) : trimEnd t = t := by
  obtain ⟨c, last, solid⟩ := firm
  rw [trimEnd_eq_self, last]
  rintro _ ⟨⟩
  exact solid

theorem Firm.trimEnd_append {t w : Text} (firm : Firm t) (blank : allBlank w = true) :
    trimEnd (t ++ w) = t := by
  rw [trimEnd_append_of_blank blank, firm.trimEnd_eq]

theorem firm_joinWith (sep : Text) {rules : List Text} (nonempty : rules ≠ [])
    (each : ∀ rule ∈ rules, Firm rule) : Firm (joinWith sep rules) := by
  induction rules with
  | nil => exact absurd rfl nonempty
  | cons rule rest ih =>
    cases rest with
    | nil => exact each rule List.mem_cons_self
    | cons next rest =>
      exact Firm.append _ (ih (List.cons_ne_nil _ _) fun r hr => each r (List.mem_cons_of_mem _ hr))

end Firm

/-- A text that a rule list can hold as one entry. -/
structure RuleName (rule : Text) : Prop where
  nonempty : rule ≠ []
  trimmed : rule.trim = rule
  comma : ',' ∉ rule
  dashes : ¬ Directive.separator <:+: rule

namespace Directive

open Text

structure Listed (d : Directive) : Prop where
  names : ∀ rule ∈ d.rules, RuleName rule
  nodup : d.rules.Nodup

theorem distinct_spec (entries kept : List Text) (nodup : kept.Nodup) :
    (entries.foldl (fun kept r => if kept.contains r then kept else kept ++ [r]) kept).Nodup ∧
    ∀ r, r ∈ entries.foldl (fun kept r => if kept.contains r then kept else kept ++ [r]) kept ↔
      r ∈ kept ∨ r ∈ entries := by
  induction entries generalizing kept with
  | nil => exact ⟨nodup, fun r => by simp⟩
  | cons e entries ih =>
    rw [List.foldl_cons]
    by_cases known : e ∈ kept
    · rw [if_pos (by simpa using known)]
      refine ⟨(ih kept nodup).1, fun r => ?_⟩
      rw [(ih kept nodup).2 r, List.mem_cons]
      constructor
      · rintro (h | h)
        · exact .inl h
        · exact .inr (.inr h)
      · rintro (h | rfl | h)
        · exact .inl h
        · exact .inl known
        · exact .inr h
    · rw [if_neg (by simpa using known)]
      have longer : (kept ++ [e]).Nodup := by
        rw [← List.concat_eq_append]
        exact nodup.concat known
      refine ⟨(ih _ longer).1, fun r => ?_⟩
      rw [(ih _ longer).2 r, List.mem_append, List.mem_singleton, List.mem_cons, or_assoc]

theorem nodup_distinct (entries : List Text) : (distinct entries).Nodup :=
  (distinct_spec entries [] List.nodup_nil).1

theorem mem_distinct {entries : List Text} {r : Text} : r ∈ distinct entries ↔ r ∈ entries := by
  unfold distinct
  rw [(distinct_spec entries [] List.nodup_nil).2 r]
  simp

theorem distinct_of_nodup {entries : List Text} (nodup : entries.Nodup) :
    distinct entries = entries := by
  have from_kept : ∀ (entries kept : List Text), (kept ++ entries).Nodup →
      entries.foldl (fun kept r => if kept.contains r then kept else kept ++ [r]) kept =
        kept ++ entries := by
    intro entries
    induction entries with
    | nil => simp
    | cons e entries ih =>
      intro kept nodup
      have new : e ∉ kept := fun h =>
        (List.disjoint_of_nodup_append nodup) h (by simp)
      rw [List.foldl_cons, if_neg (by simpa using new), ih _ (by simpa using nodup)]
      simp
  exact from_kept entries [] nodup

theorem ruleName_of_mem_ruleList {value rule : Text} (free : ¬ separator <:+: value)
    (h : rule ∈ ruleList value) : RuleName rule := by
  unfold ruleList at h
  rw [List.mem_filter, List.mem_map] at h
  obtain ⟨⟨part, mem, rfl⟩, ne⟩ := h
  have inside := infix_of_trim part
  refine ⟨by simpa using ne, trim_idem part, ?_, ?_⟩
  · exact fun h => not_mem_of_mem_splitOn mem (inside.subset h)
  · exact fun h => free (h.trans (inside.trans (infix_of_mem_splitOn mem)))

theorem trim_around {v w rule : Text} (hv : allBlank v = true) (hw : allBlank w = true)
    (name : RuleName rule) : trim (v ++ rule ++ w) = rule := by
  rw [trim_append_of_blank hv hw, name.trimmed]

theorem ruleList_joinWith {v w : Text} (hv : allBlank v = true) (hw : allBlank w = true)
    {rules : List Text} (names : ∀ rule ∈ rules, RuleName rule) :
    ruleList (v ++ joinWith [',', ' '] rules ++ w) = rules := by
  have comma : ∀ {t : Text}, allBlank t = true → ',' ∉ t := fun blank h =>
    absurd (allBlank_iff.mp blank _ h) (by decide)
  induction rules generalizing v with
  | nil =>
    have blank : allBlank (v ++ w) = true := by rw [allBlank_append, hv, hw]; rfl
    have empty : trim (v ++ w) = [] := by
      have := trim_append_of_blank hv hw []
      rw [List.append_nil] at this
      exact this
    unfold ruleList
    rw [joinWith, List.append_nil, splitOn_of_not_mem (comma blank)]
    simp [empty]
  | cons rule rules ih =>
    have name := names rule (by simp)
    cases rules with
    | nil =>
      unfold ruleList
      have free : ',' ∉ v ++ rule ++ w := by
        simp only [List.mem_append, not_or]
        exact ⟨⟨comma hv, name.comma⟩, comma hw⟩
      rw [joinWith, splitOn_of_not_mem free, List.map_singleton, trim_around hv hw name]
      simp [name.nonempty]
    | cons next rest =>
      have tail := ih (v := [' ']) (by decide) fun r hr => names r (by simp [hr])
      have free : ',' ∉ v ++ rule := by
        simp only [List.mem_append, not_or]
        exact ⟨comma hv, name.comma⟩
      have shape : v ++ joinWith [',', ' '] (rule :: next :: rest) ++ w =
          (v ++ rule) ++ ',' :: ([' '] ++ joinWith [',', ' '] (next :: rest) ++ w) := by
        simp [joinWith]
      have front : trim (v ++ rule) = rule := by
        have := trim_around (w := []) hv rfl name
        rwa [List.append_nil] at this
      unfold ruleList at tail ⊢
      rw [shape, splitOn_append free, List.map_cons, front, List.filter_cons_of_pos
        (by simpa using name.nonempty), tail]

theorem listed_ofBody (form : Form) (body : Text) : (ofBody form body).Listed := by
  unfold ofBody
  split
  · rename_i rules why found
    have free := (splitOnce?_eq_some found).2 (by decide)
    exact ⟨fun r hr => ruleName_of_mem_ruleList free (mem_distinct.mp hr), nodup_distinct _⟩
  · rename_i absent
    have free := splitOnce?_eq_none absent
    exact ⟨fun r hr => ruleName_of_mem_ruleList free (mem_distinct.mp hr), nodup_distinct _⟩

theorem listed_of_parse {t : Text} {d : Directive} (h : parse? t = some d) : d.Listed := by
  unfold parse? at h
  dsimp only at h
  split at h
  · cases h
    exact listed_ofBody _ _
  · obtain ⟨rest, -, rfl⟩ := Option.map_eq_some_iff.mp h
    exact listed_ofBody _ _

/-- What is written behind the keyword. -/
def tail (d : Directive) (kind : CommentKind) : Text :=
  (if d.rules.isEmpty then [] else ' ' :: joinWith [',', ' '] d.rules)
    ++ (match d.explanation with
      | some why => ' ' :: separator ++ ' ' :: why
      | none => [])
    ++ (if kind = .block then [' '] else [])

theorem encode_eq (d : Directive) (kind : CommentKind) :
    d.encode kind = ' ' :: d.form.keyword ++ d.tail kind := by
  have regroup : ∀ a b c e : Text, a ++ b ++ c ++ e = a ++ (b ++ c ++ e) := by
    intro a b c e
    simp only [List.append_assoc]
  exact regroup _ _ _ _

theorem tail_head (d : Directive) (kind : CommentKind) :
    d.tail kind = [] ∨ ∃ rest, d.tail kind = ' ' :: rest := by
  unfold tail
  cases d.rules with
  | cons r rs => exact .inr ⟨_, by simp only [List.isEmpty_cons]; rfl⟩
  | nil =>
    cases d.explanation with
    | some why => exact .inr ⟨_, rfl⟩
    | none => cases kind with
      | line => exact .inl rfl
      | block => exact .inr ⟨_, rfl⟩

theorem parse_encode_tail (d : Directive) (kind : CommentKind) :
    parse? (d.encode kind) = some (ofBody d.form (d.tail kind).tail) := by
  have behind : behindKeyword? d.form.keyword (d.form.keyword ++ d.tail kind) =
      some (d.tail kind).tail := by
    unfold behindKeyword?
    rw [after?_append]
    rcases tail_head d kind with h | ⟨rest, h⟩
    · rw [h]
      rfl
    · rw [h]
      rfl
  have start : trimStart (d.encode kind) = d.form.keyword ++ d.tail kind := by
    rw [encode_eq, show (' ' :: d.form.keyword ++ d.tail kind) =
      [' '] ++ (d.form.keyword ++ d.tail kind) from rfl, trimStart_append_of_blank (by decide)]
    cases d.form <;> rfl
  unfold parse?
  rw [start]
  cases form : d.form with
  | nextLine =>
    rw [form] at behind
    simp only [behind]
  | sameLine =>
    rw [form] at behind
    have other : behindKeyword? Form.nextLine.keyword (Form.sameLine.keyword ++ d.tail kind) =
        none := rfl
    simp only [other, behind, Option.map_some]

theorem no_dashes_joinWith {rules : List Text} (names : ∀ rule ∈ rules, RuleName rule) :
    ¬ separator <:+: joinWith [',', ' '] rules ++ [' ', '-'] := by
  -- Two dashes stand in one of two neighbouring texts if a third character stands between them.
  have apart : ∀ (a b : Text) (c : Char), c ≠ '-' → ¬ separator <:+: a → ¬ separator <:+: b →
      ¬ separator <:+: a ++ c :: b := by
    intro a b c hc ha hb
    rw [List.infix_append_iff]
    rintro (h | h | ⟨x, y, split, hx, hy⟩)
    · exact ha h
    · rw [List.infix_cons_iff] at h
      rcases h with ⟨r, e⟩ | h
      · exact hc (by simpa [separator] using (congrArg List.head? e).symm)
      · exact hb h
    · cases y with
      | nil => exact ha (by rw [split, List.append_nil]; exact hx.isInfix)
      | cons d ds =>
        obtain ⟨r, e⟩ := hy
        have : d = c := by simpa using congrArg List.head? e
        subst this
        have mem : d ∈ separator := by rw [split]; simp
        simp only [separator, List.mem_cons, List.not_mem_nil, or_false, or_self] at mem
        exact hc mem
  induction rules with
  | nil => decide
  | cons rule rules ih =>
    have name := names rule (by simp)
    cases rules with
    | nil => exact apart rule ['-'] ' ' (by decide) name.dashes (by decide)
    | cons next rest =>
      have later := ih fun r hr => names r (by simp [hr])
      have inner := apart [] _ ' ' (by decide) (by decide) later
      have shape : joinWith [',', ' '] (rule :: next :: rest) ++ [' ', '-'] =
          rule ++ ',' :: ([] ++ ' ' :: (joinWith [',', ' '] (next :: rest) ++ [' ', '-'])) := by
        simp [joinWith]
      rw [shape]
      exact apart rule _ ',' (by decide) name.dashes inner

theorem splitOnce?_of_free {t : Text} (free : ¬ separator <:+: t) :
    splitOnce? separator t = none := by
  cases found : splitOnce? separator t with
  | none => rfl
  | some x =>
    obtain ⟨a, b⟩ := x
    exact absurd ⟨a, b, (splitOnce?_eq_some found).1.symm⟩ free

theorem parse_encode {d : Directive} (listed : d.Listed) (kind : CommentKind) :
    parse? (d.encode kind) =
      some { d with explanation := (d.explanation.map trim).filter (!·.isEmpty) } := by
  rw [parse_encode_tail]
  congr 1
  obtain ⟨form, rules, explanation⟩ := d
  have names := listed.names
  have same : distinct rules = rules := distinct_of_nodup listed.nodup
  have free := no_dashes_joinWith names
  simp only at names free
  -- A block comment ends in a blank that does not count.
  obtain ⟨w, hw, blank⟩ : ∃ w, (if kind = .block then [' '] else []) = w ∧ allBlank w = true := by
    cases kind
    · exact ⟨[], rfl, rfl⟩
    · exact ⟨[' '], rfl, rfl⟩
  cases explanation with
  | none =>
    cases rules with
    | nil => cases kind <;> rfl
    | cons r rs =>
      have text : (tail ⟨form, r :: rs, none⟩ kind).tail =
          [] ++ joinWith [',', ' '] (r :: rs) ++ w := by
        simp [tail, hw]
      have clean : ¬ separator <:+: [] ++ joinWith [',', ' '] (r :: rs) ++ w := by
        refine fun h => free (h.trans ?_)
        rw [List.nil_append]
        cases kind
        · exact ⟨[], [' ', '-'], by simp [← hw]⟩
        · exact ⟨[], ['-'], by simp [← hw]⟩
      rw [text, ofBody, splitOnce?_of_free clean]
      simp only [ruleList_joinWith (v := []) rfl blank names, same]
      rfl
  | some why =>
    have trimmed : trim (' ' :: why ++ w) = trim why := trim_append_of_blank (w := [' ']) rfl blank why
    cases rules with
    | nil =>
      have text : (tail ⟨form, [], some why⟩ kind).tail =
          [] ++ separator ++ (' ' :: why ++ w) := by
        simp [tail, hw]
      rw [text, ofBody, splitOnce?_append (by decide)]
      simp only [trimmed]
      rfl
    | cons r rs =>
      have text : (tail ⟨form, r :: rs, some why⟩ kind).tail =
          ([] ++ joinWith [',', ' '] (r :: rs) ++ [' ']) ++ separator ++ (' ' :: why ++ w) := by
        simp [tail, hw]
      rw [text, ofBody, splitOnce?_append (by simpa [separator] using free)]
      simp only [trimmed, ruleList_joinWith (v := []) (w := [' ']) rfl rfl names, same]
      rfl

/-- A further rule name keeps the list one of rule names. -/
theorem Listed.add {d d' : Directive} (listed : d.Listed) {rule : Text} (name : RuleName rule)
    (h : d.add? rule = some d') : d'.Listed ∧ d' = { d with rules := d.rules ++ [rule] } := by
  unfold add? at h
  split at h
  · cases h
  · rename_i open_
    cases h
    have new : rule ∉ d.rules := by
      intro mem
      exact open_ (by simp [suppresses, mem])
    refine ⟨⟨?_, ?_⟩, rfl⟩
    · intro r hr
      rcases List.mem_append.mp hr with hr | hr
      · exact listed.names r hr
      · exact List.mem_singleton.mp hr ▸ name
    · rw [← List.concat_eq_append]
      exact listed.nodup.concat new

end Directive
end Quell
