import Quell.Proofs.Annotate.Merge

/-!
Exactly the well-formed directives survive being written and read.

What is read is well-formed, so every directive of a source can be written anew. A comment that rules
are merged into one after the other is written and read at every step; in the end it lists its old
rules and behind them the new ones, each where it came first. Names that no list can hold are the ones
that such a comment takes up again and again.
-/
namespace Quell

open Text

namespace Directive

/-- The rules are names, each listed once, and the explanation is a text without blanks around it. -/
structure WellFormed (d : Directive) : Prop where
  names : ∀ rule ∈ d.rules, RuleName rule
  nodup : d.rules.Nodup
  explained : ∀ why ∈ d.explanation, why ≠ [] ∧ why.trim = why

theorem wellFormed_iff_clean {d : Directive} : d.WellFormed ↔ d.Clean := by
  have spelled : (∀ why ∈ d.explanation, why ≠ [] ∧ why.trim = why) ↔
      (d.explanation.map trim).filter (!·.isEmpty) = d.explanation := by
    cases d.explanation with
    | none => simp
    | some why =>
      simp only [Option.mem_def, Option.some.injEq, forall_eq', Option.map_some,
        Option.filter_eq_some_iff, Bool.not_eq_true', List.isEmpty_eq_false_iff]
      exact and_comm
  constructor
  · exact fun h => ⟨⟨h.names, h.nodup⟩, spelled.mp h.explained⟩
  · exact fun h => ⟨h.listed.names, h.listed.nodup, spelled.mpr h.trimmed⟩

theorem wellFormed_of_parse {t : Text} {d : Directive} (h : parse? t = some d) : d.WellFormed :=
  wellFormed_iff_clean.mpr (clean_of_parse h)

theorem WellFormed.read_back {d : Directive} (h : d.WellFormed) (kind : CommentKind) :
    parse? (d.encode kind) = some d := (wellFormed_iff_clean.mp h).parse_encode kind

/-- A directive that is written is read back exactly if it is well-formed, and whatever is read is
well-formed. -/
theorem parse_encode_iff (kind : CommentKind) :
    (∀ d : Directive, parse? (d.encode kind) = some d ↔ d.WellFormed) ∧
    ∀ t d, parse? t = some d → d.WellFormed ∧ parse? (d.encode kind) = some d := by
  refine ⟨fun d => ⟨wellFormed_of_parse, fun h => h.read_back kind⟩, fun t d parsed => ?_⟩
  have formed := wellFormed_of_parse parsed
  exact ⟨formed, formed.read_back kind⟩

/-- Dashes next to the separator do no harm; dashes in a rule do, and so does a comment that lists a
rule twice, which is read with the rule listed once. -/
theorem parse_encode_iff_dashes :
    parse? (encode ⟨.sameLine, ["a-".toList, "-b".toList], some "-- c".toList⟩ .block) =
      some ⟨.sameLine, ["a-".toList, "-b".toList], some "-- c".toList⟩ ∧
    parse? (encode ⟨.nextLine, ["a--b".toList], none⟩ .line) ≠
      some ⟨.nextLine, ["a--b".toList], none⟩ ∧
    parse? " eslint-disable-line a,a".toList = some ⟨.sameLine, ["a".toList], none⟩ ∧
    parse? (encode ⟨.sameLine, ["a".toList], none⟩ .line) = some ⟨.sameLine, ["a".toList], none⟩ := by
  have read : parse? " eslint-disable-line a,a".toList = some ⟨.sameLine, ["a".toList], none⟩ := by
    decide
  refine ⟨((parse_encode_iff .block).1 _).mpr ⟨?_, by decide, by decide⟩, fun back => ?_, read,
    ((parse_encode_iff .line).2 _ _ read).2⟩
  · simp only [List.forall_mem_cons]
    refine ⟨?_, ?_, nofun⟩ <;> exact ⟨by decide, by decide, by decide, by decide⟩
  · have formed := ((parse_encode_iff .line).1 _).mp back
    exact (formed.names _ List.mem_cons_self).dashes (by decide)

def extend (listed entries : List Text) : List Text :=
  entries.foldl (fun kept r => if kept.contains r then kept else kept ++ [r]) listed

theorem extend_cons_of_mem {listed : List Text} {r : Text} (known : listed.contains r = true)
    (entries : List Text) : extend listed (r :: entries) = extend listed entries := by
  rw [extend, List.foldl_cons, if_pos known, extend]

theorem extend_cons_of_not_mem {listed : List Text} {r : Text} (new : ¬ listed.contains r = true)
    (entries : List Text) : extend listed (r :: entries) = extend (listed ++ [r]) entries := by
  rw [extend, List.foldl_cons, if_neg new, extend]

theorem extend_eq (listed entries : List Text) :
    extend listed entries = listed ++ distinct (entries.filter (!listed.contains ·)) := by
  induction size : entries.length using Nat.strong_induction_on generalizing entries listed with
  | _ n ih =>
    cases entries with
    | nil => simp [extend, distinct]
    | cons r rest =>
      have short : rest.length < n := by
        rw [← size]
        exact Nat.lt_succ_self _
      by_cases known : listed.contains r = true
      · rw [extend_cons_of_mem known, ih _ short listed rest rfl, List.filter_cons_of_neg (by rw [known]; decide)]
      · -- The new entry is kept, and with it come the others that are new.
        have few : (rest.filter (!listed.contains ·)).length < n :=
          Nat.lt_of_le_of_lt (List.length_filter_le _ _) short
        have others : (rest.filter (!listed.contains ·)).filter (!([r] : List Text).contains ·) =
            rest.filter (!(listed ++ [r]).contains ·) := by
          rw [List.filter_filter]
          congr 1
          funext x
          simp [Bool.and_comm]
        have first : distinct (r :: rest.filter (!listed.contains ·)) =
            [r] ++ distinct (rest.filter (!(listed ++ [r]).contains ·)) := by
          rw [← others, ← ih _ few [r] _ rfl]
          rfl
        rw [extend_cons_of_not_mem known, ih _ short (listed ++ [r]) rest rfl,
          List.filter_cons_of_pos (by simpa using known), first, List.append_assoc]

theorem mem_rules_first {rule : Text} (name : RuleName rule) (form : Form) (rest : Text) :
    rule ∈ (ofBody form (rule ++ ',' :: rest)).rules := by
  have listed : ∀ tail : Text, rule ∈ ruleList (rule ++ ',' :: tail) := by
    intro tail
    unfold ruleList
    rw [splitOn_append name.comma, List.map_cons, name.trimmed,
      List.filter_cons_of_pos (by simpa using name.nonempty)]
    exact List.mem_cons_self
  unfold ofBody
  cases found : splitOnce? separator (rule ++ ',' :: rest) with
  | none => exact mem_distinct.mpr (listed rest)
  | some x =>
    obtain ⟨rules, why⟩ := x
    have split := (splitOnce?_eq_some found).1
    -- The dashes stand behind the comma, since the name has none and a comma is no dash.
    have behind : ∃ tail, rules = rule ++ ',' :: tail := by
      have fits : rules <+: rule ++ ',' :: rest := ⟨separator ++ why, by rw [split, List.append_assoc]⟩
      rcases Nat.lt_or_ge rule.length rules.length with long | short
      · have start : rule ++ [','] <+: rules :=
          List.prefix_of_prefix_length_le ⟨rest, by simp⟩ fits (by simpa using Nat.succ_le_of_lt long)
        obtain ⟨tail, rfl⟩ := start
        exact ⟨tail, by simp⟩
      · obtain ⟨x, rfl⟩ := List.prefix_of_prefix_length_le fits (List.prefix_append ..) short
        rw [List.append_assoc, List.append_assoc] at split
        have dashes := List.append_cancel_left split
        exfalso
        match x, dashes with
        | [], dashes => exact absurd (List.cons.inj dashes).1 (by decide)
        | [a], dashes => exact absurd (List.cons.inj (List.cons.inj dashes).2).1 (by decide)
        | a :: b :: x, dashes =>
          obtain ⟨rfl, more⟩ := List.cons.inj dashes
          obtain ⟨rfl, -⟩ := List.cons.inj more
          exact name.dashes ⟨rules, x, by simp [separator]⟩
    obtain ⟨tail, rfl⟩ := behind
    exact mem_distinct.mpr (listed tail)

end Directive

namespace Comment

/-- Merge rules into a comment one after the other: the comment in the end, and what became of each
rule. -/
def mergeAll (c : Comment) : List Text → Comment × List Merge
  | [] => (c, [])
  | rule :: rules =>
    let (c', result) := c.merge rule
    let (last, results) := mergeAll c' rules
    (last, result :: results)

theorem mergeAll_cons (c : Comment) (rule : Text) (rules : List Text) :
    c.mergeAll (rule :: rules) = (((c.merge rule).1.mergeAll rules).1,
      (c.merge rule).2 :: ((c.merge rule).1.mergeAll rules).2) := rfl

theorem mergeAll_covered {c : Comment} {rules : List Text} (covered : ∀ r ∈ rules, c.Suppresses r) :
    c.mergeAll rules = (c, List.replicate rules.length .alreadySuppressed) := by
  induction rules with
  | nil => rfl
  | cons r rules ih =>
    rw [mergeAll_cons, merge_of_suppresses (covered r List.mem_cons_self)]
    dsimp only
    rw [ih fun q hq => covered q (List.mem_cons_of_mem r hq)]
    rfl

structure Gathers (c c' : Comment) (d d' : Directive) (merged : Bool) : Prop where
  kind : c'.kind = c.kind
  placement : c'.placement = c.placement
  span : c'.span = c.span
  reads : Directive.parse? c'.text = some d'
  revised : c'.revised = (c.revised || merged)
  /-- No rule goes, and one comes with a merge only. -/
  longer : d.rules.length ≤ d'.rules.length ∧ (merged = true ↔ d.rules.length < d'.rules.length)
  kept : merged = false → c' = c

theorem Gathers.refl {c : Comment} {d : Directive} (parsed : Directive.parse? c.text = some d) :
    c.Gathers c d d false :=
  ⟨rfl, rfl, rfl, parsed, (Bool.or_false _).symm, ⟨Nat.le_refl _, by simp⟩, fun _ => rfl⟩

theorem Gathers.trans {c c' c'' : Comment} {d d' d'' : Directive} {m n : Bool}
    (h : c.Gathers c' d d' m) (h' : c'.Gathers c'' d' d'' n) : c.Gathers c'' d d'' (m || n) where
  kind := h'.kind.trans h.kind
  placement := h'.placement.trans h.placement
  span := h'.span.trans h.span
  reads := h'.reads
  revised := by rw [h'.revised, h.revised, Bool.or_assoc]
  longer := by
    have first := h.longer
    have second := h'.longer
    refine ⟨Nat.le_trans first.1 second.1, ?_⟩
    rw [Bool.or_eq_true, first.2, second.2]
    omega
  kept := by
    intro none
    obtain ⟨rfl, rfl⟩ := Bool.or_eq_false_iff.mp none
    rw [h'.kept rfl, h.kept rfl]

theorem gathers_merge {c : Comment} {d : Directive} {rule : Text} (name : RuleName rule)
    (parsed : Directive.parse? c.text = some d) (new : d.suppresses rule = false) :
    (c.merge rule).2 = .merged ∧
      c.Gathers (c.merge rule).1 d { d with rules := d.rules ++ [rule] } true := by
  have added : d.add? rule = some { d with rules := d.rules ++ [rule] } := by
    simp [Directive.add?, new]
  have merged : c.merge rule =
      (c.setText (Directive.encode { d with rules := d.rules ++ [rule] } c.kind), .merged) := by
    simp [merge, parsed, added]
  rw [merged]
  have reads := ((Directive.clean_of_parse parsed).add name new).parse_encode c.kind
  exact ⟨rfl, rfl, rfl, rfl, reads, (Bool.or_true _).symm, by simp, Bool.noConfusion⟩

theorem gathers_mergeAll {d : Directive} (listing : d.rules ≠ []) {rules : List Text}
    (names : ∀ r ∈ rules, RuleName r) {c : Comment} (parsed : Directive.parse? c.text = some d) :
    c.Gathers (c.mergeAll rules).1 d { d with rules := Directive.extend d.rules rules }
      ((c.mergeAll rules).2.contains .merged) := by
  induction rules generalizing c d with
  | nil => exact Gathers.refl parsed
  | cons r rules ih =>
    have later : ∀ q ∈ rules, RuleName q := fun q hq => names q (List.mem_cons_of_mem r hq)
    rw [mergeAll_cons, List.contains_cons]
    cases new : d.suppresses r with
    | true =>
      have listed : d.rules.contains r = true := by simpa [Directive.suppresses, listing] using new
      rw [merge_of_suppresses ⟨d, parsed, new⟩, Directive.extend_cons_of_mem listed]
      exact ih listing later parsed
    | false =>
      obtain ⟨result, one⟩ := gathers_merge (names r List.mem_cons_self) parsed new
      have fresh : ¬ d.rules.contains r = true := by
        intro listed
        rw [Directive.suppresses, listed, Bool.or_true] at new
        cases new
      rw [result, Directive.extend_cons_of_not_mem fresh]
      exact one.trans (ih (d := { d with rules := d.rules ++ [r] }) (by simp) later one.reads)

theorem merge_unlisted {rule : Text} (odd : ¬ RuleName rule) {c : Comment} {d : Directive}
    (parsed : Directive.parse? c.text = some d) (listing : d.rules ≠ []) :
    c.merge rule = (c.setText (Directive.encode { d with rules := d.rules ++ [rule] } c.kind),
      .merged) := by
  have fresh : rule ∉ d.rules := fun mem => odd ((Directive.listed_of_parse parsed).names rule mem)
  have new : d.suppresses rule = false := by simp [Directive.suppresses, listing, fresh]
  simp [merge, parsed, Directive.add?, new]

theorem merge_unlisted_twice {rule : Text} (odd : ¬ RuleName rule) :
    ∃ c : Comment, (Directive.parse? c.text).isSome = true ∧
      (c.mergeAll [rule, rule]).2 = [.merged, .merged] := by
  let c : Comment := { kind := .line, text := " eslint-disable-line a".toList, placement := .leading }
  have parsed : Directive.parse? c.text = some ⟨.sameLine, ["a".toList], none⟩ := by decide
  have name : RuleName ['a'] := ⟨by decide, by decide, by decide, by decide⟩
  have first := merge_unlisted odd parsed (by decide)
  -- The first entry is still read, so the directive names a rule the second time, too.
  have reads : ∃ d, Directive.parse? (c.merge rule).1.text = some d ∧ d.rules ≠ [] := by
    rw [first]
    refine ⟨_, Directive.parse_encode_tail _ _, ?_⟩
    have tail : (Directive.tail ⟨.sameLine, ["a".toList] ++ [rule], none⟩ .line).tail =
        ['a'] ++ ',' :: (' ' :: rule) := by
      simp [Directive.tail, joinWith]
    have mem := Directive.mem_rules_first name .sameLine (' ' :: rule)
    rw [← tail] at mem
    exact List.ne_nil_of_mem mem
  obtain ⟨d, parsed', listing⟩ := reads
  have second := merge_unlisted odd parsed' listing
  refine ⟨c, by rw [parsed]; rfl, ?_⟩
  rw [mergeAll_cons, mergeAll_cons, second, first]
  rfl

/-- Merging rule names into a directive in turn leaves a comment in the same place that reads as the
same directive with the new names behind its own ones, each where it came first; its text changes, and
it counts as revised, exactly with a merge; from then on all these rules are covered, in any order. A
text that is no rule name is merged twice in a row by some comment. -/
theorem mergeAll_gathers (c : Comment) (d : Directive) (rules : List Text)
    (parsed : Directive.parse? c.text = some d) (names : ∀ r ∈ rules, RuleName r) :
    (let last := (c.mergeAll rules).1
      let results := (c.mergeAll rules).2
      last.kind = c.kind ∧ last.placement = c.placement ∧ last.span = c.span ∧
      Directive.parse? last.text = some { d with
        rules := if d.rules = [] then []
          else d.rules ++ Directive.distinct (rules.filter (!d.rules.contains ·)) } ∧
      (d.rules = [] → last = c) ∧
      (last.text ≠ c.text ↔ .merged ∈ results) ∧
      last.revised = (c.revised || results.contains .merged) ∧
      (∀ r ∈ rules, last.Suppresses r) ∧
      ∀ again : List Text, again.Perm rules →
        last.mergeAll again = (last, List.replicate rules.length .alreadySuppressed)) ∧
    ∀ rule : Text, ¬ RuleName rule → ∃ c : Comment, (Directive.parse? c.text).isSome = true ∧
      (c.mergeAll [rule, rule]).2 = [.merged, .merged] := by
  refine ⟨?_, fun rule odd => merge_unlisted_twice odd⟩
  intro last results
  -- Covered rules are all that is needed of a second pass.
  have again : (∀ r ∈ rules, last.Suppresses r) → ∀ again : List Text, again.Perm rules →
      last.mergeAll again = (last, List.replicate rules.length .alreadySuppressed) := by
    intro covered again perm
    rw [← perm.length_eq]
    exact mergeAll_covered fun r mem => covered r (perm.mem_iff.mp mem)
  by_cases listing : d.rules = []
  · -- A directive without rules covers every rule.
    have covered : ∀ r ∈ rules, c.Suppresses r := fun r _ =>
      ⟨d, parsed, by simp [Directive.suppresses, listing]⟩
    have run : c.mergeAll rules = _ := mergeAll_covered covered
    have same : last = c := congrArg Prod.fst run
    have idle : Merge.merged ∉ results := by
      have all : results = List.replicate rules.length .alreadySuppressed := congrArg Prod.snd run
      rw [all]
      exact fun mem => Merge.noConfusion (List.eq_of_mem_replicate mem)
    have unmerged : results.contains .merged = false := by
      simpa using idle
    rw [if_pos listing, unmerged, Bool.or_false]
    rw [same] at again ⊢
    refine ⟨rfl, rfl, rfl, ?_, fun _ => rfl, by simp [idle], rfl, covered, again covered⟩
    rw [parsed, ← listing]
  · have gathers : c.Gathers last d { d with rules := Directive.extend d.rules rules }
        (results.contains .merged) := gathers_mergeAll listing names parsed
    have listed := Directive.extend_eq d.rules rules
    have covered : ∀ r ∈ rules, last.Suppresses r := by
      intro r mem
      refine ⟨_, gathers.reads, ?_⟩
      have kept : r ∈ Directive.extend d.rules rules := by
        rw [listed, List.mem_append, Directive.mem_distinct, List.mem_filter]
        by_cases old : r ∈ d.rules
        · exact .inl old
        · exact .inr ⟨mem, by simpa using old⟩
      simp [Directive.suppresses, kept]
    refine ⟨gathers.kind, gathers.placement, gathers.span, ?_, fun none => absurd none listing, ?_,
      gathers.revised, covered, again covered⟩
    · rw [if_neg listing, ← listed]
      exact gathers.reads
    · -- With a merge the text reads as a longer directive, without one the comment is the old one.
      rw [← List.contains_iff_mem]
      constructor
      · intro other
        by_contra idle
        exact other (congrArg Comment.text (gathers.kept (by simpa using idle)))
      · intro merged same
        have reads := gathers.reads
        rw [same, parsed] at reads
        have longer := gathers.longer.2.mp merged
        rw [← Option.some.inj reads] at longer
        exact Nat.lt_irrefl _ longer

/-- A list with a repeated rule and odd spacing, and rules that are new, listed and repeated. -/
theorem mergeAll_gathers_spaced :
    Directive.parse? " eslint-disable-line  a,a ,b -- why".toList =
      some ⟨.sameLine, ["a".toList, "b".toList], some "why".toList⟩ ∧
    (let c : Comment := { kind := .block, text := " eslint-disable-line  a,a ,b -- why".toList
                          placement := .inner }
      let last := (c.mergeAll ["c".toList, "a".toList, "d".toList, "c".toList]).1
      Directive.parse? last.text =
        some ⟨.sameLine, ["a".toList, "b".toList, "c".toList, "d".toList], some "why".toList⟩) := by
  have name : ∀ r ∈ ["c".toList, "a".toList, "d".toList, "c".toList], RuleName r := by
    simp only [List.forall_mem_cons]
    refine ⟨?_, ?_, ?_, ?_, nofun⟩ <;> exact ⟨by decide, by decide, by decide, by decide⟩
  have parsed : Directive.parse? " eslint-disable-line  a,a ,b -- why".toList =
      some ⟨.sameLine, ["a".toList, "b".toList], some "why".toList⟩ := by decide
  refine ⟨parsed, ?_⟩
  exact (mergeAll_gathers { kind := .block, text := " eslint-disable-line  a,a ,b -- why".toList
                            placement := .inner } _ _ parsed name).1.2.2.2.1

end Comment
end Quell
