import Quell.Proofs.Annotate.Frame
import Quell.Proofs.Document.WellFormed

/-!
What becomes of comments.

A comment that was there keeps its place and either its text or, as a directive, its rules with
further ones behind them. A new comment is a directive with the explanation that the message gives.
So a rule that is covered once stays covered, and at the end of a whole run every diagnostic that was
not skipped is covered: `annotate_ok`.
-/
namespace Quell

/-- The comment is what it was, or a directive with more rules than before. -/
structure Comment.Grown (allowed : Text → Prop) (c c' : Comment) : Prop where
  kind : c'.kind = c.kind
  placement : c'.placement = c.placement
  span : c'.span = c.span
  text : c' = c ∨ c'.revised = true ∧
    ∃ d more, Directive.parse? c.text = some d ∧ d.rules ≠ [] ∧ more ≠ [] ∧
      Directive.parse? c'.text = some { d with rules := d.rules ++ more } ∧
      ∀ rule ∈ more, allowed rule

/-- An inserted directive. -/
structure Comment.Added (o : AnnotateOptions) (allowed : Text → Prop) (c : Comment) : Prop where
  span : c.span = none
  directive : ∃ d, Directive.parse? c.text = some d ∧ d.explanation = Directive.why o.message ∧
    d.rules ≠ [] ∧ ∀ rule ∈ d.rules, allowed rule

structure Inherits (o : AnnotateOptions) (allowed : Text → Prop) (old now : List Comment) :
    Prop where
  kept : ∀ (i : Nat) (c : Comment), old[i]? = some c →
    ∃ c', now[i]? = some c' ∧ c.Grown allowed c'
  added : ∀ (i : Nat) (c : Comment), old.length ≤ i → now[i]? = some c → c.Added o allowed

namespace Comment

variable {o : AnnotateOptions} {allowed : Text → Prop} {rule : Text} {c c' : Comment}

theorem Grown.refl (c : Comment) : c.Grown allowed c := ⟨rfl, rfl, rfl, .inl rfl⟩

theorem Grown.merge {c₀ : Comment} (grown : c₀.Grown allowed c) (name : RuleName rule)
    (ok : allowed rule) (merged : c.merge rule = (c', .merged)) : c₀.Grown allowed c' := by
  obtain ⟨span, kind, placement, revised, -⟩ := merge_parses merged
  obtain ⟨d, parsed, ne, parsed'⟩ := merge_directive name merged
  refine ⟨kind.trans grown.kind, placement.trans grown.placement, span.trans grown.span,
    .inr ⟨revised, ?_⟩⟩
  rcases grown.text with rfl | ⟨-, d₀, more, parsed₀, ne₀, -, parsed'', all⟩
  · refine ⟨d, [rule], parsed, ne, by simp, parsed', fun r hr => ?_⟩
    exact List.mem_singleton.mp hr ▸ ok
  · cases parsed.symm.trans parsed''
    refine ⟨d₀, more ++ [rule], parsed₀, ne₀, by simp, by rw [parsed', List.append_assoc],
      fun r hr => ?_⟩
    rcases List.mem_append.mp hr with h | h
    · exact all r h
    · exact List.mem_singleton.mp h ▸ ok

theorem Added.merge (added : c.Added o allowed) (name : RuleName rule) (ok : allowed rule)
    (merged : c.merge rule = (c', .merged)) : c'.Added o allowed := by
  obtain ⟨d, parsed, -, parsed'⟩ := merge_directive name merged
  obtain ⟨d₀, parsed₀, why, ne, all⟩ := added.directive
  cases parsed.symm.trans parsed₀
  refine ⟨(merge_parses merged).1.trans added.span, _, parsed', why, by simp, fun r hr => ?_⟩
  rcases List.mem_append.mp hr with h | h
  · exact all r h
  · exact List.mem_singleton.mp h ▸ ok

/-- What a directive covers it goes on to cover. -/
theorem Grown.suppresses (grown : c.Grown allowed c') (h : c.Suppresses rule) :
    c'.Suppresses rule := by
  obtain ⟨d, parsed, covered⟩ := h
  rcases grown.text with rfl | ⟨-, d₀, more, parsed₀, ne, -, parsed', -⟩
  · exact ⟨d, parsed, covered⟩
  · cases parsed.symm.trans parsed₀
    refine ⟨_, parsed', ?_⟩
    unfold Directive.suppresses at covered ⊢
    simp only [Bool.or_eq_true, List.isEmpty_iff, ne, false_or, List.contains_iff_mem] at covered
    simp [covered]

end Comment

namespace Document

open Text Relation

variable {source : Text} {doc doc' : Document} {o : AnnotateOptions} {allowed : Text → Prop}
variable {rule : Text}

theorem Fresh.added {c : Comment} (fresh : Fresh o rule c) (name : RuleName rule)
    (ok : allowed rule) : c.Added o allowed := by
  obtain ⟨span, form, text⟩ := fresh
  refine ⟨span, ⟨form, [rule], Directive.why o.message⟩, ?_, rfl, by simp, fun r hr => ?_⟩
  · rw [text]
    exact Directive.parse_single form name o.message c.kind
  · exact List.mem_singleton.mp hr ▸ ok

theorem inherits_refl (cs : List Comment) : Inherits o allowed cs cs where
  kept := fun i c h => ⟨c, h, .refl c⟩
  added := by
    intro i c ge h
    rw [List.getElem?_eq_none_iff.mpr ge] at h
    cases h

theorem Amends.inherits {old now now' : List Comment} (amends : Amends o rule now now')
    (name : RuleName rule) (ok : allowed rule) (h : Inherits o allowed old now) :
    Inherits o allowed old now' := by
  cases amends with
  | same => exact h
  | @extend cs c c' merged =>
    -- Only the last comment is another one.
    have other : ∀ i, i ≠ cs.length → (cs ++ [c'])[i]? = (cs ++ [c])[i]? := by
      intro i ne
      rcases Nat.lt_or_gt_of_ne ne with lt | gt
      · rw [List.getElem?_append_left lt, List.getElem?_append_left lt]
      · rw [List.getElem?_eq_none (by simp; omega), List.getElem?_eq_none (by simp; omega)]
    have here : (cs ++ [c])[cs.length]? = some c := by simp
    have here' : (cs ++ [c'])[cs.length]? = some c' := by simp
    refine ⟨fun i c₀ found => ?_, fun i d ge found => ?_⟩
    · obtain ⟨d, now, grown⟩ := h.kept i c₀ found
      by_cases last : i = cs.length
      · subst last
        cases here.symm.trans now
        exact ⟨c', here', grown.merge name ok merged⟩
      · exact ⟨d, by rw [other i last, now], grown⟩
    · by_cases last : i = cs.length
      · subst last
        cases here'.symm.trans found
        exact (h.added _ c ge here).merge name ok merged
      · rw [other i last] at found
        exact h.added i d ge found
  | @append _ c fresh =>
    refine ⟨fun i c₀ found => ?_, fun i d ge found => ?_⟩
    · obtain ⟨d, present, grown⟩ := h.kept i c₀ found
      have lt : i < now.length := (List.getElem?_eq_some_iff.mp present).1
      exact ⟨d, by rw [List.getElem?_append_left lt, present], grown⟩
    · rcases Nat.lt_or_ge i now.length with lt | ge'
      · rw [List.getElem?_append_left lt] at found
        exact h.added i d ge found
      · rw [List.getElem?_append_right ge'] at found
        have : d = c := by
          have := List.mem_of_getElem? found
          simpa using this
        exact this ▸ fresh.added name ok

structure Bequeaths (o : AnnotateOptions) (allowed : Text → Prop) (doc doc' : Document) : Prop where
  frame : doc.Frame doc'
  inherits : ∀ id slot, Inherits o allowed ((doc.node id).comments slot)
    ((doc'.node id).comments slot)

theorem Bequeaths.refl (doc : Document) : Bequeaths o allowed doc doc :=
  ⟨.refl doc, fun _ _ => inherits_refl _⟩

theorem Bequeaths.edit {mid : Document} (h : Bequeaths o allowed doc mid)
    (edit : Edit o rule mid doc') (sound : mid.Sound source) (name : RuleName rule)
    (ok : allowed rule) : Bequeaths o allowed doc doc' := by
  obtain ⟨frame, amends⟩ := edit.frame sound
  exact ⟨h.frame.trans frame, fun id slot => (amends id slot).inherits name ok (h.inherits id slot)⟩

theorem Bequeaths.edits {mid : Document} (h : Bequeaths o allowed doc mid)
    (edits : Edits o rule mid doc') (sound : mid.Sound source) (name : RuleName rule)
    (ok : allowed rule) : Bequeaths o allowed doc doc' := by
  induction edits with
  | refl => exact h
  | tail edits edit ih => exact ih.edit edit (Edits.sound edits sound) name ok

theorem Sound.reaches_of_comment (sound : doc.Sound source) (frame : doc.Frame doc') {id : NodeId}
    {slot : Slot} {c : Comment} (reached : doc.Reaches id)
    (mem : c ∈ (doc.node id).comments slot) : doc'.Reaches id := by
  refine frame.kept id (sound.reaches_lt reached) reached ?_
  cases value : doc.text? id with
  | none => rfl
  | some t =>
    rw [((sound.each id reached).text t value).2.1 slot] at mem
    cases mem

/-- A rule that is covered stays covered. -/
theorem Bequeaths.suppresses (h : Bequeaths o allowed doc doc') (sound : doc.Sound source)
    {rule : Text} (covered : doc.Suppresses rule) : doc'.Suppresses rule := by
  obtain ⟨id, slot, c, reached, mem, covers⟩ := covered
  obtain ⟨i, found⟩ := List.mem_iff_getElem?.mp mem
  obtain ⟨c', found', grown⟩ := (h.inherits id slot).kept i c found
  exact ⟨id, slot, c', sound.reaches_of_comment h.frame reached mem, List.mem_of_getElem? found',
    grown.suppresses covers⟩

/-- The diagnostic asks for this rule, and the options allow it. -/
def Asks (o : AnnotateOptions) (d : Diagnostic) (rule : Text) : Prop :=
  d.actionableRule = some rule ∧ o.allows rule = true

def asks? (o : AnnotateOptions) (d : Diagnostic) : Bool := d.actionableRule.any o.allows

def total (s : Summary) : Nat :=
  s.inserted + s.merged + s.alreadySuppressed + s.skipped.length

theorem total_record (s : Summary) (line : Nat) (rule : Text) (r : Resolution) :
    total (s.record line rule r) = total s + 1 := by
  unfold total
  cases r with
  | inserted => simp only [Summary.record]; omega
  | merged => simp only [Summary.record]; omega
  | alreadySuppressed => simp only [Summary.record]; omega
  | skipped reason => simp only [Summary.record, List.length_append, List.length_singleton]; omega

theorem mem_skipped_record {s : Summary} {k : Skipped} (h : k ∈ s.skipped) (line : Nat)
    (rule : Text) (r : Resolution) : k ∈ (s.record line rule r).skipped := by
  cases r with
  | skipped reason => exact List.mem_append_left _ h
  | _ => exact h

def Served (o : AnnotateOptions) (d : Diagnostic) (doc : Document) (summary : Summary) : Prop :=
  ∀ rule, Asks o d rule →
    (∃ reason, ⟨d.line, rule, reason⟩ ∈ summary.skipped) ∨ doc.Suppresses rule

theorem annotateOne_serves (summary : Summary) {d : Diagnostic} (sound : doc.Sound source)
    (asks : Asks o d rule) (name : RuleName rule) : ∃ doc' r,
      doc.annotateOne o d.line rule = .ok (doc', r) ∧ Edits o rule doc doc' ∧
      Served o d doc' (summary.record d.line rule r) := by
  obtain ⟨doc', r, result, call⟩ := annotateOne_ok sound o d.line rule
  obtain ⟨edits, covered⟩ := call.settles sound
  refine ⟨doc', r, result, edits, fun rule' asks' => ?_⟩
  cases asks.1.symm.trans asks'.1
  cases r with
  | skipped reason => exact .inl ⟨reason, by simp [Summary.record]⟩
  | inserted => exact .inr (covered nofun name)
  | merged => exact .inr (covered nofun name)
  | alreadySuppressed => exact .inr (covered nofun name)

structure Ran (o : AnnotateOptions) (allowed : Text → Prop) (source : Text) (first doc : Document)
    (summary : Summary) (ds : List Diagnostic) (doc' : Document) (summary' : Summary) : Prop where
  sound : doc'.Sound source
  bequeaths : Bequeaths o allowed first doc'
  covered : ∀ rule, doc.Suppresses rule → doc'.Suppresses rule
  skipped : ∀ k ∈ summary.skipped, k ∈ summary'.skipped
  served : ∀ d ∈ ds, Served o d doc' summary'
  count : total summary' = total summary + ds.countP (asks? o)

theorem annotateFrom_ok {first : Document} (summary : Summary) {ds : List Diagnostic}
    (sound : doc.Sound source) (start : Bequeaths o allowed first doc)
    (each : ∀ d ∈ ds, ∀ rule, Asks o d rule → RuleName rule ∧ allowed rule) :
    ∃ doc' summary', doc.annotateFrom o summary ds = .ok (doc', summary') ∧
      Ran o allowed source first doc summary ds doc' summary' := by
  induction ds generalizing doc summary with
  | nil => exact ⟨doc, summary, rfl, sound, start, fun _ h => h, fun _ h => h, nofun, rfl⟩
  | cons d ds ih =>
    have each' : ∀ d ∈ ds, ∀ rule, Asks o d rule → RuleName rule ∧ allowed rule :=
      fun e he => each e (by simp [he])
    rw [annotateFrom]
    by_cases asked : ∃ rule, Asks o d rule
    · obtain ⟨rule, asks⟩ := asked
      obtain ⟨name, ok⟩ := each d (by simp) rule asks
      obtain ⟨mid, r, result, edits, served⟩ :=
        annotateOne_serves summary sound asks name
      have sound' := Edits.sound edits sound
      obtain ⟨doc', summary', rest, ran⟩ := ih (summary.record d.line rule r) sound'
        (start.edits edits sound name ok) each'
      refine ⟨doc', summary', ?_, ran.sound, ran.bequeaths, fun rule' h => ?_, fun k hk => ?_, ?_, ?_⟩
      · rw [asks.1]
        dsimp only
        rw [if_pos asks.2, result]
        exact rest
      · exact ran.covered rule'
          (((Bequeaths.refl doc).edits edits sound name ok).suppresses sound h)
      · exact ran.skipped k (mem_skipped_record hk _ _ _)
      · intro e he rule' asks'
        rcases List.mem_cons.mp he with rfl | he
        · rcases served rule' asks' with ⟨reason, h⟩ | h
          · exact .inl ⟨reason, ran.skipped _ h⟩
          · exact .inr (ran.covered rule' h)
        · exact ran.served e he rule' asks'
      · have one : asks? o d = true := by simp [asks?, asks.1, asks.2]
        rw [ran.count, total_record, List.countP_cons_of_pos one]
        omega
    · obtain ⟨doc', summary', rest, ran⟩ := ih summary sound start each'
      have none : asks? o d = false := by
        unfold asks?
        rw [Option.any_eq_false]
        intro rule h
        exact Bool.eq_false_iff.mpr fun allows => asked ⟨rule, h, allows⟩
      refine ⟨doc', summary', ?_, ran.sound, ran.bequeaths, ran.covered, ran.skipped, ?_, ?_⟩
      · cases actionable : d.actionableRule with
        | none => exact rest
        | some rule =>
          dsimp only
          rw [if_neg fun allows => asked ⟨rule, actionable, allows⟩]
          exact rest
      · intro e he rule' asks'
        rcases List.mem_cons.mp he with rfl | he
        · exact absurd ⟨rule', asks'⟩ asked
        · exact ran.served e he rule' asks'
      · rw [ran.count, List.countP_cons_of_neg (by simp [none])]

theorem nonempty_of_actionable {d : Diagnostic} (h : d.actionableRule = some rule) : rule ≠ [] := by
  unfold Diagnostic.actionableRule at h
  split at h
  · cases h
  · have := (Option.filter_eq_some_iff.mp h).2
    simpa using this

/-- Some diagnostic of the list asks for the rule, and the options allow it. -/
def Asked (o : AnnotateOptions) (ds : List Diagnostic) (rule : Text) : Prop :=
  ∃ d ∈ ds, Asks o d rule

/-- A whole run: comments keep their places, what is written are directives for rules that were asked
for, and every diagnostic that was not skipped is covered at the end. -/
theorem annotate_ok (wf : doc.WellFormed source) (o : AnnotateOptions) (ds : List Diagnostic)
    (names : ∀ d ∈ ds, ∀ rule, d.actionableRule = some rule →
      rule.trim = rule ∧ ',' ∉ rule ∧ ¬ Directive.separator <:+: rule) :
    ∃ doc' summary, doc.annotate o ds = .ok (doc', summary) ∧
      (∀ id slot (i : Nat) (c : Comment), doc.Reaches id →
        ((doc.node id).comments slot)[i]? = some c → c.revised = false ∧ doc'.Reaches id ∧
          ∃ c', ((doc'.node id).comments slot)[i]? = some c' ∧ c.Grown (Asked o ds) c') ∧
      (∀ id slot (i : Nat) (c' : Comment), doc'.Reaches id →
        ((doc'.node id).comments slot)[i]? = some c' → (∃ c : Comment, doc.Reaches id ∧
          ((doc.node id).comments slot)[i]? = some c ∧ c.Grown (Asked o ds) c') ∨ c'.Added o (Asked o ds)) ∧
      (∀ d ∈ ds, ∀ rule, Asks o d rule →
        (∀ reason, ⟨d.line, rule, reason⟩ ∉ summary.skipped) → doc'.Suppresses rule) ∧
      summary.inserted + summary.merged + summary.alreadySuppressed + summary.skipped.length =
        ds.countP (asks? o) := by
  have sound := wf.sound
  obtain ⟨doc', summary, result, ran⟩ := annotateFrom_ok {} sound
    (.refl doc : Bequeaths o (Asked o ds) doc doc) fun d hd rule asks => by
      obtain ⟨trimmed, comma, dashes⟩ := names d hd rule asks.1
      exact ⟨⟨nonempty_of_actionable asks.1, trimmed, comma, dashes⟩, d, hd, asks⟩
  refine ⟨doc', summary, result, ?_, ?_, ?_, ?_⟩
  · intro id slot i c reached found
    have mem := List.mem_of_getElem? found
    exact ⟨((wf.each id reached).remarks slot c mem).1,
      sound.reaches_of_comment ran.bequeaths.frame reached mem,
      (ran.bequeaths.inherits id slot).kept i c found⟩
  · intro id slot i c' reached found
    have inherits := ran.bequeaths.inherits id slot
    cases old : ((doc.node id).comments slot)[i]? with
    | none => exact .inr (inherits.added i c' (List.getElem?_eq_none_iff.mp old) found)
    | some c =>
      obtain ⟨c'', found', grown⟩ := inherits.kept i c old
      cases found.symm.trans found'
      refine .inl ⟨c, ran.bequeaths.frame.back id reached ?_, rfl, grown⟩
      by_contra ge
      rw [node_of_size_le doc (Nat.le_of_not_lt ge)] at old
      cases slot <;> cases old
  · intro d hd rule asks listed
    rcases ran.served d hd rule asks with ⟨reason, h⟩ | h
    · exact absurd h (listed reason)
    · exact h
  · have := ran.count
    unfold total at this
    simpa using this

def servedSource : Text := "// eslint-disable-next-line q\na();\nb();\n".toList

def servedComment : Comment where
  kind := .line
  text := " eslint-disable-next-line q".toList
  placement := .leading
  span := some ⟨0, 29, 1, 1⟩

def servedSample : Document where
  nodes := #[
    { kind := .program, span := some ⟨0, 40, 1, 4⟩, children := [1, 2] },
    { kind := .statement, span := some ⟨30, 34, 2, 2⟩, parent := some 0, leading := [servedComment] },
    { kind := .statement, span := some ⟨35, 39, 3, 3⟩, parent := some 0 }]

/-- One rule that is covered already, one for the directive that is there, two for a new one, and a
line without a node. -/
def servedRun : List Diagnostic :=
  [⟨2, none, some ['q'], 2, none⟩, ⟨3, none, some ['s'], 2, none⟩, ⟨2, none, some ['r'], 2, none⟩,
    ⟨3, none, some ['t'], 2, none⟩, ⟨9, none, some ['u'], 2, none⟩]

theorem annotate_ok_sample :
    servedSample.WellFormed servedSource ∧ ∃ doc' summary,
      servedSample.annotate {} servedRun = .ok (doc', summary) ∧
      summary = { inserted := 1, merged := 2, alreadySuppressed := 1,
                  skipped := [⟨9, ['u'], .noNodeOnLine⟩] } ∧
      (∃ c', ((doc'.node 1).comments .leading)[0]? = some c' ∧
        servedComment.Grown (Asked {} servedRun) c' ∧
        c'.text = " eslint-disable-next-line q, r".toList) ∧
      (∀ c', ((doc'.node 2).comments .leading)[0]? = some c' → c'.Added {} (Asked {} servedRun)) ∧
      (∀ rule ∈ [['q'], ['r'], ['s'], ['t']], doc'.Suppresses rule) ∧
      summary.inserted + summary.merged + summary.alreadySuppressed + summary.skipped.length = 5 := by
  have wf : servedSample.WellFormed servedSource := wellFormed_of_reads (by decide)
  refine ⟨wf, ?_⟩
  obtain ⟨doc', summary, result, kept, new, covered, count⟩ :=
    annotate_ok wf {} servedRun (by decide)
  obtain ⟨now, counts, ran, same, text, held⟩ : ∃ now counts,
      servedSample.annotate {} servedRun = .ok (now, counts) ∧
      counts = { inserted := 1, merged := 2, alreadySuppressed := 1,
                 skipped := [⟨9, ['u'], .noNodeOnLine⟩] } ∧
      ((now.node 1).comments .leading)[0]?.map (·.text) =
        some " eslint-disable-next-line q, r".toList ∧ now.children root = [1, 2] :=
    ⟨_, _, rfl, rfl, rfl, rfl⟩
  cases result.symm.trans ran
  subst same
  have first : servedSample.Reaches 1 := .single (show (1 : Nat) ∈ [1, 2] by decide)
  have second : doc'.Reaches 2 := .single (show 2 ∈ doc'.children root by rw [held]; decide)
  obtain ⟨-, -, c', found, grown⟩ := kept 1 .leading 0 servedComment first rfl
  refine ⟨doc', _, ran, rfl, ⟨c', found, grown, ?_⟩, fun c' found' => ?_, fun rule mem => ?_, count⟩
  · rw [found] at text
    exact Option.some.inj text
  · rcases new 2 .leading 0 c' second found' with ⟨c, -, old, -⟩ | added
    · cases old
    · exact added
  · have asked : ∃ d ∈ servedRun, Asks {} d rule ∧ d.line ≠ 9 := by
      unfold Asks
      revert rule
      decide
    obtain ⟨d, hd, asks, line⟩ := asked
    refine covered d hd rule asks fun reason skipped => line ?_
    exact congrArg Skipped.line (List.mem_singleton.mp skipped)

end Document
end Quell
