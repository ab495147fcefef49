import Quell.Proofs.Annotate.Crowned
import Quell.Proofs.Source.Remarked

/-!
Reading what a run has printed.

If a run writes above lines that their targets start, then the text that it prints is read as the source
is, with the directives as comments in front of the targets (`IsRead.printed`).
-/
namespace Quell

open Text Relation Grammar

theorem unmarked_weaves {rows : List RowAt} {source text : Text} {n : Nat}
    (plain : Source.unmarked source = source) (weaves : Weaves rows n source text)
    (slash : ∀ r ∈ rows, r.2.head? = some '/') : Source.unmarked text = text := by
  have ok : ∀ t : Text, t.head? ≠ some '\uFEFF' → Source.unmarked t = t := by
    intro t other
    unfold Source.unmarked
    split
    · exact absurd rfl other
    · rfl
  have head : source.head? ≠ some '\uFEFF' := by
    intro marked
    obtain ⟨cs, rfl⟩ := List.head?_eq_some_iff.mp marked
    exact absurd (congrArg List.length plain) (by simp [Source.unmarked])
  cases weaves with
  | nil => exact plain
  | @row rows n m w t u behind =>
    refine ok _ ?_
    cases m with
    | nil =>
      have here := slash _ List.mem_cons_self
      obtain ⟨cs, rfl⟩ := List.head?_eq_some_iff.mp here
      exact fun h => absurd (Option.some.inj h) (by decide)
    | cons c m => exact head

namespace Document

variable {doc doc' : Document} {o : AnnotateOptions} {ds : List Diagnostic} {line : Nat}
variable {id q : NodeId} {u : Span} {path text text' : Text} {p p' : Program} {summary : Summary}

/-- The source is read as the program, and the document of the program is well-formed. -/
structure IsRead (path text : Text) (p : Program) (doc : Document) : Prop where
  program : Program.read? (Dialect.ofPath path) (Source.unmarked text) = some p
  document : ofProgram (Source.of text) p = .ok doc
  wellFormed : doc.WellFormed text

instance (id : NodeId) (slot : Slot) : Decidable (doc.Bare id slot) :=
  inferInstanceAs (Decidable (∀ c ∈ ((doc.node id).comments slot).getLast?, _))

/-- The line has a target that is the first thing on it, stands outside of elements, and has no
directive yet. -/
structure OpensLine (text : Text) (p : Program) (doc : Document) (line : Nat) (id q : NodeId)
    (u : Span) : Prop where
  located : doc.locate line = some (.node id (some q))
  ordinary : doc.Ordinary line
  outside : (doc.kind q).hasMarkupChildren = false
  span : doc.span id = some u
  first : OnlyBlanks text u.lo
  token : ∃ st ∈ p.stretches, st.lo = u.lo ∧ st.fresh = true
  bare : ∀ slot ∈ [Slot.leading, .trailing], doc.Bare id slot

/-- Directives can be written above all the lines that are asked for, in a source without types. -/
structure WritesAbove (o : AnnotateOptions) (path text : Text) (p : Program) (doc : Document)
    (ds : List Diagnostic) : Prop where
  untyped : (Dialect.ofPath path).typed = false
  unmarked : Source.unmarked text = text
  snug : doc.Snug text
  above : o.inline = false
  brief : ∀ c ∈ o.message, isLineEnd c = false
  each : ∀ d ∈ ds, ∀ rule, Asks o d rule → RuleName rule ∧ (∀ c ∈ rule, isLineEnd c = false) ∧
    (doc.locate d.line = none ∨ ∃ id q u, OpensLine text p doc d.line id q u)

theorem ordinary_of_located (located : doc.locate line = some (.node id (some q)))
    (kind : doc.kind id ≠ .closingTag) (beside : doc.Beside id q) : doc.Ordinary line := by
  intro j m found
  cases located.symm.trans found
  exact ⟨kind, beside⟩

theorem IsRead.read?_eq (read : IsRead path text p doc) :
    Document.read? path text = .ok (some doc) := by
  unfold Document.read?
  rw [read.program]
  dsimp only
  rw [read.document]
  rfl

theorem IsRead.annotateSource_eq (read : IsRead path text p doc)
    (work : ∃ d ∈ ds, ∃ rule, Asks o d rule) :
    annotateSource o path text ds = (do
      let (doc, summary) ← doc.annotate o ds
      if summary.changed then return some ⟨summary, some (← doc.print text)⟩
      else return some ⟨summary, none⟩) := by
  obtain ⟨d, mem, rule, asks⟩ := work
  have asked : (ds.filterMap Diagnostic.actionableRule).any o.allows = true :=
    List.any_eq_true.mpr ⟨rule, List.mem_filterMap.mpr ⟨d, mem, asks.1⟩, asks.2⟩
  unfold annotateSource
  rw [asked, read.read?_eq]
  rfl

theorem asked_of_changed (changed : annotateSource o path text ds = .ok (some ⟨summary, some text'⟩)) :
    ∃ d ∈ ds, ∃ rule, Asks o d rule := by
  unfold annotateSource at changed
  split at changed
  next => cases changed
  next asked =>
    rw [Bool.not_eq_true', Bool.not_eq_false] at asked
    obtain ⟨rule, mem, allows⟩ := List.any_eq_true.mp asked
    obtain ⟨d, mem, actionable⟩ := List.mem_filterMap.mp mem
    exact ⟨d, mem, rule, actionable, allows⟩

theorem Sound.found_of_locate {source : Text} (sound : doc.Sound source)
    (located : doc.locate line = some (.node id (some q))) :
    (∃ rest, doc.startingOn line = id :: rest) ∧ doc.Holds q id := by
  rw [sound.locate_eq] at located
  cases found : doc.startingOn line with
  | nil =>
    rw [found] at located
    cases located
  | cons j rest =>
    rw [found, List.head?_cons, Option.map_some, Option.some.injEq] at located
    obtain ⟨-, -, q', link, -, -⟩ := sound.first_spec found
    rcases aim_node link with aim | ⟨block, aim⟩
    · rw [aim] at located
      cases located
      exact ⟨⟨rest, rfl⟩, (sound.linked.agree q id).mpr link⟩
    · rw [aim] at located
      cases located

namespace OpensLine

variable (opens : OpensLine text p doc line id q u) (wf : doc.WellFormed text) (snug : doc.Snug text)

include opens wf snug

theorem aimed : doc.Aimed text line id q u := by
  obtain ⟨found, hold⟩ := wf.sound.found_of_locate opens.located
  exact ⟨wf.sound, snug, wf.anchored, found, hold, opens.outside, opens.span⟩

theorem opensAt : doc.OpensAt text u.lo line id q u := ⟨opens.aimed wf snug, rfl, opens.first⟩

/-- The text in front of the target, and behind it. -/
theorem split : ∃ a c b, text = a ++ c :: b ∧ u.lo = bytes a ∧ Run (lastLine a) ∧
    isBlank c = false := by
  obtain ⟨a, c, b, rfl, here, seen⟩ := snug.starts id u (opens.aimed wf snug).token
  obtain ⟨a', b', same, here', blanks⟩ := opens.first
  obtain ⟨rfl, -⟩ := append_inj_bytes same (here.trans here'.symm)
  exact ⟨a, c, b, rfl, here.symm, blanks, seen⟩

end OpensLine

section Run

variable {K : NodeId → Option Comment} {k : Comment}

theorem WritesAbove.vacant (writes : WritesAbove o path text p doc ds) {d : Diagnostic} (mem : d ∈ ds)
    {rule : Text} (asks : Asks o d rule) : doc.Vacant o d rule := by
  obtain ⟨name, plain, target⟩ := writes.each d mem rule asks
  exact ⟨name, plain, target.imp_right fun ⟨id, q, _, opens⟩ =>
    ⟨id, q, opens.located, opens.ordinary, opens.bare⟩⟩

/-- A comment on top of a node belongs to a line that has been asked for. -/
theorem CrownedBy.opens (crowned : CrownedBy text o doc ds doc' K) (writes : WritesAbove o path text p doc ds)
    {j : NodeId} (put : K j = some k) : ∃ d ∈ ds, ∃ rule q u, Asks o d rule ∧
      OpensLine text p doc d.line j q u := by
  obtain ⟨d, mem, rule, q, asks, located⟩ := crowned.targets j k put
  rcases (writes.each d mem rule asks).2.2 with none | ⟨id, q', u, opens⟩
  · cases none.symm.trans located
  · cases located.symm.trans opens.located
    exact ⟨d, mem, rule, _, u, asks, opens⟩

variable (crowned : CrownedBy text o doc ds doc' K) (writes : WritesAbove o path text p doc ds)
variable (wf : doc.WellFormed text)

section

include crowned writes wf

theorem CrownedBy.rowed : doc.Rowed text K where
  line j k put := ⟨(crowned.rows j k put).new, (crowned.rows j k put).kind⟩
  opens j k put := by
    obtain ⟨d, -, rule, q, u, -, opens⟩ := crowned.opens writes put
    obtain ⟨a, c, b, split, here, blanks, seen⟩ := opens.split wf writes.snug
    exact ⟨u, a, c, b, opens.span, writes.snug.wide j u (opens.aimed wf writes.snug).token, here, split,
      blanks, seen⟩
  alone i j k l u v put put' span span' same := by
    obtain ⟨d, -, -, _, _, -, opens⟩ := crowned.opens writes put
    obtain ⟨d', -, -, _, _, -, opens'⟩ := crowned.opens writes put'
    cases span.symm.trans opens.span
    cases span'.symm.trans opens'.span
    have line := (opens.opensAt wf writes.snug).line_eq
    rw [same, (opens'.opensAt wf writes.snug).line_eq] at line
    have located := opens.located
    rw [← line, opens'.located] at located
    cases located
    rfl

end

include crowned

/-- A target that was asked for has a comment on top, which covers the rule. -/
theorem CrownedBy.crown {d : Diagnostic} (mem : d ∈ ds) {rule : Text} (asks : Asks o d rule)
    (opens : OpensLine text p doc d.line id q u) : ∃ k, K id = some k ∧ k.Suppresses rule := by
  have bare := opens.bare
  have covered := crowned.covered d mem rule asks _ opens.located
  cases put : K id with
  | none =>
    exfalso
    rcases covered with ⟨cs, c, held, parses, reads, -⟩ | ⟨-, cs, c, held, parses, reads, -⟩
    · have none := bare .leading (by simp)
      unfold Bare at none
      rw [← crowned.crowns.comments_eq put, held, List.getLast?_concat] at none
      cases (none c rfl).symm.trans reads
    · have none := bare .trailing (by simp)
      unfold Bare at none
      rw [← crowned.crowns.comments_eq put, held, List.getLast?_concat] at none
      cases (none c rfl).symm.trans reads
  | some k =>
    have held : (doc'.node id).comments .leading = (doc.node id).leading ++ [k] := by
      have here := crowned.crowns.leading id
      rw [put] at here
      exact here
    rcases covered with ⟨cs, c, split, covers⟩ | ⟨none, -⟩
    · obtain ⟨-, last⟩ := List.append_inj' (held.symm.trans split) rfl
      cases last
      exact ⟨k, rfl, covers⟩
    · unfold Bare at none
      rw [held, List.getLast?_concat] at none
      have reads := (crowned.rows id k put).reads
      rw [none k rfl] at reads
      cases reads

end Run

/-- The text that a run has printed, and what is read of it: the targets of the lines that were asked for
have directives above them. -/
structure Overlaid (o : AnnotateOptions) (path text text' : Text) (ds : List Diagnostic) (p p' : Program)
    (doc doc' : Document) (notes : List Grammar.Note) : Prop where
  read : IsRead path text' p' doc'
  again : Reread doc.eol notes text text' p p' doc doc'
  order : notes.Pairwise (·.lo < ·.lo)
  fits : ∀ n ∈ notes, n.Fits text p
  places : ∀ x, (∃ n ∈ notes, n.lo = x) ↔ ∃ d ∈ ds, ∃ rule id q u, Asks o d rule ∧
    OpensLine text p doc d.line id q u ∧ u.lo = x
  marked : ∀ d ∈ ds, ∀ rule, Asks o d rule → ∀ id q,
    doc.locate d.line = some (.node id (some q)) → doc'.Marked rule (.node id (some q))

/-- A run that writes above lines prints what is read as the source is. -/
theorem IsRead.printed (read : IsRead path text p doc) (writes : WritesAbove o path text p doc ds)
    (changed : annotateSource o path text ds = .ok (some ⟨summary, some text'⟩)) :
    ∃ p' doc' notes, Overlaid o path text text' ds p p' doc doc' notes := by
  have wf := read.wellFormed
  have snug := writes.snug
  have plain := writes.unmarked
  obtain ⟨K, crowned⟩ := crowned_run writes.above writes.brief wf.sound {}
    fun d mem rule asks => writes.vacant mem asks
  obtain ⟨notes, text₁, below, order, weaves, printed⟩ :=
    crowned.crowns.print_rows wf (crowned.rowed writes wf)
  -- what has been printed is this text
  obtain rfl : text₁ = text' := by
    rw [read.annotateSource_eq (asked_of_changed changed)] at changed
    unfold annotate at changed
    rw [annotateFrom_eq_foldl wf.sound] at changed
    simp only [bind, Except.bind] at changed
    split at changed
    next => rw [printed] at changed; cases changed; rfl
    next => cases changed
  have source : ∀ n, n ∈ notes ↔ ∃ j k d rule q u a b, d ∈ ds ∧ Asks o d rule ∧
      OpensLine text p doc d.line j q u ∧ K j = some k ∧ text = a ++ b ∧ bytes a = u.lo ∧
      n = ⟨u.lo, k.text, lastLine a⟩ := by
    intro n
    rw [below]
    constructor
    · rintro ⟨j, k, u, a, b, -, put, span, split, here, rfl⟩
      obtain ⟨d, mem, rule, q, v, asks, opens⟩ := crowned.opens writes put
      cases span.symm.trans opens.span
      exact ⟨j, k, d, rule, q, u, a, b, mem, asks, opens, put, split, here, rfl⟩
    · rintro ⟨j, k, d, rule, q, u, a, b, mem, asks, opens, put, split, here, rfl⟩
      exact ⟨j, k, u, a, b, (opens.aimed wf snug).token.reached, put, opens.span, split, here, rfl⟩
  have fits : ∀ n ∈ notes, n.Fits text p := by
    intro n mem
    obtain ⟨j, k, d, rule, q, u, a, b, -, -, opens, put, split, here, rfl⟩ := (source n).mp mem
    obtain ⟨a', c, b', split', here', blanks, -⟩ := opens.split wf snug
    obtain ⟨rfl, -⟩ := append_inj_bytes (split.symm.trans split') (here.trans here')
    exact ⟨(crowned.rows j k put).plain, opens.token, blanks, a, b, split, here, rfl⟩
  have above : ∀ n ∈ notes, ∃ line id q u, doc.OpensAt text n.lo line id q u := by
    intro n mem
    obtain ⟨j, k, d, rule, q, u, a, b, -, -, opens, -, -, -, rfl⟩ := (source n).mp mem
    exact ⟨d.line, j, q, u, opens.opensAt wf snug⟩
  have program := read.program
  rw [plain] at program
  obtain ⟨p', doc', program', again⟩ := exists_reread writes.untyped wf snug program read.document
    weaves order fits above
  have unmarked := unmarked_weaves plain weaves (by
    intro r mem
    obtain ⟨n, -, rfl⟩ := List.mem_map.mp mem
    rfl)
  -- the note for a line
  have note : ∀ d ∈ ds, ∀ rule, Asks o d rule → ∀ id q u, OpensLine text p doc d.line id q u →
      ∃ n ∈ notes, n.lo = u.lo ∧ ∃ k : Comment, n.body = k.text ∧ k.Suppresses rule := by
    intro d mem rule asks id q u opens
    obtain ⟨k, put, covers⟩ := crowned.crown mem asks opens
    obtain ⟨a, c, b, split, here, -⟩ := opens.split wf snug
    exact ⟨_, (source _).mpr ⟨id, k, d, rule, q, u, a, c :: b, mem, asks, opens, put, split,
      here.symm, rfl⟩, rfl, k, rfl, covers⟩
  refine ⟨p', doc', notes, ⟨by rwa [unmarked], again.read', again.wellFormed'⟩, again, order, fits,
    fun x => ⟨?_, ?_⟩, fun d mem rule asks id q located => ?_⟩
  · rintro ⟨n, mem, rfl⟩
    obtain ⟨j, k, d, rule, q, u, a, b, held, asks, opens, -, -, -, rfl⟩ := (source n).mp mem
    exact ⟨d, held, rule, j, q, u, asks, opens, rfl⟩
  · rintro ⟨d, mem, rule, id, q, u, asks, opens, rfl⟩
    obtain ⟨n, held, here, -⟩ := note d mem rule asks id q u opens
    exact ⟨n, held, here⟩
  · rcases (writes.each d mem rule asks).2.2 with none | ⟨id', q', u, opens⟩
    · cases none.symm.trans located
    · cases located.symm.trans opens.located
      obtain ⟨n, held, here, k, body, parsed, reads, covers⟩ := note d mem rule asks id q u opens
      refine again.marked held (here ▸ opens.opensAt wf snug) fun c _ same => ⟨parsed, ?_, covers⟩
      rw [same, body, reads]

/-- Two statements, one of them between comments. -/
def notedSource : Text := "// x\n  a // y\nb".toList

def notedSample : Document where
  nodes := #[
    { kind := .program, span := some ⟨0, 15, 1, 3⟩, children := [1, 3] },
    { kind := .statement, span := some ⟨7, 8, 2, 2⟩, parent := some 0, children := [2]
      leading := [{ kind := .line, text := " x".toList, placement := .leading
                    span := some ⟨0, 4, 1, 1⟩ }]
      trailing := [{ kind := .line, text := " y".toList, placement := .trailing false
                     span := some ⟨9, 13, 2, 2⟩ }] },
    { kind := .expression, span := some ⟨7, 8, 2, 2⟩, parent := some 1 },
    { kind := .statement, span := some ⟨14, 15, 3, 3⟩, parent := some 0, children := [4] },
    { kind := .expression, span := some ⟨14, 15, 3, 3⟩, parent := some 3 }]

def notedRun : List Diagnostic := [complaint 2 'r', complaint 3 'r']

/-- The same with a directive above each of the statements. -/
def directedSource : Text :=
  ("// x\n  // eslint-disable-next-line r -- m\n  a // y\n" ++
    "// eslint-disable-next-line r -- m\nb").toList

set_option maxRecDepth 100000 in
theorem notedSample_read : ∃ p, IsRead "a.js".toList notedSource p notedSample ∧
    WritesAbove briefOptions "a.js".toList notedSource p notedSample notedRun := by
  have wf : notedSample.WellFormed notedSource := wellFormed_of_reads (by decide)
  obtain ⟨p, program, planted, tokens⟩ :=
    @exists_program_of_inOrder "a.js".toList notedSource notedSample
      (fun p => (∃ st ∈ p.stretches, st.lo = 7 ∧ st.fresh = true) ∧
        ∃ st ∈ p.stretches, st.lo = 14 ∧ st.fresh = true) _ (by
        unfold notedSource notedSample
        simp only [String.reduceToList]
        decide +kernel)
  have located : notedSample.locate 2 = some (.node 1 (some 0)) := by decide
  have located' : notedSample.locate 3 = some (.node 3 (some 0)) := by decide
  have first : OpensLine notedSource p notedSample 2 1 0 ⟨7, 8, 2, 2⟩ :=
    ⟨located, ordinary_of_located located (by decide) (by decide), rfl, rfl,
      ⟨notedSource.take 7, notedSource.drop 7, rfl, by decide, by decide⟩, tokens.1, by decide⟩
  have second : OpensLine notedSource p notedSample 3 3 0 ⟨14, 15, 3, 3⟩ :=
    ⟨located', ordinary_of_located located' (by decide) (by decide), rfl, rfl,
      ⟨notedSource.take 14, notedSource.drop 14, rfl, by decide, by decide⟩, tokens.2, by decide⟩
  refine ⟨p, ⟨program, planted, wf⟩, rfl, rfl, snug_of_table (by decide), rfl, by decide,
    fun d mem rule asks => ?_⟩
  have name : rule = ['r'] ∧ (d.line = 2 ∨ d.line = 3) := by
    rcases List.mem_pair.mp mem with rfl | rfl
    · exact ⟨(Option.some.inj asks.1).symm, .inl rfl⟩
    · exact ⟨(Option.some.inj asks.1).symm, .inr rfl⟩
  obtain ⟨rfl, line⟩ := name
  refine ⟨⟨by decide, by decide, by decide, by decide⟩, by decide, .inr ?_⟩
  rcases line with line | line
  · rw [line]
    exact ⟨1, 0, _, first⟩
  · rw [line]
    exact ⟨3, 0, _, second⟩

set_option maxRecDepth 100000 in
theorem annotateSource_noted : annotateSource briefOptions "a.js".toList notedSource notedRun =
    .ok (some ⟨{ inserted := 2 }, some directedSource⟩) := by
  unfold notedSource directedSource notedRun
  simp only [String.toList_append, String.reduceToList]
  exact annotateSource_of_inOrder (by decide) (by decide +kernel)

end Document
end Quell
