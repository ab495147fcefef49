import Quell.Proofs.Annotate.Crowns
import Quell.Proofs.Annotate.Order
import Quell.Proofs.Annotate.Written

/-!
What a run of calls for lines puts in front of their targets.

If every line that is asked for has no target, or one without a directive that an ordinary comment
serves, then a run that writes above the lines adds line comments in front of these targets and does
nothing else (`crowned_run`).
-/
namespace Quell

open Text Relation Grammar

theorem Text.ofBreaks_plain : OfBreaks fun t => ∀ c ∈ t, isLineEnd c = false where
  plain _ free := free
  append _ _ ha hb := List.forall_mem_append.mpr ⟨ha, hb⟩
  part _ _ free inside _ c mem := free c (inside.subset mem)

/-- A directive that was put in as a line comment. -/
structure Comment.IsRow (k : Comment) : Prop where
  new : k.span = none
  kind : k.kind = .line
  reads : (Directive.parse? k.text).isSome = true
  plain : ∀ c ∈ k.text, isLineEnd c = false

theorem Comment.IsRow.merge {k : Comment} (row : k.IsRow) {rule : Text}
    (free : ∀ c ∈ rule, isLineEnd c = false) : (k.merge rule).1.IsRow := by
  rcases k.merge_cases rule with ⟨e, -⟩ | ⟨e, -⟩ | ⟨d, -, -, e⟩
  · rwa [e]
  · rwa [e]
  · have parses := Comment.merge_parses e
    have plain := ofBreaks_plain.merge row.plain free e
    rw [e]
    exact ⟨row.new, row.kind, parses.2.2.2.2, plain⟩

namespace Document

variable {source : Text} {doc doc' : Document} {K : NodeId → Option Comment} {id q : NodeId}
variable {o : AnnotateOptions} {ds : List Diagnostic} {d : Diagnostic} {rule : Text} {line : Nat}

theorem Crowns.refl (doc : Document) : doc.Crowns doc fun _ => none :=
  ⟨rfl, rfl, fun _ => ⟨rfl, rfl, rfl, rfl⟩, fun _ => (List.append_nil _).symm, fun _ _ _ => rfl⟩

theorem Crowns.comments_eq (crowns : doc.Crowns doc' K) (none : K id = none) (slot : Slot) :
    (doc'.node id).comments slot = (doc.node id).comments slot := by
  cases slot with
  | leading => exact (crowns.leading id).trans (by rw [none]; exact List.append_nil _)
  | trailing => exact crowns.rest id .trailing nofun
  | inner => exact crowns.rest id .inner nofun

/-- Another comment in front of a node. -/
theorem Crowns.set (crowns : doc.Crowns doc' K) (valid : id < doc.nodes.size) (k : Comment) :
    doc.Crowns (doc'.update id (·.setComments .leading ((doc.node id).leading ++ [k])))
      (Function.update K id (some k)) := by
  have valid' : id < doc'.nodes.size := by rwa [crowns.size]
  have leads := leads_setComments valid' ((doc.node id).leading ++ [k])
  refine ⟨leads.eol.trans crowns.eol, leads.size.trans crowns.size, fun j => ?_, fun j => ?_,
    fun j slot ne => (leads.rest j slot fun h => ne h.2).trans (crowns.rest j slot ne)⟩
  · obtain ⟨kind, span, children, parent⟩ := leads.tree j
    obtain ⟨kind', span', children', parent'⟩ := crowns.tree j
    exact ⟨kind.trans kind', span.trans span', children.trans children', parent.trans parent'⟩
  · by_cases here : j = id
    · subst here
      rw [leads.here, Function.update_self]
      rfl
    · rw [Function.update_of_ne here, ← crowns.leading]
      exact leads.rest j .leading fun h => here h.1

theorem serveAt_bare (above : o.inline = false)
    (bare : ∀ slot ∈ [Slot.leading, .trailing], doc.Bare id slot) (rule : Text) :
    doc.serveAt id (besideWay o) rule =
      (doc.appendComment id .leading (besideComment o rule).2, .inserted) := by
  have none : (besideWay o).slots.find? (doc.node id).directed = none := by
    refine List.find?_eq_none.mpr fun slot mem directed => ?_
    exact directed_iff_not_bare.mp directed (bare slot mem)
  rw [serveAt_of_bare none]
  unfold besideWay
  rw [above]
  rfl

/-- A node without a comment on top gets one. -/
theorem Crowns.serveAt_new (crowns : doc.Crowns doc' K) (valid : id < doc.nodes.size)
    (above : o.inline = false) (bare : ∀ slot ∈ [Slot.leading, .trailing], doc.Bare id slot)
    (none : K id = none) (rule : Text) : doc.Crowns (doc'.serveAt id (besideWay o) rule).1
      (Function.update K id (some (besideComment o rule).2)) := by
  have bare' : ∀ slot ∈ [Slot.leading, .trailing], doc'.Bare id slot := fun slot mem =>
    (bare slot mem).congr (crowns.comments_eq none slot)
  have held : (doc'.node id).comments .leading = (doc.node id).leading :=
    crowns.comments_eq none .leading
  rw [serveAt_bare above bare', appendComment_eq, held]
  exact crowns.set valid _

/-- The comment on top of a node takes the rule up. -/
theorem Crowns.serveAt_old {k : Comment} (crowns : doc.Crowns doc' K) (valid : id < doc.nodes.size)
    (put : K id = some k) (reads : (Directive.parse? k.text).isSome = true) (rule : Text) :
    doc.Crowns (doc'.serveAt id (besideWay o) rule).1
      (Function.update K id (some (k.merge rule).1)) := by
  have held : (doc'.node id).comments .leading = (doc.node id).leading ++ [k] := by
    have here := crowns.leading id
    rw [put] at here
    exact here
  have found : (besideWay o).slots.find? (doc'.node id).directed = some .leading := by
    refine List.find?_cons_of_pos ?_
    unfold Node.directed
    rw [held, List.getLast?_concat]
    exact reads
  obtain ⟨cs, c, split, -, served⟩ := Node.serve_directed found
  obtain ⟨rfl, last⟩ := List.append_inj' (held.symm.trans split) rfl
  cases last
  have made : (doc'.serveAt id (besideWay o) rule).1 =
      doc'.update id (·.setComments .leading ((doc.node id).leading ++ [(k.merge rule).1])) := by
    refine update_congr doc' id ?_
    rw [served]
  rw [made]
  exact crowns.set valid _

/-- What is asked for on a line fits into a line comment, and there is no target, or one that has no
directive yet. -/
structure Vacant (o : AnnotateOptions) (doc : Document) (d : Diagnostic) (rule : Text) : Prop where
  name : RuleName rule
  plain : ∀ c ∈ rule, isLineEnd c = false
  target : doc.locate d.line = none ∨ ∃ id q, doc.locate d.line = some (.node id (some q)) ∧
    doc.Ordinary d.line ∧ ∀ slot ∈ [Slot.leading, .trailing], doc.Bare id slot

/-- A run has put line comments in front of the targets of the lines, and they cover what was asked
for. -/
structure CrownedBy (source : Text) (o : AnnotateOptions) (doc : Document) (ds : List Diagnostic)
    (doc' : Document) (K : NodeId → Option Comment) : Prop where
  later : Later source doc doc'
  crowns : doc.Crowns doc' K
  rows : ∀ j k, K j = some k → k.IsRow
  targets : ∀ j k, K j = some k → ∃ d ∈ ds, ∃ rule q, Asks o d rule ∧
    doc.locate d.line = some (.node j (some q))
  covered : ∀ d ∈ ds, ∀ rule, Asks o d rule → ∀ t, doc.locate d.line = some t → doc'.CoveredAt rule t

namespace CrownedBy

variable {x : Document × Summary} (crowned : CrownedBy source o doc ds x.1 K)

include crowned

theorem idle (none : ¬ ∃ rule, Asks o d rule) :
    CrownedBy source o doc (ds ++ [d]) (advance o x d).1 K := by
  rw [advance_idle none]
  refine ⟨crowned.later, crowned.crowns, crowned.rows, fun j k put => ?_, fun e mem rule asks => ?_⟩
  · obtain ⟨e, mem, made⟩ := crowned.targets j k put
    exact ⟨e, List.mem_append_left _ mem, made⟩
  · rcases List.mem_append.mp mem with mem | mem
    · exact crowned.covered e mem rule asks
    · exact absurd ⟨rule, List.mem_singleton.mp mem ▸ asks⟩ none

/-- One call. -/
theorem call (above : o.inline = false) (brief : ∀ c ∈ o.message, isLineEnd c = false)
    (sound : doc.Sound source) (asks : Asks o d rule) (vacant : doc.Vacant o d rule) :
    ∃ K', CrownedBy source o doc (ds ++ [d]) (advance o x d).1 K' := by
  obtain ⟨later, crowns, rows, targets, covered⟩ := crowned
  have unique : ∀ {r}, Asks o d r → r = rule := fun asks' =>
    Option.some.inj (asks'.1.symm.trans asks.1)
  have ordinary : doc.Ordinary d.line := by
    rcases vacant.target with none | ⟨_, _, -, ordinary, -⟩
    · intro id p found
      cases none.symm.trans found
    · exact ordinary
  obtain ⟨doc₁, r, called, next, settled⟩ :=
    (later.ordinary d.line ordinary).call later.sound vacant.name o
  have step := advance_asks asks called
  have covered' : ∀ e ∈ ds ++ [d], ∀ rule, Asks o e rule → ∀ t, doc.locate e.line = some t →
      doc₁.CoveredAt rule t := by
    intro e mem rule' asks' t found
    rcases List.mem_append.mp mem with mem | mem
    · exact next.covered e.line t rule' ((later.locate e.line).trans found)
        (covered e mem rule' asks' t found)
    · rw [List.mem_singleton.mp mem] at asks' found
      rw [unique asks']
      rcases settled with ⟨none, -⟩ | ⟨t', found', here, -⟩
      · cases (none.symm.trans ((later.locate d.line).trans found))
      · cases found'.symm.trans ((later.locate d.line).trans found)
        exact here
  rw [step]
  rcases vacant.target with none | ⟨id, q, found, -, bare⟩
  · -- nothing starts on the line, and nothing has changed
    obtain rfl : doc₁ = x.1 := by
      rcases settled with ⟨-, same, -⟩ | ⟨t, found, -⟩
      · exact same
      · cases found.symm.trans ((later.locate d.line).trans none)
    refine ⟨K, later, crowns, rows, fun j k put => ?_, covered'⟩
    obtain ⟨e, mem, made⟩ := targets j k put
    exact ⟨e, List.mem_append_left _ mem, made⟩
  · have valid : id < doc.nodes.size := sound.reaches_lt (sound.reaches_of_locate found).1
    have served := (later.ordinary d.line ordinary).annotateOne_eq
      ((later.locate d.line).trans found) o rule
    obtain rfl : (x.1.serveAt id (besideWay o) rule).1 = doc₁ :=
      congrArg Prod.fst (Except.ok.inj (served.symm.trans called))
    have aims : ∀ {K' : NodeId → Option Comment} {k' : Comment}, K' = Function.update K id (some k') →
        ∀ j k, K' j = some k → ∃ e ∈ ds ++ [d], ∃ rule q, Asks o e rule ∧
          doc.locate e.line = some (.node j (some q)) := by
      rintro K' k' rfl j k put
      by_cases here : j = id
      · subst here
        exact ⟨d, by simp, rule, q, asks, found⟩
      · rw [Function.update_of_ne here] at put
        obtain ⟨e, mem, made⟩ := targets j k put
        exact ⟨e, List.mem_append_left _ mem, made⟩
    have all : ∀ {k' : Comment}, k'.IsRow → ∀ j k, Function.update K id (some k') j = some k →
        k.IsRow := by
      intro k' row j k put
      by_cases here : j = id
      · subst here
        rw [Function.update_self] at put
        cases put
        exact row
      · rw [Function.update_of_ne here] at put
        exact rows j k put
    cases put : K id with
    | none =>
      have text := ofBreaks_plain.directiveText o .nextLine brief vacant.plain .line
      have row : (besideComment o rule).2.IsRow := by
        unfold besideComment
        rw [above]
        exact ⟨rfl, rfl, directiveText_parses o .nextLine rule .line, text⟩
      exact ⟨_, later.trans next, crowns.serveAt_new valid above bare put rule, all row, aims rfl,
        covered'⟩
    | some k =>
      have row := rows id k put
      exact ⟨_, later.trans next, crowns.serveAt_old valid put row.reads rule,
        all (row.merge vacant.plain), aims rfl, covered'⟩

end CrownedBy

theorem crowned_run (above : o.inline = false) (brief : ∀ c ∈ o.message, isLineEnd c = false)
    (sound : doc.Sound source) (s : Summary)
    (vacant : ∀ d ∈ ds, ∀ rule, Asks o d rule → doc.Vacant o d rule) :
    ∃ K, CrownedBy source o doc ds (ds.foldl (advance o) (doc, s)).1 K := by
  induction ds using List.reverseRecOn with
  | nil => exact ⟨fun _ => none, .refl sound, .refl doc, nofun, nofun, nofun⟩
  | append_singleton ds d ih =>
    obtain ⟨K, crowned⟩ := ih fun e mem => vacant e (List.mem_append_left _ mem)
    rw [List.foldl_append, List.foldl_cons, List.foldl_nil]
    by_cases asked : ∃ rule, Asks o d rule
    · obtain ⟨rule, asks⟩ := asked
      exact crowned.call above brief sound asks (vacant d (by simp) rule asks)
    · exact ⟨K, crowned.idle asked⟩

end Document
end Quell
