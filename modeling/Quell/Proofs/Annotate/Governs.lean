import Quell.Proofs.Source.RoundTrip

/-!
Which line a directive speaks about.

A call that merges its rule, or finds it covered, looks at the last comment of a slot and at nothing
else. In a document as it is read, that comment stands in front of the code that the call is for, or
behind it; how many line breaks stand between the two decides whether the directive speaks about the
line: `annotateOne_governs`.
-/
namespace Quell

open Text Grammar

/-- The directive speaks about the line: it ends on the line before, or it stands on the line. -/
def Directive.Governs (d : Directive) (s : Span) (line : Nat) : Prop :=
  d.form = .nextLine ∧ s.endLine + 1 = line ∨
    d.form = .sameLine ∧ s.startLine = line ∧ s.endLine = line

instance (d : Directive) (s : Span) (line : Nat) : Decidable (d.Governs s line) :=
  inferInstanceAs (Decidable (_ ∨ _))

/-- There are so many line feeds between two offsets. -/
def Text.BreaksBetween (t : Text) (lo hi n : Nat) : Prop :=
  ∃ m, slice? lo hi t = some m ∧ m.breaks = n

theorem Text.breaksBetween_iff {t : Text} {lo hi n : Nat} (first : Cut t lo) (last : Cut t hi)
    (le : lo ≤ hi) : t.BreaksBetween lo hi n ↔
      (LineIndex.of t).lineOf hi = (LineIndex.of t).lineOf lo + n := by
  obtain ⟨m, hm⟩ := first.slice last le
  have lines := lineOf_slice hm
  constructor
  · rintro ⟨m', hm', count⟩
    cases hm.symm.trans hm'
    rw [lines, count]
  · intro same
    exact ⟨m, hm, by omega⟩

section Lines

variable {source : Text} {s t : Span} (hs : s.Fits source) (ht : t.Fits source)

include hs ht

theorem Directive.governs_front (d : Directive) (front : s.hi ≤ t.lo) :
    d.Governs s t.startLine ↔ d.form = .nextLine ∧ source.BreaksBetween s.hi t.lo 1 ∨
      d.form = .sameLine ∧ source.BreaksBetween s.lo t.lo 0 := by
  have le := hs.le
  rw [breaksBetween_iff hs.hi ht.lo front, breaksBetween_iff hs.lo ht.lo (by omega)]
  have between := hs.endLine_le ht front
  have across := hs.lines_le
  unfold Governs
  rw [← hs.startLine, ← hs.endLine, ← ht.startLine]
  cases d.form with
  | nextLine =>
    simp only [reduceCtorEq, true_and, false_and, or_false]
    omega
  | sameLine =>
    simp only [reduceCtorEq, true_and, false_and, false_or]
    omega

theorem Directive.governs_behind (d : Directive) (behind : t.hi ≤ s.lo) :
    d.Governs s t.startLine ↔ d.form = .sameLine ∧ source.BreaksBetween t.lo s.hi 0 := by
  have le := hs.le
  have le' := ht.le
  rw [breaksBetween_iff ht.lo hs.hi (by omega)]
  have between := ht.endLine_le hs behind
  have across := ht.lines_le
  have across' := hs.lines_le
  unfold Governs
  rw [← hs.endLine, ← ht.startLine]
  cases d.form with
  | nextLine =>
    simp only [reduceCtorEq, true_and, false_and, or_false, iff_false]
    omega
  | sameLine =>
    simp only [reduceCtorEq, true_and, false_and, false_or]
    omega

end Lines

namespace Document

variable {source : Text} {doc doc' : Document} {o : AnnotateOptions} {rule : Text} {line : Nat}
variable {r : Resolution} {id block : NodeId} {slot : Slot} {s : Span}

/-- The node that the descent for a span ends at. -/
def around (doc : Document) (s : Span) : NodeId := doc.enclosing s doc.nodes.size root

theorem enclosing_contains (doc : Document) (s : Span) (fuel : Nat) (id : NodeId) :
    doc.enclosing s fuel id = id ∨
      ∃ u, doc.span (doc.enclosing s fuel id) = some u ∧ s.hi ≤ u.hi := by
  induction fuel generalizing id with
  | zero => exact .inl rfl
  | succ fuel ih =>
    rw [enclosing]
    split
    · rename_i child found
      refine .inr ?_
      rcases ih child with same | inside
      · rw [same]
        have holds := List.find?_some found
        obtain ⟨u, hu, contains⟩ := (Option.any_eq_true _ _).mp holds
        simp only [Span.contains, Bool.and_eq_true, decide_eq_true_eq] at contains
        exact ⟨u, hu, contains.2⟩
      · exact inside
    · exact .inl rfl

theorem owner_spec (doc : Document) (s : Span) :
    (∃ t, doc.Holds (doc.around s) (doc.owner s).1 ∧ doc.span (doc.owner s).1 = some t ∧
      ((doc.owner s).2.1 = .leading ∧ s.hi ≤ t.lo ∨ (doc.owner s).2.1 = .trailing ∧ t.hi ≤ s.lo)) ∨
    (doc.owner s).1 = doc.around s ∧ (doc.owner s).2.1 = .inner := by
  have before : ∀ x, ((doc.spanned (doc.around s)).filter fun x => x.2.hi ≤ s.lo).getLast? = some x →
      doc.Holds (doc.around s) x.1 ∧ doc.span x.1 = some x.2 ∧ x.2.hi ≤ s.lo := by
    intro x hx
    obtain ⟨mem, le⟩ := List.mem_filter.mp (List.mem_of_getLast? hx)
    exact ⟨(mem_spanned.mp mem).1, (mem_spanned.mp mem).2, of_decide_eq_true le⟩
  have behind : ∀ x, (doc.spanned (doc.around s)).find? (fun x => s.hi ≤ x.2.lo) = some x →
      doc.Holds (doc.around s) x.1 ∧ doc.span x.1 = some x.2 ∧ s.hi ≤ x.2.lo := by
    intro x hx
    obtain ⟨hold, hs⟩ := mem_spanned.mp (List.mem_of_find?_eq_some hx)
    have le := List.find?_some hx
    simp only [decide_eq_true_eq] at le
    exact ⟨hold, hs, le⟩
  unfold owner
  dsimp only
  split
  · rename_i a t c u left right
    split
    · obtain ⟨hold, hs, le⟩ := before _ left
      exact .inl ⟨t, hold, hs, .inr ⟨rfl, le⟩⟩
    · obtain ⟨hold, hs, le⟩ := behind _ right
      exact .inl ⟨u, hold, hs, .inl ⟨rfl, le⟩⟩
  · rename_i c u left right
    obtain ⟨hold, hs, le⟩ := behind _ right
    exact .inl ⟨u, hold, hs, .inl ⟨rfl, le⟩⟩
  · rename_i a t left right
    obtain ⟨hold, hs, le⟩ := before _ left
    exact .inl ⟨t, hold, hs, .inr ⟨rfl, le⟩⟩
  · exact .inr ⟨rfl, rfl⟩

theorem solid_of_fits {t : Text} {r : Grammar.Remark} (fits : r.Fits t) : r.lo < r.hi := by
  have size := slice?_bytes fits
  have := bytes_pos (t := Comment.delimit r.kind r.text) (by cases r.kind <;> exact nofun)
  omega

theorem filed_read? {path : Text} (read : read? path source = .ok (some doc))
    (sound : doc.Sound source) : doc.Filed := by
  obtain ⟨p, program, planted⟩ := read?_ok read
  obtain ⟨-, hi, passed⟩ := read?_sited program
  refine filed_ofProgram planted ?_ sound
  have apart : p.remarks.Pairwise fun a b => a.hi ≤ b.lo := by
    have back := List.pairwise_reverse.mp passed.pairwise
    exact back
  refine apart.imp_of_mem fun {a b} ha _ le => ?_
  exact Nat.lt_of_lt_of_le (solid_of_fits (passed.fits a (List.mem_reverse.mpr ha)).1) le

/-- The last comment of a slot is a directive, and the rule is merged into it. -/
def Meets (doc : Document) (rule : Text) (id : NodeId) (slot : Slot) (d : Directive) (s : Span)
    (doc' : Document) (r : Resolution) : Prop :=
  ∃ cs c, (doc.node id).comments slot = cs ++ [c] ∧ c.span = some s ∧
    Directive.parse? c.text = some d ∧ Resolution.ofMerge (c.merge rule).2 = some r ∧
    doc' = doc.update id (·.setComments slot (cs ++ [(c.merge rule).1]))

theorem meets_of_merge (wf : doc.WellFormed source) (reached : doc.Reaches id)
    (settled : Resolution.ofMerge (doc.mergeInto id slot rule).2 = some r) :
    ∃ d s, doc.Meets rule id slot d s (doc.mergeInto id slot rule).1 r := by
  unfold mergeInto at settled ⊢
  rcases List.eq_nil_or_concat ((doc.node id).comments slot) with none | ⟨cs, c, held⟩
  · rw [none] at settled
    cases settled
  · rw [List.concat_eq_append] at held
    rw [held, Comment.mergeLast_append] at settled ⊢
    dsimp only at settled ⊢
    obtain ⟨-, s, span, -⟩ := (wf.each id reached).remarks slot c (by rw [held]; simp)
    cases parses : Directive.parse? c.text with
    | none =>
      unfold Comment.merge at settled
      rw [parses] at settled
      cases settled
    | some d => exact ⟨d, s, cs, c, held, span, parses, settled, rfl⟩

theorem attachOrdinary_meets (wf : doc.WellFormed source) (reached : doc.Reaches id)
    (result : attachOrdinary o doc id rule = (doc', r)) (old : r ≠ .inserted) :
    ∃ slot d s, slot ≠ .inner ∧ doc.Meets rule id slot d s doc' r := by
  rcases attachOrdinary_cases o doc id rule with ⟨r', settled, e⟩ | ⟨-, ⟨r', settled, e⟩ | ⟨-, e⟩⟩
  · cases result.symm.trans e
    obtain ⟨d, s, meets⟩ := meets_of_merge wf reached settled
    exact ⟨.leading, d, s, nofun, meets⟩
  · cases result.symm.trans e
    obtain ⟨d, s, meets⟩ := meets_of_merge wf reached settled
    exact ⟨.trailing, d, s, nofun, meets⟩
  · cases result.symm.trans e
    exact absurd rfl old

theorem attachToBlockTail_meets (wf : doc.WellFormed source) (reached : doc.Reaches block)
    (result : attachToBlockTail o doc block rule = (doc', r)) (old : r ≠ .inserted)
    (found : r ≠ .skipped .noNodeOnLine) :
    ∃ id slot d s, (id = block ∧ slot = .inner ∨ doc.Holds block id ∧ slot = .trailing) ∧
      doc.Meets rule id slot d s doc' r := by
  unfold attachToBlockTail at result
  by_cases empty : doc.children block = []
  · rw [empty, List.isEmpty_nil, if_pos rfl] at result
    dsimp only at result
    cases settled : Resolution.ofMerge (doc.mergeInto block .inner rule).2 with
    | some r' =>
      rw [settled] at result
      cases result
      obtain ⟨d, s, meets⟩ := meets_of_merge wf reached settled
      exact ⟨block, .inner, d, s, .inl ⟨rfl, rfl⟩, meets⟩
    | none =>
      rw [settled, mergeInto_unsettled settled] at result
      have inserted := attachBehindLast_placeholder (wf.sound.reaches_lt reached) empty o rule
      dsimp only at result
      rw [result] at inserted
      exact absurd inserted old
  · rw [if_neg (mt List.isEmpty_iff.mp empty)] at result
    obtain ⟨last, behind⟩ := Option.ne_none_iff_exists'.mp (mt List.getLast?_eq_none_iff.mp empty)
    have hold : doc.Holds block last := List.mem_of_getLast? behind
    rcases attachBehindLast_cases o rule behind with ⟨r', settled, e⟩ | ⟨-, e⟩
    · cases result.symm.trans e
      obtain ⟨d, s, meets⟩ := meets_of_merge wf (reached.child hold) settled
      exact ⟨last, .trailing, d, s, .inr ⟨hold, rfl⟩, meets⟩
    · cases result.symm.trans e
      exact absurd rfl old

theorem Sound.front_of_aim (sound : doc.Sound source) (reached : doc.Reaches id)
    (h : doc.aim id = .blockTail block) {u t : Span} (hu : doc.span block = some u)
    (ht : doc.span id = some t) : u.hi ≤ t.lo := by
  unfold aim at h
  split at h
  · cases h
  · rename_i p link
    have above := sound.linked.reaches_parent reached link (sound.ne_root_of_parent link)
    have ordered := (sound.each p above).ordered
    split at h
    · rename_i consequent alternate found
      split at h
      · rename_i cond
        cases h
        simp only [Bool.and_eq_true, decide_eq_true_eq] at cond
        unfold branches at found
        split at found
        · rename_i test consequent' rest kids
          obtain ⟨rfl, head⟩ := Prod.mk.inj (Option.some.inj found)
          obtain ⟨more, rfl⟩ := List.head?_eq_some_iff.mp head
          rw [kids, cond.1] at ordered
          have later := (List.pairwise_cons.mp (List.pairwise_cons.mp ordered).2).1 id
            List.mem_cons_self
          exact later u t hu ht
        · cases found
      · cases h
    · cases h

/-- A comment in the end of a block, or in an empty one, stands in the block. -/
theorem Filed.within (filed : doc.Filed) (sound : doc.Sound source)
    (kind : doc.kind block = .block) (reached : doc.Reaches id)
    (place : id = block ∧ slot = .inner ∨ doc.Holds block id ∧ slot = .trailing) {c : Comment}
    (mem : c ∈ (doc.node id).comments slot) (span : c.span = some s) {u : Span}
    (hu : doc.span block = some u) : s.hi ≤ u.hi := by
  obtain ⟨s', hs', owner, home⟩ := filed.owner id slot reached c mem
  cases span.symm.trans hs'
  have here : doc.around s = block := by
    rcases doc.owner_spec s with ⟨t, hold, -, leads | trails⟩ | ⟨self, inner⟩
    · rcases place with ⟨-, rfl⟩ | ⟨-, rfl⟩
      · cases home.symm.trans leads.1
      · cases home.symm.trans leads.1
    · rcases place with ⟨-, rfl⟩ | ⟨hold', -⟩
      · cases home.symm.trans trails.1
      · rw [owner] at hold
        have up := (sound.linked.agree _ _).mp hold
        exact Option.some.inj (up.symm.trans ((sound.linked.agree _ _).mp hold'))
    · rcases place with ⟨same, -⟩ | ⟨-, rfl⟩
      · exact self.symm.trans (owner.trans same)
      · cases home.symm.trans inner
  rcases doc.enclosing_contains s doc.nodes.size root with top | ⟨v, hv, le⟩
  · have : block = root := here.symm.trans top
    rw [this, sound.root_kind] at kind
    cases kind
  · change doc.span (doc.around s) = some v at hv
    rw [here, hu] at hv
    cases hv
    exact le

/-- A comment in a slot beside a node stands in front of the node or behind it. -/
theorem Filed.beside (filed : doc.Filed) (reached : doc.Reaches id) (slot_ne : slot ≠ .inner)
    {c : Comment} (mem : c ∈ (doc.node id).comments slot) (span : c.span = some s) {t : Span}
    (ht : doc.span id = some t) : s.hi ≤ t.lo ∨ t.hi ≤ s.lo := by
  obtain ⟨s', hs', owner, home⟩ := filed.owner id slot reached c mem
  cases span.symm.trans hs'
  rcases doc.owner_spec s with ⟨t', -, ht', side⟩ | ⟨-, inner⟩
  · rw [owner, ht] at ht'
    cases ht'
    exact side.imp (·.2) (·.2)
  · exact absurd (home.symm.trans inner) slot_ne

/-- A statement below a directive. -/
def markedSource : Text := "// eslint-disable-next-line r\na".toList

def markedSample : Document where
  nodes := #[
    { kind := .program, span := some ⟨0, 31, 1, 2⟩, children := [1] },
    { kind := .statement, span := some ⟨30, 31, 2, 2⟩, parent := some 0, children := [2]
      leading := [{ kind := .line, text := " eslint-disable-next-line r".toList
                    placement := .leading, span := some ⟨0, 29, 1, 1⟩ }] },
    { kind := .expression, span := some ⟨30, 31, 2, 2⟩, parent := some 1 }]

/-- A statement two lines below a directive. -/
def distantSource : Text := "// eslint-disable-next-line q\n\na".toList

def distantSample : Document where
  nodes := #[
    { kind := .program, span := some ⟨0, 32, 1, 3⟩, children := [1] },
    { kind := .statement, span := some ⟨31, 32, 3, 3⟩, parent := some 0, children := [2]
      leading := [{ kind := .line, text := " eslint-disable-next-line q".toList
                    placement := .leading, span := some ⟨0, 29, 1, 1⟩ }] },
    { kind := .expression, span := some ⟨31, 32, 3, 3⟩, parent := some 1 }]

end Document
end Quell
