import Quell.Proofs.Annotate.Reread
import Quell.Proofs.Grammar.Sited
import Quell.Proofs.Print.Untouched

/-!
A source that is read and printed again.

The nodes of a document get their spans from the terms of the program, whose offsets are cuts of
the text behind a byte order mark. Without a mark this is the text that is printed, and printing
gives it back; with one, printing either gives it back or faults (`print_read?`).
-/
namespace Quell.Document

open Text Grammar

variable {doc doc' : Document} {P : Nat → Prop}

theorem size_addChild (doc : Document) (parent : NodeId) (kind : NodeKind) (s : Span) :
    (doc.addChild parent kind s).1.nodes.size = doc.nodes.size + 1 := by
  simp [addChild, appendChild]

theorem span_addChild (doc : Document) (parent : NodeId) (kind : NodeKind) (s : Span) (j : NodeId) :
    (doc.addChild parent kind s).1.span j = if j = doc.nodes.size then some s else doc.span j := by
  simp only [addChild, appendChild, span, node_update, node_alloc, alloc_snd]
  repeat' split
  all_goals simp_all

theorem holds_addChild {parent : NodeId} {kind : NodeKind} {s : Span} {p c : NodeId}
    (h : (doc.addChild parent kind s).1.Holds p c) : c = doc.nodes.size ∨ doc.Holds p c := by
  simp only [Holds, addChild, appendChild, children, node_update, node_alloc, alloc_snd] at h
  repeat' split at h
  all_goals simp_all [Holds, children]
  exact h.symm

namespace Grown

theorem new {s : Span} (eol : LineEnding) (lo : P s.lo) (hi : P s.hi) :
    (Document.new (some s) eol).Grown P where
  root_lt := by simp [Document.new, root]
  span id valid := by
    obtain rfl : id = 0 := by simpa [Document.new] using valid
    exact ⟨s, rfl, lo, hi⟩
  child_lt id c hold := by
    cases id with
    | zero => cases hold
    | succ id =>
      unfold Holds children at hold
      rw [node_of_size_le _ (by simp [Document.new])] at hold
      cases hold

theorem addChild (grown : doc.Grown P) (parent : NodeId) (kind : NodeKind) {s : Span} (lo : P s.lo)
    (hi : P s.hi) : (doc.addChild parent kind s).1.Grown P where
  root_lt := by
    rw [size_addChild]
    exact Nat.lt_succ_of_lt grown.root_lt
  span id valid := by
    rw [span_addChild]
    split
    · exact ⟨s, rfl, lo, hi⟩
    next other =>
      rw [size_addChild] at valid
      exact grown.span id (Nat.lt_of_le_of_ne (Nat.le_of_lt_succ valid) other)
  child_lt id c hold := by
    rw [size_addChild]
    rcases holds_addChild hold with rfl | hold
    · exact Nat.lt_succ_self _
    · exact Nat.lt_succ_of_lt (grown.child_lt id c hold)

theorem plantAll {t : Text} {s : Source} {ts : List Term} {parent : NodeId}
    (cuts : ∀ n, Cut t n → P n) (placed : ∀ e ∈ ts, e.Sited t) (grown : doc.Grown P)
    (h : plantAll s parent doc ts = .ok doc') : doc'.Grown P := by
  refine plantAll.induct s
    (fun parent doc e => ∀ doc', e.Sited t → doc.Grown P → plant s parent doc e = .ok doc' →
      doc'.Grown P)
    (fun parent doc es => ∀ doc', (∀ e ∈ es, e.Sited t) → doc.Grown P →
      Document.plantAll s parent doc es = .ok doc' → doc'.Grown P)
    ?_ ?_ ?_ ?_ ?_ ?_ ?_ parent doc ts doc' placed grown h
  · intro parent doc lo hi label lo' hi' ps ih doc' placed grown h
    rw [plant] at h
    have inner := (Term.sited_mk.mp placed).2.2 _ List.mem_cons_self
    exact ih doc' (Term.sited_mk.mp inner).2.2 grown h
  · intro parent doc label lo hi ps plain none ih doc' placed grown h
    rw [plant, none] at h
    exact ih doc' (Term.sited_mk.mp placed).2.2 grown h
    exact plain
  · intro parent doc label lo hi ps plain kind some e failed doc' placed grown h
    rw [plant, some] at h
    dsimp only at h
    rw [failed] at h
    cases h
    exact plain
  · intro parent doc label lo hi ps plain kind some kind' value doc₁ id added ih doc' placed grown h
    rw [plant, some] at h
    dsimp only at h
    rw [value] at h
    dsimp only at h
    rw [added] at h
    obtain ⟨lo_cut, hi_cut, inside⟩ := Term.sited_mk.mp placed
    have first := grown.addChild parent kind' (s := s.span lo hi) (cuts lo lo_cut) (cuts hi hi_cut)
    rw [added] at first
    exact ih doc' inside first h
    exact plain
  · intro parent doc doc' placed grown h
    rw [Document.plantAll] at h
    cases h
    exact grown
  · intro parent doc e es fault failed ih doc' placed grown h
    rw [Document.plantAll, failed] at h
    cases h
  · intro parent doc e es doc₁ planted ih ih' doc' placed grown h
    rw [Document.plantAll, planted] at h
    obtain ⟨first, rest⟩ := List.forall_mem_cons.mp placed
    exact ih' doc' rest (ih doc₁ first grown planted) h

theorem of_sameTree (grown : doc.Grown P) (same : doc.SameTree doc') : doc'.Grown P where
  root_lt := same.size ▸ grown.root_lt
  span id valid := by
    rw [same.span]
    exact grown.span id (same.size ▸ valid)
  child_lt id c hold := by
    unfold Holds at hold
    rw [same.children] at hold
    exact same.size ▸ grown.child_lt id c hold

theorem sortChildren (grown : doc.Grown P) : doc.sortChildren.Grown P := by
  have size := size_sortChildren doc
  refine ⟨size ▸ grown.root_lt, fun id valid => ?_, fun id c hold => ?_⟩
  · obtain ⟨s, hs, ends⟩ := grown.span id (size ▸ valid)
    refine ⟨s, ?_, ends⟩
    unfold Document.span
    rw [node_sortChildren]
    exact hs
  · unfold Holds children at hold
    rw [node_sortChildren, List.mem_mergeSort] at hold
    exact size ▸ grown.child_lt id c hold

end Grown

theorem untouched_ofProgram {t : Text} {s : Source} {p : Program} (read : ofProgram s p = .ok doc)
    (placed : ∀ e ∈ p.terms, e.Sited t) (cuts : ∀ n, Cut t n → P n) (full : P s.text.bytes) :
    doc.Untouched P := by
  obtain ⟨tree, planted, rfl⟩ := ofProgram_ok read
  have start : (new (some (s.span 0 s.text.bytes)) (LineEnding.detect s.text)).Grown P :=
    .new _ (cuts 0 (Cut.zero t)) full
  have grown := (start.plantAll cuts placed planted).sortChildren
  have silent := ((silent_new _ _).plantAll planted).sortChildren
  have same := sameTree_attachAll tree.sortChildren
    (p.remarks.map fun r => ⟨r.kind, r.text, s.span r.lo r.hi⟩)
  refine ⟨grown.of_sameTree same, fun id slot c mem => ?_⟩
  by_cases valid : id < tree.sortChildren.nodes.size
  · rw [comments_attachAll _ valid, silent id slot, List.nil_append] at mem
    obtain ⟨raw, -, rfl⟩ := List.mem_map.mp mem
    exact ⟨rfl, rfl⟩
  · rw [node_of_size_le _ (same.size ▸ Nat.le_of_not_lt valid)] at mem
    cases slot <;> cases mem

theorem read?_ok {path text : Text} (h : read? path text = .ok (some doc)) :
    ∃ p, Program.read? (Dialect.ofPath path) (Source.unmarked text) = some p ∧
      ofProgram (Source.of text) p = .ok doc := by
  unfold read? at h
  split at h
  · cases h
  · rename_i p program
    cases read : ofProgram (Source.of text) p with
    | error e =>
      rw [read] at h
      cases h
    | ok tree =>
      rw [read] at h
      cases h
      exact ⟨p, program, read⟩

/-- A source that is read prints as it is, unless a byte order mark stands in front: then printing
may fault. -/
theorem print_read? {path text : Text} (h : read? path text = .ok (some doc)) :
    doc.print text = .ok text ∨
      (text.head? = some '\uFEFF' ∧ doc.print text = .error .outsideText) := by
  obtain ⟨p, program, read⟩ := read?_ok h
  have placed := (read?_sited program).1
  by_cases marked : text.head? = some '\uFEFF'
  · have untouched := untouched_ofProgram (P := fun _ => True) read placed (fun _ _ => trivial) trivial
    rcases print_untouched untouched text with same | ⟨fault, -⟩
    · exact .inl same
    · exact .inr ⟨marked, fault⟩
  · have bare : Source.unmarked text = text := by
      unfold Source.unmarked
      split
      · exact absurd rfl marked
      · rfl
    rw [bare] at placed
    have untouched := untouched_ofProgram (P := Cut text) read placed (fun _ => id) (Cut.full text)
    rcases print_untouched untouched text with same | ⟨-, n, cut, torn⟩
    · exact .inl same
    · exact absurd cut torn

set_option maxRecDepth 100000 in
theorem print_read?_markup :
    ∃ doc, read? "a.jsx".toList "<a>é {/* c */}\r\n</a> // d".toList = .ok (some doc) ∧
      doc.print "<a>é {/* c */}\r\n</a> // d".toList =
        .ok "<a>é {/* c */}\r\n</a> // d".toList := by
  have passes : ∃ doc, read? "a.jsx".toList "<a>é {/* c */}\r\n</a> // d".toList = .ok (some doc) ∧
      doc.WellFormed "<a>é {/* c */}\r\n</a> // d".toList := by
    simp only [String.reduceToList]
    exact exists_read_of_inOrder (by decide +kernel)
  obtain ⟨doc, read, -⟩ := passes
  refine ⟨doc, read, (print_read? read).resolve_right ?_⟩
  simp

set_option maxRecDepth 100000 in
/-- A byte order mark is left out of what is read, but the printer counts it: the spans of the
document lie too far in front. -/
theorem print_faults_marked :
    ∃ doc, read? "a.js".toList "\uFEFFa".toList = .ok (some doc) ∧
      doc.print "\uFEFFa".toList = .error .outsideText := by
  simp only [String.reduceToList]
  have faults : (readInOrder? ['a', '.', 'j', 's'] ['\uFEFF', 'a']).any (fun doc =>
      decide (doc.print ['\uFEFF', 'a'] = .error .outsideText)) = true := by decide +kernel
  obtain ⟨doc, read, fault⟩ := (Option.any_eq_true _ _).mp faults
  exact ⟨doc, read?_of_inOrder read, of_decide_eq_true fault⟩

end Quell.Document
