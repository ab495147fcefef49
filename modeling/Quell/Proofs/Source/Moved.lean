import Quell.Proofs.Grammar.Rows
import Quell.Proofs.Source.RoundTrip

/-!
A source with rows put in.

Where the terms of a program have moved, the document of the program has too: the same nodes come in
the same order, and what starts at or behind a row stands farther behind (`Displaced`).
-/
namespace Quell

open Text

namespace Text

variable {rows : List RowAt} {lo hi : Nat} {source text t : Text}

/-- A part of a text without rows inside is a part of the new text. -/
theorem Weaves.piece {n : Nat} {x t y u : Text} (weaves : Weaves rows n (x ++ (t ++ y)) u)
    (free : ∀ r ∈ rows, ¬ (n + bytes x < r.1 ∧ r.1 < n + bytes x + bytes t)) :
    ∃ a b, u = a ++ (t ++ b) ∧ bytes a = bytes x + gained bytes (· ≤ n + bytes x) rows := by
  generalize whole : x ++ (t ++ y) = s at weaves
  induction weaves generalizing x with
  | nil => exact ⟨x, y, whole.symm, rfl⟩
  | @row rows n m w s u behind ih =>
    by_cases le : bytes m ≤ bytes x
    · obtain ⟨x', rfl, rfl⟩ := exists_middle whole.symm le
      rw [bytes_append, ← Nat.add_assoc] at free ⊢
      obtain ⟨a, b, rfl, size⟩ := ih (fun r mem => free r (List.mem_cons_of_mem _ mem)) rfl
      refine ⟨m ++ (w ++ a), b, by simp only [List.append_assoc], ?_⟩
      rw [gained_cons, if_pos (decide_eq_true (Nat.le_add_right _ _))]
      simp only [bytes_append]
      omega
    · have outside := free (n + bytes m, w) List.mem_cons_self
      rw [← List.append_assoc] at whole
      obtain ⟨m', rfl, rfl⟩ := exists_middle (a := x ++ t) whole
        (by rw [bytes_append]; dsimp only at outside; omega)
      refine ⟨x, m' ++ (w ++ u), by simp only [List.append_assoc], ?_⟩
      rw [gained_eq_zero, Nat.add_zero]
      intro r mem
      refine decide_eq_false fun le' => ?_
      rcases List.mem_cons.mp mem with rfl | mem
      · dsimp only at le'
        omega
      · have := behind.le_row r mem
        omega

theorem Weaves.slice? (weaves : Weaves rows 0 source text) (h : Text.slice? lo hi source = some t)
    (free : ∀ r ∈ rows, ¬ (lo < r.1 ∧ r.1 < hi)) (apart : ∀ r ∈ rows, r.1 ≠ hi) :
    Text.slice? (startAfter rows lo) (startAfter rows hi) text = some t := by
  obtain ⟨x, y, rfl, rfl, rfl⟩ := slice?_eq_some.mp h
  rw [List.append_assoc] at weaves
  rw [← stopAfter_eq_startAfter apart]
  obtain ⟨a, b, rfl, size⟩ := weaves.piece (by rw [Nat.zero_add]; exact free)
  rw [Nat.zero_add] at size
  have inside : gained bytes (· < bytes x + bytes t) rows = gained bytes (· ≤ bytes x) rows :=
    gained_congr fun r mem => decide_eq_decide.mpr (by
      have := free r mem
      have := apart r mem
      omega)
  refine slice?_eq_some.mpr ⟨a, b, (List.append_assoc ..).symm, size, ?_⟩
  unfold startAfter stopAfter
  rw [inside]
  omega

end Text

namespace Document

open Grammar

variable {doc doc' tree tree' : Document} {s s' : Source} {rows : List RowAt}

theorem plant_mk (s : Source) (parent : NodeId) (doc : Document) {kind : NodeKind} {label : Label}
    (gives : label.kind? = some kind) (lo hi : Nat) (ps : List Term) :
    plant s parent doc (.mk label lo hi ps) =
      match withValue s lo hi kind with
      | .error e => .error e
      | .ok kind => plantAll s (doc.addChild parent kind (s.span lo hi)).2
          (doc.addChild parent kind (s.span lo hi)).1 ps := by
  rw [plant.eq_def]
  cases label with
  | hidden => cases gives
  | _ => cases value : withValue s lo hi kind <;> simp only [gives, value]

theorem movedAll_eq_singleton {f g : Nat → Nat} {lo hi : Nat} {label : Label} {ts ps : List Term}
    (h : movedAll f g ts = [.mk label lo hi ps]) : ∃ lo' hi' ps', ts = [.mk label lo' hi' ps'] := by
  cases ts with
  | nil => cases h
  | cons t ts =>
    cases ts with
    | nil =>
      obtain ⟨label', lo', hi', ps'⟩ := t
      rw [movedAll, movedAll, Term.moved] at h
      cases h
      exact ⟨lo', hi', ps', rfl⟩
    | cons u ts =>
      rw [movedAll, movedAll] at h
      cases (List.cons.inj h).2

/-- Whether a part of a program may move: nothing but an empty hole ends where a row is put in. -/
def Movable (rows : List RowAt) (label : Label) (_ hi : Nat) : Prop :=
  label ≠ .shown .emptyHole → ∀ r ∈ rows, r.1 ≠ hi

theorem withValue_moved {lo hi : Nat} {kind v : NodeKind} (weaves : Weaves rows 0 s.text s'.text)
    (apart : kind ≠ .emptyHole → ∀ r ∈ rows, r.1 ≠ hi) (h : withValue s lo hi kind = .ok v) :
    ∃ v', withValue s' (startAfter rows lo) (startAfter rows hi) kind = .ok v' ∧
      (v' = v ∨ (∃ t t', v = .text t ∧ v' = .text t') ∧ ∃ r ∈ rows, lo < r.1 ∧ r.1 < hi) := by
  unfold withValue at h ⊢
  split at h
  next t =>
    split at h
    next value found =>
      cases h
      by_cases free : ∀ r ∈ rows, ¬ (lo < r.1 ∧ r.1 < hi)
      · rw [weaves.slice? found free (apart (by simp))]
        exact ⟨_, rfl, .inl rfl⟩
      · obtain ⟨lo_cut, hi_cut, le⟩ := slice?_cuts found
        obtain ⟨value', found'⟩ := (weaves.start lo_cut).1.slice (weaves.start hi_cut).1
          (startAfter_le_iff.mpr le)
        rw [found']
        push Not at free
        exact ⟨_, rfl, .inr ⟨⟨_, _, rfl, rfl⟩, free⟩⟩
    next => cases h
  next kind plain =>
    cases h
    exact ⟨_, rfl, .inl rfl⟩

/-- The same nodes, with their spans moved. Nothing but what stands for nothing in a hole ends where a
row is put in. The value of a text may be another one if a row is put inside of it. -/
structure Displaced (rows : List RowAt) (s : Source) (doc doc' : Document) : Prop where
  size : doc'.nodes.size = doc.nodes.size
  top : doc'.span root = some (s.span 0 s.text.bytes)
  kind : ∀ id, doc'.kind id = doc.kind id ∨
    (∃ t t', doc.kind id = .text t ∧ doc'.kind id = .text t') ∧
      ∃ u, doc.span id = some u ∧ ∃ r ∈ rows, u.lo < r.1 ∧ r.1 < u.hi
  span : ∀ id, id ≠ root → doc'.span id = (doc.span id).map fun u =>
    s.span (startAfter rows u.lo) (startAfter rows u.hi)
  apart : ∀ id u, id ≠ root → doc.kind id ≠ .emptyHole → doc.span id = some u →
    ∀ r ∈ rows, r.1 ≠ u.hi
  parent : ∀ id, doc'.parent id = doc.parent id
  children : ∀ id, doc'.children id = doc.children id

theorem kind_addChild (doc : Document) (p : NodeId) (kind : NodeKind) (u : Span) (j : NodeId) :
    (doc.addChild p kind u).1.kind j = if j = doc.nodes.size then kind else doc.kind j := by
  simp only [addChild, appendChild, Document.kind, node_update, node_alloc, alloc_snd]
  repeat' split
  all_goals simp_all

theorem parent_addChild (doc : Document) (p : NodeId) (kind : NodeKind) (u : Span) (j : NodeId) :
    (doc.addChild p kind u).1.parent j = if j = doc.nodes.size then some p else doc.parent j := by
  simp only [addChild, appendChild, Document.parent, node_update, node_alloc, alloc_snd]
  repeat' split
  all_goals simp_all

theorem children_addChild (doc : Document) (p : NodeId) (kind : NodeKind) (u : Span) (j : NodeId) :
    (doc.addChild p kind u).1.children j = (if j = doc.nodes.size then [] else doc.children j) ++
      if j = p ∧ p < doc.nodes.size + 1 then [doc.nodes.size] else [] := by
  simp only [addChild, appendChild, Document.children, node_update, node_alloc, alloc_snd,
    size_update, size_alloc]
  repeat' split
  all_goals simp_all

theorem snd_addChild (doc : Document) (p : NodeId) (kind : NodeKind) (u : Span) :
    (doc.addChild p kind u).2 = doc.nodes.size := rfl

namespace Displaced

theorem addChild (h : doc.Displaced rows s doc') (root_lt : root < doc.nodes.size) (p : NodeId)
    {kind kind' : NodeKind} {lo hi : Nat} {u : Span} (at_lo : u.lo = lo) (at_hi : u.hi = hi)
    (apart : kind ≠ .emptyHole → ∀ r ∈ rows, r.1 ≠ hi)
    (same : kind' = kind ∨ (∃ t t', kind = .text t ∧ kind' = .text t') ∧
      ∃ r ∈ rows, lo < r.1 ∧ r.1 < hi) :
    (doc.addChild p kind u).1.Displaced rows s
      (doc'.addChild p kind' (s.span (startAfter rows lo) (startAfter rows hi))).1 where
  size := by rw [size_addChild, size_addChild, h.size]
  top := by rw [span_addChild, if_neg (by rw [h.size]; exact Nat.ne_of_lt root_lt), h.top]
  kind id := by
    rw [kind_addChild, kind_addChild, span_addChild, h.size]
    split
    next =>
      refine same.imp_right fun ⟨texts, across⟩ => ⟨texts, u, rfl, ?_⟩
      rw [at_lo, at_hi]
      exact across
    next => exact h.kind id
  span id proper := by
    rw [span_addChild, span_addChild, h.size]
    split
    next => rw [Option.map_some, at_lo, at_hi]
    next => exact h.span id proper
  apart id v proper full span := by
    rw [kind_addChild] at full
    rw [span_addChild] at span
    split at span
    next here =>
      cases span
      rw [if_pos here] at full
      rw [at_hi]
      exact apart full
    next other =>
      rw [if_neg other] at full
      exact h.apart id v proper full span
  parent id := by rw [parent_addChild, parent_addChild, h.size, h.parent]
  children id := by rw [children_addChild, children_addChild, h.size, h.children]

/-- Moved terms are planted as the old ones are. -/
theorem plantAll {parent : NodeId} {ts : List Term} (weaves : Weaves rows 0 s.text s'.text)
    (movable : ∀ t ∈ ts, t.All (Movable rows)) (root_lt : root < doc.nodes.size)
    (h : doc.Displaced rows s' doc') (planted : plantAll s parent doc ts = .ok tree) :
    ∃ tree', Document.plantAll s' parent doc' (movedAll (startAfter rows) (stopAfter rows) ts) =
      .ok tree' ∧ tree.Displaced rows s' tree' ∧ root < tree.nodes.size := by
  refine plantAll.induct s
    (fun parent doc t => ∀ doc' tree, t.All (Movable rows) → root < doc.nodes.size →
      doc.Displaced rows s' doc' → plant s parent doc t = .ok tree →
      ∃ tree', plant s' parent doc' (t.moved (startAfter rows) (stopAfter rows)) = .ok tree' ∧
        tree.Displaced rows s' tree' ∧ root < tree.nodes.size)
    (fun parent doc ts => ∀ doc' tree, (∀ t ∈ ts, t.All (Movable rows)) → root < doc.nodes.size →
      doc.Displaced rows s' doc' → Document.plantAll s parent doc ts = .ok tree →
      ∃ tree', Document.plantAll s' parent doc' (movedAll (startAfter rows) (stopAfter rows) ts) =
        .ok tree' ∧ tree.Displaced rows s' tree' ∧ root < tree.nodes.size)
    ?_ ?_ ?_ ?_ ?_ ?_ ?_ parent doc ts doc' tree movable root_lt h planted
  · intro parent doc lo hi label lo' hi' ps ih doc' tree movable root_lt h planted
    rw [plant] at planted
    rw [Term.moved, movedAll, movedAll, Term.moved, plant]
    have inner := (Term.all_mk.mp movable).2 _ List.mem_cons_self
    exact ih doc' tree (Term.all_mk.mp inner).2 root_lt h planted
  · intro parent doc label lo hi ps plain none ih doc' tree movable root_lt h planted
    have plain' : ∀ l lo hi qs, label = .hidden →
        movedAll (startAfter rows) (stopAfter rows) ps = [.mk l lo hi qs] → False := by
      rintro l lo hi qs hides eq
      obtain ⟨lo', hi', qs', rfl⟩ := movedAll_eq_singleton eq
      exact plain l lo' hi' qs' hides rfl
    rw [plant, none] at planted
    · rw [Term.moved, plant, none]
      · exact ih doc' tree (Term.all_mk.mp movable).2 root_lt h planted
      · exact plain'
    · exact plain
  · intro parent doc label lo hi ps plain kind some e failed doc' tree movable root_lt h planted
    rw [plant_mk s parent doc some, failed] at planted
    cases planted
  · intro parent doc label lo hi ps plain kind some kind' value doc₁ id added ih doc' tree movable
      root_lt h planted
    obtain ⟨here, inside⟩ := Term.all_mk.mp movable
    have hole : kind = .emptyHole ↔ label = .shown .emptyHole := by
      cases label <;> simp_all [Label.kind?] <;> rintro rfl <;> cases some
    rw [plant_mk s parent doc some, value] at planted
    dsimp only at planted
    rw [added] at planted
    have free : kind ≠ .emptyHole → ∀ r ∈ rows, r.1 ≠ hi := fun full => here (full ∘ hole.mpr)
    obtain ⟨kind'', value', same⟩ := withValue_moved weaves free value
    have kept : kind' = .emptyHole ↔ kind = .emptyHole := by
      unfold withValue at value
      split at value
      next =>
        split at value
        · cases value
          exact iff_of_false (by simp) (by simp)
        · cases value
      next =>
        cases value
        exact Iff.rfl
    have first := h.addChild root_lt parent (u := s.span lo hi) rfl rfl
      (fun full => free (full ∘ kept.mpr)) same
    have ends : (if label = .shown .emptyHole then startAfter rows hi else stopAfter rows hi) =
        startAfter rows hi := by
      split
      next => rfl
      next full => exact stopAfter_eq_startAfter (here full)
    have grown : root < doc₁.nodes.size := by
      have size := size_addChild doc parent kind' (s.span lo hi)
      rw [added] at size
      exact Nat.lt_of_lt_of_eq (Nat.lt_succ_of_lt root_lt) size.symm
    rw [Term.moved, ends, plant_mk s' parent doc' some, value']
    have here : (doc'.addChild parent kind''
        (s'.span (startAfter rows lo) (startAfter rows hi))).2 = id := by
      rw [snd_addChild, h.size, ← snd_addChild doc parent kind' (s.span lo hi), added]
    rw [added] at first
    dsimp only
    rw [here]
    exact ih _ tree inside grown first planted
  · intro parent doc doc' tree movable root_lt h planted
    rw [Document.plantAll] at planted
    cases planted
    rw [movedAll, Document.plantAll]
    exact ⟨_, rfl, h, root_lt⟩
  · intro parent doc t ts e failed ih doc' tree movable root_lt h planted
    rw [Document.plantAll, failed] at planted
    cases planted
  · intro parent doc t ts doc₁ first ih ih' doc' tree movable root_lt h planted
    rw [Document.plantAll, first] at planted
    obtain ⟨one, rest⟩ := List.forall_mem_cons.mp movable
    obtain ⟨doc₁', first', h', root_lt'⟩ := ih doc' doc₁ one root_lt h first
    rw [movedAll, Document.plantAll, first']
    exact ih' doc₁' tree rest root_lt' h' planted

theorem new (span : Option Span) (eol eol' : LineEnding) : (Document.new span eol).Displaced rows s
    (Document.new (some (s.span 0 s.text.bytes)) eol') where
  size := rfl
  top := rfl
  kind id := .inl (by cases id <;> rfl)
  span id proper := by
    cases id with
    | zero => exact absurd rfl proper
    | succ id => rfl
  apart id u proper _ span := by
    cases id with
    | zero => exact absurd rfl proper
    | succ id => cases span
  parent id := by cases id <;> rfl
  children id := by cases id <;> rfl

theorem sortChildren (h : doc.Displaced rows s doc')
    (proper : ∀ p c, doc.Holds p c → c ≠ root) :
    doc.sortChildren.Displaced rows s doc'.sortChildren := by
  have order : ∀ a b, a ≠ root → b ≠ root → doc'.sortsBefore a b = doc.sortsBefore a b := by
    intro a b ha hb
    unfold sortsBefore
    rw [h.span a ha, h.span b hb]
    cases doc.span a with
    | none => cases doc.span b <;> rfl
    | some u =>
      cases doc.span b with
      | none => rfl
      | some v => exact decide_eq_decide.mpr startAfter_le_iff
  refine ⟨?_, ?_, fun id => ?_, fun id ne => ?_, fun id u => ?_, fun id => ?_, fun id => ?_⟩
  · rw [size_sortChildren, size_sortChildren, h.size]
  · unfold Document.span
    rw [node_sortChildren]
    exact h.top
  · unfold Document.kind Document.span
    rw [node_sortChildren, node_sortChildren]
    exact h.kind id
  · unfold Document.span
    rw [node_sortChildren, node_sortChildren]
    exact h.span id ne
  · unfold Document.span Document.kind
    rw [node_sortChildren]
    exact h.apart id u
  · unfold Document.parent
    rw [node_sortChildren, node_sortChildren]
    exact h.parent id
  · unfold Document.children
    rw [node_sortChildren, node_sortChildren]
    have same : (doc'.node id).children = (doc.node id).children := h.children id
    rw [same]
    have sorted := @List.map_mergeSort _ _ doc'.sortsBefore doc.sortsBefore (fun c => c)
      (doc.node id).children fun a ha b hb => order a b (proper id a ha) (proper id b hb)
    rwa [List.map_id', List.map_id'] at sorted

theorem of_sameTree (h : doc.Displaced rows s doc') (same : doc.SameTree tree)
    (same' : doc'.SameTree tree') (parent : ∀ id, tree.parent id = doc.parent id)
    (parent' : ∀ id, tree'.parent id = doc'.parent id) : tree.Displaced rows s tree' where
  size := by rw [same'.size, same.size, h.size]
  top := by rw [same'.span, h.top]
  kind id := by
    rw [same'.kind, same.kind, same.span]
    exact h.kind id
  span id ne := by rw [same'.span, same.span, h.span id ne]
  apart id u := by
    rw [same.kind, same.span]
    exact h.apart id u
  parent id := by rw [parent', parent, h.parent]
  children id := by rw [same'.children, same.children, h.children]

end Displaced

/-- The document of a program whose terms have moved. -/
theorem exists_ofProgram_moved {p p' : Program} (weaves : Weaves rows 0 s.text s'.text)
    (movable : ∀ t ∈ p.terms, t.All (Movable rows)) (read : ofProgram s p = .ok doc)
    (moved : p'.terms = movedAll (startAfter rows) (stopAfter rows) p.terms)
    (linked : doc.Linked) (top : doc.parent root = none) :
    ∃ doc', ofProgram s' p' = .ok doc' ∧ doc.Displaced rows s' doc' := by
  obtain ⟨tree, planted, rfl⟩ := ofProgram_ok read
  have raws := links_attachAll tree.sortChildren
    (p.remarks.map fun r => ⟨r.kind, r.text, s.span r.lo r.hi⟩)
  have same := sameTree_attachAll tree.sortChildren
    (p.remarks.map fun r => ⟨r.kind, r.text, s.span r.lo r.hi⟩)
  have proper : ∀ q c, tree.Holds q c → c ≠ root := by
    rintro q c hold rfl
    have link := (linked.agree q root).mp (by
      rw [same.children]
      unfold Document.children
      rw [node_sortChildren, List.mem_mergeSort]
      exact hold)
    rw [top] at link
    cases link
  have start : Displaced rows s' _ _ := .new (some (s.span 0 s.text.bytes))
    (LineEnding.detect s.text) (LineEnding.detect s'.text)
  obtain ⟨tree', planted', displaced, -⟩ := start.plantAll weaves movable
    (show root < (Document.new _ _).nodes.size from Nat.one_pos) planted
  have raws' := links_attachAll tree'.sortChildren
    (p'.remarks.map fun r => ⟨r.kind, r.text, s'.span r.lo r.hi⟩)
  refine ⟨_, ?_, (displaced.sortChildren proper).of_sameTree same (sameTree_attachAll ..) raws.2 raws'.2⟩
  unfold ofProgram
  rw [moved]
  simp only [bind, Except.bind, planted']
  rfl

end Document
end Quell
