import Quell.Proofs.Annotate.Rerun
import Quell.Proofs.Document.Owner
import Quell.Proofs.Source.Reading

/-!
Where comments go when a source is read.

A comment belongs to one of the two nodes that it stands between, or to the node around it if there
is nothing else inside (`Sound.owner_eq`). Every slot has the comments that belong to it in their
order, so the last one of a slot is the one that a call meets there.
-/
namespace Quell.Document

variable {source : Text} {doc doc' : Document}

structure Between (doc : Document) (q : NodeId) (A C : List NodeId) (s : Span) : Prop where
  reached : doc.Reaches q
  around : ∃ u, doc.span q = some u ∧ u.lo ≤ s.lo ∧ s.hi ≤ u.hi
  split : doc.children q = A ++ C
  left : ∀ a ∈ A, ∃ t, doc.span a = some t ∧ t.hi ≤ s.lo
  right : ∀ c ∈ C, ∃ t, doc.span c = some t ∧ s.hi ≤ t.lo
  solid : s.lo < s.hi

def ownerBetween (doc : Document) (q : NodeId) (s : Span) (before behind : Option NodeId) :
    NodeId × Slot × Placement :=
  match before, behind with
  | some a, some c =>
    if (doc.span a).map (·.endLine) = some s.startLine then (a, .trailing, .trailing false)
    else (c, .leading, .leading)
  | none, some c => (c, .leading, .leading)
  | some a, none =>
    (a, .trailing, .trailing ((doc.span a).map (·.endLine) != some s.startLine))
  | none, none => (q, .inner, .inner)

theorem Between.outside {q : NodeId} {A C : List NodeId} {s : Span} (between : doc.Between q A C s)
    {c : NodeId} (hc : doc.Holds q c) : (doc.span c).any (·.contains s) = false := by
  have solid := between.solid
  unfold Holds at hc
  rw [between.split] at hc
  unfold Span.contains
  rcases List.mem_append.mp hc with left | right
  · obtain ⟨t, ht, le⟩ := between.left c left
    rw [ht]
    simp
    omega
  · obtain ⟨t, ht, le⟩ := between.right c right
    rw [ht]
    simp
    omega

theorem Sound.enclosing_eq (sound : doc.Sound source) {q : NodeId} {A C : List NodeId} {s : Span}
    (between : doc.Between q A C s) : doc.enclosing s doc.nodes.size root = q := by
  obtain ⟨rank, falls, bound⟩ := sound.linked.height
  obtain ⟨u, hu, lo, hi⟩ := between.around
  have narrows : doc.Narrows s root (doc.enclosing s doc.nodes.size root) :=
    narrows_enclosing falls (bound root sound.root_lt)
  have path := enters_of_below (fun _ => sound.nested) .refl between.reached ⟨u, hu⟩
  have rest := narrows.passes (fun _ reached => sound.spread reached) .refl between.solid path
    ⟨u, hu, contains_iff.mpr ⟨lo, hi⟩⟩
  cases rest with
  | stop => rfl
  | step found =>
    obtain ⟨hold, covers⟩ := holds_of_find? found
    rw [← any_contains_iff, between.outside hold] at covers
    exact absurd covers Bool.false_ne_true

theorem Sound.before_eq (sound : doc.Sound source) {q : NodeId} {A C : List NodeId} {s : Span}
    (between : doc.Between q A C s) :
    ((doc.spanned q).filter fun x => x.2.hi ≤ s.lo).getLast? =
      A.getLast?.bind fun a => (doc.span a).map fun t => (a, t) := by
  have right : ((C.filterMap fun c => (doc.span c).map fun t => (c, t)).filter
      fun x => x.2.hi ≤ s.lo) = [] := by
    rw [List.filter_eq_nil_iff]
    intro x hx
    obtain ⟨c, hc, e⟩ := List.mem_filterMap.mp hx
    obtain ⟨t, ht, le⟩ := between.right c hc
    have hold : doc.Holds q c := by
      unfold Holds
      rw [between.split]
      exact List.mem_append_right A hc
    have fits := (sound.fits (between.reached.child hold) ht).le
    have solid := between.solid
    rw [ht] at e
    cases e
    rw [decide_eq_true_eq]
    dsimp only
    omega
  unfold spanned
  rw [between.split, List.filterMap_append, List.filter_append, right, List.append_nil]
  rcases List.eq_nil_or_concat A with rfl | ⟨X, a, rfl⟩
  · rfl
  · obtain ⟨t, ht, le⟩ := between.left a (by simp)
    simp [ht, le]

theorem Sound.behind_eq (sound : doc.Sound source) {q : NodeId} {A C : List NodeId} {s : Span}
    (between : doc.Between q A C s) :
    (doc.spanned q).find? (fun x => s.hi ≤ x.2.lo) =
      C.head?.bind fun c => (doc.span c).map fun t => (c, t) := by
  have left : (A.filterMap fun c => (doc.span c).map fun t => (c, t)).find?
      (fun x => s.hi ≤ x.2.lo) = none := by
    rw [List.find?_eq_none]
    intro x hx
    obtain ⟨a, ha, e⟩ := List.mem_filterMap.mp hx
    obtain ⟨t, ht, le⟩ := between.left a ha
    have hold : doc.Holds q a := by
      unfold Holds
      rw [between.split]
      exact List.mem_append_left C ha
    have fits := (sound.fits (between.reached.child hold) ht).le
    have solid := between.solid
    rw [ht] at e
    cases e
    rw [decide_eq_true_eq]
    dsimp only
    omega
  unfold spanned
  rw [between.split, List.filterMap_append, List.find?_append, left, Option.none_or]
  cases C with
  | nil => rfl
  | cons c C =>
    obtain ⟨t, ht, le⟩ := between.right c List.mem_cons_self
    simp [ht, le]

theorem Sound.owner_eq (sound : doc.Sound source) {q : NodeId} {A C : List NodeId} {s : Span}
    (between : doc.Between q A C s) :
    doc.owner s = doc.ownerBetween q s A.getLast? C.head? := by
  unfold owner ownerBetween
  rw [sound.enclosing_eq between]
  dsimp only
  rw [sound.before_eq between, sound.behind_eq between]
  cases last : A.getLast? with
  | none =>
    cases first : C.head? with
    | none => rfl
    | some c =>
      obtain ⟨t, ht, -⟩ := between.right c (List.mem_of_mem_head? first)
      simp [ht]
  | some a =>
    obtain ⟨t, ht, -⟩ := between.left a (List.mem_of_getLast? last)
    cases first : C.head? with
    | none => simp [ht, bne]
    | some c =>
      obtain ⟨u, hu, -⟩ := between.right c (List.mem_of_mem_head? first)
      simp [ht, hu]

structure Filed (doc : Document) : Prop where
  owner : ∀ id slot, doc.Reaches id → ∀ c ∈ (doc.node id).comments slot,
    ∃ s, c.span = some s ∧ (doc.owner s).1 = id ∧ (doc.owner s).2.1 = slot
  ordered : ∀ id slot, doc.Reaches id → ((doc.node id).comments slot).Pairwise fun a b =>
    ∀ s t, a.span = some s → b.span = some t → s.lo < t.lo

def Silent (doc : Document) : Prop := ∀ id slot, (doc.node id).comments slot = []

theorem filed_attachAll {raws : List RawComment} (silent : doc.Silent)
    (sorted : raws.Pairwise fun a b => a.span.lo < b.span.lo)
    (linked : (doc.attachAll raws).Linked) (root_lt : root < (doc.attachAll raws).nodes.size) :
    (doc.attachAll raws).Filed := by
  have same := sameTree_attachAll doc raws
  have held : ∀ id slot, (doc.attachAll raws).Reaches id →
      ((doc.attachAll raws).node id).comments slot =
        (raws.filter (doc.Owns id slot)).map doc.placed := by
    intro id slot reached
    have valid := linked.reaches_lt root_lt reached
    rw [comments_attachAll raws (same.size ▸ valid), silent id slot, List.nil_append]
  constructor
  · intro id slot reached c mem
    rw [held id slot reached] at mem
    obtain ⟨raw, own, rfl⟩ := List.mem_map.mp mem
    have owns := of_decide_eq_true (List.mem_filter.mp own).2
    refine ⟨raw.span, rfl, ?_⟩
    rw [same.owner_eq]
    exact owns
  · intro id slot reached
    rw [held id slot reached, List.pairwise_map]
    refine (sorted.filter _).imp fun lt s t hs ht => ?_
    cases hs
    cases ht
    exact lt

def MarkAt (doc : Document) (rule : Text) (s : Span) : Prop :=
  ∃ id slot c, doc.Reaches id ∧ c ∈ (doc.node id).comments slot ∧ c.span = some s ∧
    c.Suppresses rule

def LastIn (doc : Document) (id : NodeId) (slot : Slot) (s : Span) : Prop :=
  ∀ c ∈ (doc.node id).comments slot, ∀ t, c.span = some t → t.lo ≤ s.lo

/-- A directive that belongs to a slot, and that nothing in the slot follows, covers its rule. -/
theorem Filed.covers (filed : doc.Filed) {rule : Text} {id : NodeId} {slot : Slot} {s : Span}
    (mark : doc.MarkAt rule s) (place : (doc.owner s).1 = id ∧ (doc.owner s).2.1 = slot)
    (last : doc.LastIn id slot s) : doc.Covers id slot rule := by
  obtain ⟨j, slot', c, reached, mem, span, covers⟩ := mark
  obtain ⟨t, same, rfl, rfl⟩ := filed.owner j slot' reached c mem
  cases span.symm.trans same
  obtain ⟨rfl, rfl⟩ := place
  obtain ⟨X, Y, split⟩ := List.append_of_mem mem
  cases Y with
  | nil => exact ⟨X, c, split, covers⟩
  | cons c' Y =>
    have ordered := filed.ordered _ (doc.owner s).2.1 reached
    obtain ⟨u, hu, -⟩ := filed.owner _ (doc.owner s).2.1 reached c' (by rw [split]; simp)
    have later := last c' (by rw [split]; simp) u hu
    rw [split] at ordered
    have lt := (List.pairwise_cons.mp (List.pairwise_append.mp ordered).2.1).1 c'
      List.mem_cons_self s u span hu
    omega

inductive Marked (doc : Document) (rule : Text) : Target → Prop where
  /-- In front of the target, on a line on which nothing before it ends. -/
  | front {id p : NodeId} {A C : List NodeId} {s : Span} : doc.MarkAt rule s →
      doc.Between p A (id :: C) s →
      (∀ a ∈ A.getLast?, (doc.span a).map (·.endLine) ≠ some s.startLine) →
      doc.LastIn id .leading s → Marked doc rule (.node id (some p))
  /-- Behind the target, on its last line, and still in what holds the target. -/
  | behind {id p : NodeId} {A C : List NodeId} {s : Span} : doc.MarkAt rule s →
      doc.Between p (A ++ [id]) C s → (doc.span id).map (·.endLine) = some s.startLine →
      doc.Bare id .leading → doc.LastIn id .trailing s → Marked doc rule (.node id (some p))
  /-- Behind the last statement of a block. -/
  | tail {block last : NodeId} {A : List NodeId} {s : Span} : doc.MarkAt rule s →
      doc.Between block (A ++ [last]) [] s → doc.LastIn last .trailing s →
      Marked doc rule (.blockTail block)
  /-- In an empty block. -/
  | within {block : NodeId} {s : Span} : doc.MarkAt rule s → doc.Between block [] [] s →
      doc.LastIn block .inner s → Marked doc rule (.blockTail block)

theorem Sound.owner_front (sound : doc.Sound source) {q id : NodeId} {A C : List NodeId} {s : Span}
    (between : doc.Between q A (id :: C) s)
    (apart : ∀ a ∈ A.getLast?, (doc.span a).map (·.endLine) ≠ some s.startLine) :
    (doc.owner s).1 = id ∧ (doc.owner s).2.1 = .leading := by
  rw [sound.owner_eq between]
  unfold ownerBetween
  rw [List.head?_cons]
  cases before : A.getLast? with
  | none => exact ⟨rfl, rfl⟩
  | some a =>
    dsimp only
    rw [if_neg (apart a before)]
    exact ⟨rfl, rfl⟩

theorem Marked.coveredAt {rule : Text} {t : Target} (marked : doc.Marked rule t)
    (filed : doc.Filed) (sound : doc.Sound source) : doc.CoveredAt rule t := by
  cases marked with
  | @front id p A C s mark between apart last =>
    exact .inl (filed.covers mark (sound.owner_front between apart) last)
  | @behind id p A C s mark between line bare last =>
    refine .inr ⟨bare, filed.covers mark ?_ last⟩
    rw [sound.owner_eq between]
    unfold ownerBetween
    rw [List.getLast?_concat]
    cases C.head? with
    | none => exact ⟨rfl, rfl⟩
    | some c =>
      dsimp only
      rw [if_pos line]
      exact ⟨rfl, rfl⟩
  | @tail block last A s mark between final =>
    refine .inr ⟨last, ?_, filed.covers mark ?_ final⟩
    · rw [between.split, List.append_nil, List.getLast?_concat]
    · rw [sound.owner_eq between]
      unfold ownerBetween
      rw [List.getLast?_concat]
      exact ⟨rfl, rfl⟩
  | within mark between last =>
    refine .inl ⟨between.split, filed.covers mark ?_ last⟩
    rw [sound.owner_eq between]
    exact ⟨rfl, rfl⟩

theorem Silent.update (silent : doc.Silent) (id : NodeId) {f : Node → Node}
    (keeps : ∀ n slot, (f n).comments slot = n.comments slot) : (doc.update id f).Silent := by
  intro j slot
  rw [node_update]
  split
  · rw [keeps]
    exact silent id slot
  · exact silent j slot

theorem Silent.addChild (silent : doc.Silent) (parent : NodeId) (kind : NodeKind) (span : Span) :
    (doc.addChild parent kind span).1.Silent := by
  have allocated : (doc.alloc kind (some span)).1.Silent := by
    intro j slot
    rw [node_alloc]
    split
    · cases slot <;> rfl
    · exact silent j slot
  refine Silent.update (Silent.update allocated _ ?_) _ ?_
  · intro n slot
    cases slot <;> rfl
  · intro n slot
    cases slot <;> rfl

theorem Silent.plantAll {s : Source} {ts : List Grammar.Term} {parent : NodeId}
    (silent : doc.Silent) (h : plantAll s parent doc ts = .ok doc') : doc'.Silent := by
  refine plantAll.induct s
    (fun parent doc t => ∀ doc', doc.Silent → plant s parent doc t = .ok doc' → doc'.Silent)
    (fun parent doc ts => ∀ doc', doc.Silent → Document.plantAll s parent doc ts = .ok doc' →
      doc'.Silent)
    ?_ ?_ ?_ ?_ ?_ ?_ ?_ parent doc ts doc' silent h
  · intro parent doc lo hi label lo' hi' ps ih doc' silent h
    rw [plant] at h
    exact ih doc' silent h
  · intro parent doc label lo hi ps plain none ih doc' silent h
    rw [plant, none] at h
    exact ih doc' silent h
    exact plain
  · intro parent doc label lo hi ps plain kind some e failed doc' silent h
    rw [plant, some] at h
    dsimp only at h
    rw [failed] at h
    cases h
    exact plain
  · intro parent doc label lo hi ps plain kind some kind' value doc₁ id added ih doc' silent h
    rw [plant, some] at h
    dsimp only at h
    rw [value] at h
    dsimp only at h
    rw [added] at h
    have first := silent.addChild parent kind' (s.span lo hi)
    rw [added] at first
    exact ih doc' first h
    exact plain
  · intro parent doc doc' silent h
    rw [Document.plantAll] at h
    cases h
    exact silent
  · intro parent doc t ts e failed ih doc' silent h
    rw [Document.plantAll, failed] at h
    cases h
  · intro parent doc t ts doc₁ planted ih ih' doc' silent h
    rw [Document.plantAll, planted] at h
    exact ih' doc' (ih doc₁ silent planted) h

theorem node_sortChildren (doc : Document) (id : NodeId) : doc.sortChildren.node id =
    { doc.node id with children := (doc.node id).children.mergeSort doc.sortsBefore } := by
  unfold Document.sortChildren node
  simp only [Array.getD_eq_getD_getElem?, Array.getElem?_map]
  cases doc.nodes[id]? with
  | none => simp
  | some n => rfl

theorem size_sortChildren (doc : Document) : doc.sortChildren.nodes.size = doc.nodes.size := by
  simp [Document.sortChildren]

theorem Silent.sortChildren (silent : doc.Silent) : doc.sortChildren.Silent := by
  intro id slot
  rw [node_sortChildren, ← silent id slot]
  cases slot <;> rfl

theorem silent_new (span : Option Span) (eol : LineEnding) : (new span eol).Silent := by
  intro id slot
  cases id with
  | zero => cases slot <;> rfl
  | succ id =>
    rw [node_of_size_le _ (by simp [new])]
    cases slot <;> rfl

theorem ofProgram_ok {s : Source} {p : Grammar.Program} (read : ofProgram s p = .ok doc) :
    ∃ tree, Document.plantAll s root (new (some (s.span 0 s.text.bytes)) (LineEnding.detect s.text))
        p.terms = .ok tree ∧
      doc = tree.sortChildren.attachAll (p.remarks.map fun r => ⟨r.kind, r.text, s.span r.lo r.hi⟩) := by
  unfold ofProgram at read
  cases planted : Document.plantAll s root
      (new (some (s.span 0 s.text.bytes)) (LineEnding.detect s.text)) p.terms with
  | error e =>
    simp only [bind, Except.bind, planted] at read
    cases read
  | ok tree =>
    simp only [bind, Except.bind, planted] at read
    cases read
    exact ⟨tree, rfl, rfl⟩

theorem filed_ofProgram {s : Source} {p : Grammar.Program} (read : ofProgram s p = .ok doc)
    (sorted : p.remarks.Pairwise fun a b => a.lo < b.lo) (sound : doc.Sound source) : doc.Filed := by
  obtain ⟨tree, planted, rfl⟩ := ofProgram_ok read
  have silent := ((silent_new _ _).plantAll planted).sortChildren
  refine filed_attachAll silent ?_ sound.linked sound.root_lt
  rw [List.pairwise_map]
  exact sorted

end Quell.Document
