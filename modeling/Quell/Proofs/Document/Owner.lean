import Quell.Document.Attach
import Quell.Proofs.Document.Locate
import Quell.Proofs.Document.Preserve
import Quell.Proofs.Document.WellFormed

/-!
Who owns a comment.

`Narrows` is the descent of the search, one step for each node that it enters, without a bound on
their number. Where spans lie in one another and one behind the other it ends at the smallest node
around the comment, and the comment goes to the child in front of it, to the child behind it, or to
the node itself. `attachAll_attached` says this of all comments of a list together.
-/
namespace Quell.Document

open Relation

/-- The node has a span, and the other span lies in it. -/
def Surrounds (doc : Document) (id : NodeId) (s : Span) : Prop :=
  ∃ t, doc.span id = some t ∧ t.contains s = true

def Enters (doc : Document) (p c : NodeId) : Prop := doc.Holds p c ∧ ∃ t, doc.span c = some t

inductive Narrows (doc : Document) (s : Span) : NodeId → NodeId → Prop where
  | stop {id : NodeId} : (∀ c, doc.Holds id c → ¬ doc.Surrounds c s) → Narrows doc s id id
  | step {id c e : NodeId} :
      (doc.children id).find? (fun c => (doc.span c).any (·.contains s)) = some c →
      Narrows doc s c e → Narrows doc s id e

/-- A child of `e`, with the children in front of it and behind it, is the last that ends at or
before `s`. -/
def LastBefore (doc : Document) (s : Span) (e : NodeId) (x : NodeId × Span)
    (front back : List (NodeId × Span)) : Prop :=
  doc.spanned e = front ++ x :: back ∧ x.2.hi ≤ s.lo ∧ ∀ y ∈ back, ¬ y.2.hi ≤ s.lo

/-- A child of `e`, with the children in front of it and behind it, is the first that starts at or
after the end of `s`. -/
def FirstBehind (doc : Document) (s : Span) (e : NodeId) (x : NodeId × Span)
    (front back : List (NodeId × Span)) : Prop :=
  doc.spanned e = front ++ x :: back ∧ s.hi ≤ x.2.lo ∧ ∀ y ∈ front, ¬ s.hi ≤ y.2.lo

/-- Where a comment belongs whose smallest node around it is `e`. Between the comment and its owner
there is no child of `e`. -/
inductive Belongs (doc : Document) (s : Span) (e : NodeId) : NodeId × Slot × Placement → Prop where
  | trailing {id : NodeId} {t : Span} {front back : List (NodeId × Span)} :
      doc.LastBefore s e (id, t) front back → (∀ y ∈ back, s.hi ≤ y.2.lo) →
      (t.endLine = s.startLine ∨ ∀ y ∈ doc.spanned e, ¬ s.hi ≤ y.2.lo) →
      Belongs doc s e (id, .trailing, .trailing (t.endLine != s.startLine))
  | leading {id : NodeId} {t : Span} {front back : List (NodeId × Span)} :
      doc.FirstBehind s e (id, t) front back → (∀ y ∈ front, y.2.hi ≤ s.lo) →
      (∀ x front' back', doc.LastBefore s e x front' back' → x.2.endLine ≠ s.startLine) →
      Belongs doc s e (id, .leading, .leading)
  | inner : doc.spanned e = [] → Belongs doc s e (e, .inner, .inner)

/-- The owner, the slot and the placement of a comment: the descent ends at a node `e`, the smallest
one around the comment, and the comment belongs to `e` or to one of its children. -/
structure Owned (doc : Document) (s : Span) (e : NodeId) (o : NodeId × Slot × Placement) : Prop where
  reached : doc.Reaches o.1
  narrows : doc.Narrows s root e
  entered : ReflTransGen doc.Enters root e
  covers : doc.Surrounds e s
  innermost : ∀ c, doc.Holds e c → ¬ doc.Surrounds c s
  /-- Every other node around the comment is around `e`. -/
  smallest : s.lo < s.hi → ∀ x, ReflTransGen doc.Enters root x → doc.Surrounds x s →
    doc.Below x e ∧ ∀ t, doc.span e = some t → doc.Surrounds x t
  belongs : doc.Belongs s e o

section Descent

variable {doc : Document} {s : Span}

theorem any_contains_iff {id : NodeId} :
    (doc.span id).any (·.contains s) = true ↔ doc.Surrounds id s := by
  rw [Option.any_eq_true, Surrounds]

theorem contains_iff {t u : Span} : t.contains u = true ↔ t.lo ≤ u.lo ∧ u.hi ≤ t.hi := by
  rw [Span.contains, Bool.and_eq_true, decide_eq_true_iff, decide_eq_true_iff]

theorem holds_of_find? {id c : NodeId}
    (found : (doc.children id).find? (fun c => (doc.span c).any (·.contains s)) = some c) :
    doc.Holds id c ∧ doc.Surrounds c s :=
  ⟨List.mem_of_find?_eq_some found,
    any_contains_iff.mp (List.find?_some (p := fun c => (doc.span c).any (·.contains s)) found)⟩

theorem narrows_enclosing {rank : NodeId → Nat} (falls : ∀ p c, doc.Holds p c → rank c < rank p)
    {fuel : Nat} {id : NodeId} (low : rank id < fuel) :
    doc.Narrows s id (doc.enclosing s fuel id) := by
  induction fuel generalizing id with
  | zero => omega
  | succ fuel ih =>
    rw [enclosing]
    split
    · rename_i c found
      have := falls id c (holds_of_find? found).1
      exact .step found (ih (by omega))
    · rename_i none
      refine .stop fun c hold covers => ?_
      exact List.find?_eq_none.mp none c hold (any_contains_iff.mpr covers)

theorem Narrows.entered {id e : NodeId} (h : doc.Narrows s id e) :
    ReflTransGen doc.Enters id e := by
  induction h with
  | stop => exact .refl
  | step found _ ih =>
    obtain ⟨hold, t, here, -⟩ := holds_of_find? found
    exact .head ⟨hold, t, here⟩ ih

theorem Narrows.covers {id e : NodeId} (h : doc.Narrows s id e) (start : doc.Surrounds id s) :
    doc.Surrounds e s := by
  induction h with
  | stop => exact start
  | step found _ ih => exact ih (holds_of_find? found).2

theorem Narrows.innermost {id e : NodeId} (h : doc.Narrows s id e) :
    ∀ c, doc.Holds e c → ¬ doc.Surrounds c s := by
  induction h with
  | stop none => exact none
  | step _ _ ih => exact ih

theorem below_of_enters {id e : NodeId} (h : ReflTransGen doc.Enters id e) : doc.Below id e :=
  ReflTransGen.mono (fun _ _ enters => enters.1) _ _ h

/-- Spans of children lie in the spans of their parents and one behind the other. -/
structure Spread (doc : Document) (id : NodeId) : Prop where
  nested : ∀ s c t, doc.span id = some s → doc.Holds id c → doc.span c = some t →
    s.lo ≤ t.lo ∧ t.hi ≤ s.hi
  ordered : (doc.children id).Pairwise fun a b =>
    ∀ s t, doc.span a = some s → doc.span b = some t → s.hi ≤ t.lo

theorem enters_of_below {id x : NodeId} (nested : ∀ id, doc.Reaches id → doc.NestedAt id)
    (reached : doc.Reaches id) (below : doc.Below id x) (spanned : ∃ t, doc.span x = some t) :
    ReflTransGen doc.Enters id x := by
  induction below with
  | refl => exact .refl
  | @tail y x above hold ih =>
    obtain ⟨t, here⟩ := spanned
    obtain ⟨s, there, -⟩ := (nested y (reached.below above)).within x t hold here
    exact (ih ⟨s, there⟩).tail ⟨hold, t, here⟩

theorem Sound.spread {source : Text} (sound : doc.Sound source) {id : NodeId}
    (reached : doc.Reaches id) : doc.Spread id :=
  ⟨(sound.each id reached).nested, (sound.each id reached).ordered⟩

variable (spread : ∀ id, doc.Reaches id → doc.Spread id)

include spread

theorem covers_above {id x : NodeId} (reached : doc.Reaches id) (path : ReflTransGen doc.Enters id x)
    (some : ∃ t, doc.span id = some t) (h : doc.Surrounds x s) : doc.Surrounds id s := by
  induction path using ReflTransGen.head_induction_on with
  | refl => exact h
  | @head p c enters path ih =>
    obtain ⟨hold, t, here⟩ := enters
    obtain ⟨u, here', inside⟩ := ih (reached.child hold) ⟨t, here⟩
    obtain ⟨t', above⟩ := some
    have := (spread p reached).nested t' c u above hold here'
    rw [contains_iff] at inside
    exact ⟨t', above, contains_iff.mpr ⟨by omega, by omega⟩⟩

theorem covers_unique {id c d : NodeId} (reached : doc.Reaches id) (solid : s.lo < s.hi)
    (hc : doc.Holds id c) (hd : doc.Holds id d) (cs : doc.Surrounds c s) (ds : doc.Surrounds d s) :
    c = d := by
  obtain ⟨t, here, inside⟩ := cs
  obtain ⟨u, there, within⟩ := ds
  rw [contains_iff] at inside within
  by_contra ne
  have apart : (doc.children id).Pairwise fun a b =>
      (∀ s t, doc.span a = some s → doc.span b = some t → s.hi ≤ t.lo) ∨
      ∀ s t, doc.span b = some s → doc.span a = some t → s.hi ≤ t.lo :=
    (spread id reached).ordered.imp .inl
  have : Std.Symm fun a b : NodeId =>
      (∀ s t, doc.span a = some s → doc.span b = some t → s.hi ≤ t.lo) ∨
      ∀ s t, doc.span b = some s → doc.span a = some t → s.hi ≤ t.lo := ⟨fun _ _ => Or.symm⟩
  rcases apart.forall hc hd ne with first | second
  · have := first t u here there
    omega
  · have := second u t there here
    omega

/-- A descent passes every node around the comment. -/
theorem Narrows.passes {id e x : NodeId} (h : doc.Narrows s id e) (reached : doc.Reaches id)
    (solid : s.lo < s.hi) (path : ReflTransGen doc.Enters id x) (around : doc.Surrounds x s) :
    doc.Narrows s x e := by
  induction path using ReflTransGen.head_induction_on with
  | refl => exact h
  | @head p c enters path ih =>
    have inside := covers_above spread (reached.child enters.1) path enters.2 around
    cases h with
    | stop none => exact absurd inside (none c enters.1)
    | step found rest =>
      obtain ⟨hold, covers⟩ := holds_of_find? found
      have same := covers_unique spread reached solid hold enters.1 covers inside
      subst same
      exact ih rest (reached.child hold)

end Descent

section Choice

variable {doc : Document} {s : Span} {e : NodeId}

theorem mem_spanned {x : NodeId × Span} :
    x ∈ doc.spanned e ↔ doc.Holds e x.1 ∧ doc.span x.1 = some x.2 := by
  obtain ⟨c, t⟩ := x
  simp only [spanned, List.mem_filterMap, Option.map_eq_some_iff, Prod.mk.injEq]
  constructor
  · rintro ⟨c', hold, t', here, rfl, rfl⟩
    exact ⟨hold, here⟩
  · rintro ⟨hold, here⟩
    exact ⟨c, hold, t, here, rfl, rfl⟩

theorem lastBefore_iff {x : NodeId × Span} :
    ((doc.spanned e).filter fun (_, t) => t.hi ≤ s.lo).getLast? = some x ↔
      ∃ front back, doc.LastBefore s e x front back := by
  rw [List.getLast?_filter, List.find?_eq_some_iff_append]
  constructor
  · rintro ⟨low, back, front, split, later⟩
    refine ⟨front.reverse, back.reverse, ?_, by simpa using low, fun y hy => ?_⟩
    · rw [← List.reverse_reverse (doc.spanned e), split]
      simp
    · simpa using later y (by simpa using hy)
  · rintro ⟨front, back, split, low, later⟩
    refine ⟨by simpa using low, back.reverse, front.reverse, by rw [split]; simp, fun y hy => ?_⟩
    simpa using later y (by simpa using hy)

theorem firstBehind_iff {x : NodeId × Span} :
    ((doc.spanned e).find? fun (_, t) => s.hi ≤ t.lo) = some x ↔
      ∃ front back, doc.FirstBehind s e x front back := by
  rw [List.find?_eq_some_iff_append]
  constructor
  · rintro ⟨high, front, back, split, earlier⟩
    exact ⟨front, back, split, by simpa using high, fun y hy => by simpa using earlier y hy⟩
  · rintro ⟨front, back, split, high, earlier⟩
    exact ⟨by simpa using high, front, back, split, fun y hy => by simpa using earlier y hy⟩

theorem belongs_owner (ends : doc.enclosing s doc.nodes.size root = e)
    (sides : ∀ y ∈ doc.spanned e, y.2.hi ≤ s.lo ∨ s.hi ≤ y.2.lo) :
    doc.Belongs s e (doc.owner s) := by
  have after : ∀ {x front back}, doc.LastBefore s e x front back → ∀ y ∈ back, s.hi ≤ y.2.lo := by
    rintro x front back ⟨split, -, later⟩ y hy
    exact (sides y (by simp [split, hy])).resolve_left (later y hy)
  have ahead : ∀ {x front back}, doc.FirstBehind s e x front back → ∀ y ∈ front, y.2.hi ≤ s.lo := by
    rintro x front back ⟨split, -, earlier⟩ y hy
    exact (sides y (by simp [split, hy])).resolve_right (earlier y hy)
  unfold owner
  rw [ends]
  dsimp only
  split
  · rename_i prev t next u before behind
    obtain ⟨front, back, last⟩ := lastBefore_iff.mp before
    split
    · rename_i same
      have placed := Belongs.trailing last (after last) (.inl same)
      rwa [same, bne_self_eq_false] at placed
    · rename_i other
      obtain ⟨front', back', first⟩ := firstBehind_iff.mp behind
      refine .leading first (ahead first) fun x front back last' => ?_
      have found := lastBefore_iff.mpr ⟨front, back, last'⟩
      rw [before] at found
      cases found
      exact other
  · rename_i next u before behind
    obtain ⟨front, back, first⟩ := firstBehind_iff.mp behind
    refine .leading first (ahead first) fun x front back last => ?_
    have found := lastBefore_iff.mpr ⟨front, back, last⟩
    rw [before] at found
    cases found
  · rename_i prev t before behind
    obtain ⟨front, back, last⟩ := lastBefore_iff.mp before
    refine .trailing last (after last) (.inr fun y hy => ?_)
    simpa using List.find?_eq_none.mp behind y hy
  · rename_i before behind
    refine .inner (List.eq_nil_iff_forall_not_mem.mpr fun y hy => ?_)
    rw [List.getLast?_eq_none_iff, List.filter_eq_nil_iff] at before
    rcases sides y hy with low | high
    · exact before y hy (by simpa using low)
    · exact List.find?_eq_none.mp behind y hy (by simpa using high)

theorem Belongs.reaches {o : NodeId × Slot × Placement} (h : doc.Belongs s e o)
    (reached : doc.Reaches e) : doc.Reaches o.1 := by
  cases h with
  | @trailing id t front back last =>
    have held : (id, t) ∈ doc.spanned e := by simp [last.1]
    exact reached.child (mem_spanned.mp held).1
  | @leading id t front back first =>
    have held : (id, t) ∈ doc.spanned e := by simp [first.1]
    exact reached.child (mem_spanned.mp held).1
  | inner => exact reached

end Choice

/-- No span of a node starts or ends inside the span. -/
def Unsplit (doc : Document) (s : Span) : Prop :=
  ∀ id t, doc.Reaches id → doc.span id = some t →
    ¬ (s.lo < t.lo ∧ t.lo < s.hi) ∧ ¬ (s.lo < t.hi ∧ t.hi < s.hi)

theorem owned_owner {doc : Document} {s : Span} (linked : doc.Linked)
    (root_lt : root < doc.nodes.size) (spread : ∀ id, doc.Reaches id → doc.Spread id)
    (inside : doc.Surrounds root s) (unsplit : doc.Unsplit s) :
    ∃ e, doc.Owned s e (doc.owner s) := by
  obtain ⟨rank, falls, bound⟩ := linked.height
  have narrows : doc.Narrows s root (doc.enclosing s doc.nodes.size root) :=
    narrows_enclosing falls (bound root root_lt)
  have reached : doc.Reaches (doc.enclosing s doc.nodes.size root) := below_of_enters narrows.entered
  have belongs : doc.Belongs s (doc.enclosing s doc.nodes.size root) (doc.owner s) := by
    refine belongs_owner rfl fun y hy => ?_
    obtain ⟨hold, here⟩ := mem_spanned.mp hy
    have outside : ¬ (y.2.lo ≤ s.lo ∧ s.hi ≤ y.2.hi) := fun covers =>
      narrows.innermost y.1 hold ⟨y.2, here, contains_iff.mpr covers⟩
    have := unsplit y.1 y.2 (reached.child hold) here
    omega
  refine ⟨_, belongs.reaches reached, narrows, narrows.entered, narrows.covers inside,
    narrows.innermost, fun solid x path around => ?_, belongs⟩
  have rest := narrows.passes spread ReflTransGen.refl solid path around
  have reached_x : doc.Reaches x := below_of_enters path
  refine ⟨below_of_enters rest.entered, fun t here => ?_⟩
  obtain ⟨u, there, -⟩ := around
  exact covers_above spread reached_x rest.entered ⟨u, there⟩
    ⟨t, here, contains_iff.mpr ⟨Nat.le_refl _, Nat.le_refl _⟩⟩

section Attach

variable {doc doc' : Document}

structure SameTree (doc doc' : Document) : Prop where
  size : doc'.nodes.size = doc.nodes.size
  kind : ∀ j, doc'.kind j = doc.kind j
  span : ∀ j, doc'.span j = doc.span j
  children : ∀ j, doc'.children j = doc.children j

theorem SameTree.refl (doc : Document) : doc.SameTree doc :=
  ⟨rfl, fun _ => rfl, fun _ => rfl, fun _ => rfl⟩

theorem SameTree.symm (same : doc.SameTree doc') : doc'.SameTree doc :=
  ⟨same.size.symm, fun j => (same.kind j).symm, fun j => (same.span j).symm,
    fun j => (same.children j).symm⟩

theorem SameTree.trans {doc'' : Document} (h : doc.SameTree doc') (k : doc'.SameTree doc'') :
    doc.SameTree doc'' :=
  ⟨k.size.trans h.size, fun j => (k.kind j).trans (h.kind j), fun j => (k.span j).trans (h.span j),
    fun j => (k.children j).trans (h.children j)⟩

theorem SameTree.owner_eq (same : doc.SameTree doc') (s : Span) : doc'.owner s = doc.owner s := by
  have enclosing : ∀ fuel id, doc'.enclosing s fuel id = doc.enclosing s fuel id := by
    intro fuel
    induction fuel with
    | zero => intro id; rfl
    | succ fuel ih =>
      intro id
      simp only [Document.enclosing, same.children, same.span, ih]
  unfold owner spanned
  simp only [enclosing, same.size, same.children, same.span]

def placed (doc : Document) (raw : RawComment) : Comment :=
  { kind := raw.kind, text := raw.text, placement := (doc.owner raw.span).2.2, span := some raw.span }

def Owns (doc : Document) (id : NodeId) (slot : Slot) (raw : RawComment) : Prop :=
  (doc.owner raw.span).1 = id ∧ (doc.owner raw.span).2.1 = slot

instance (doc : Document) (id : NodeId) (slot : Slot) : DecidablePred (doc.Owns id slot) :=
  fun _ => inferInstanceAs (Decidable (_ ∧ _))

theorem attach_eq (doc : Document) (raw : RawComment) :
    doc.attach raw =
      doc.appendComment (doc.owner raw.span).1 (doc.owner raw.span).2.1 (doc.placed raw) := rfl

theorem sameTree_attach (doc : Document) (raw : RawComment) : doc.SameTree (doc.attach raw) := by
  rw [attach_eq, appendComment_eq]
  exact ⟨size_update _ _ _, fun j => (tree_setComments j).1, fun j => (tree_setComments j).2.1,
    fun j => (tree_setComments j).2.2.1⟩

theorem comments_attach (raw : RawComment) {id : NodeId} (valid : id < doc.nodes.size)
    (slot : Slot) : ((doc.attach raw).node id).comments slot =
      (doc.node id).comments slot ++ if doc.Owns id slot raw then [doc.placed raw] else [] := by
  rw [attach_eq]
  by_cases here : (doc.owner raw.span).1 = id
  · have lt : (doc.owner raw.span).1 < doc.nodes.size := here ▸ valid
    rw [comments_appendComment lt, here]
    by_cases there : (doc.owner raw.span).2.1 = slot
    · rw [if_pos ⟨rfl, there.symm⟩, if_pos ⟨here, there⟩, there]
    · rw [if_neg fun h => there h.2.symm, if_neg fun h => there h.2, List.append_nil]
  · rw [appendComment_eq, node_update_ne doc (Ne.symm here), if_neg fun h => here h.1,
      List.append_nil]

theorem sameTree_attachAll (doc : Document) (raws : List RawComment) :
    doc.SameTree (doc.attachAll raws) := by
  induction raws generalizing doc with
  | nil => exact .refl doc
  | cons raw raws ih => exact (sameTree_attach doc raw).trans (ih (doc.attach raw))

theorem comments_attachAll (raws : List RawComment) {id : NodeId} (valid : id < doc.nodes.size)
    (slot : Slot) : ((doc.attachAll raws).node id).comments slot =
      (doc.node id).comments slot ++ (raws.filter (doc.Owns id slot)).map doc.placed := by
  induction raws generalizing doc with
  | nil => simp [attachAll]
  | cons raw raws ih =>
    have same := sameTree_attach doc raw
    have owns : ∀ r, (doc.attach raw).Owns id slot r ↔ doc.Owns id slot r := by
      intro r
      unfold Owns
      rw [same.owner_eq]
    have placed : (doc.attach raw).placed = doc.placed := by
      funext r
      unfold Document.placed
      rw [same.owner_eq]
    have valid' : id < (doc.attach raw).nodes.size := by rw [same.size]; exact valid
    have rest := ih valid'
    simp only [owns, placed] at rest
    change (((doc.attach raw).attachAll raws).node id).comments slot = _
    rw [rest, comments_attach raw valid, List.append_assoc, List.filter_cons]
    by_cases own : doc.Owns id slot raw
    · simp [own]
    · simp [own]

end Attach

/-- Comments have been put into a document: its tree is as before, each of them has found its owner,
and behind the comments that a slot had stand those of the list that belong there, as they were read
and in their order. -/
structure Attached (doc : Document) (raws : List RawComment) (doc' : Document) : Prop where
  tree : doc.SameTree doc'
  links : doc'.eol = doc.eol ∧ ∀ id, doc'.parent id = doc.parent id
  owned : ∀ raw ∈ raws, ∃ e, doc.Owned raw.span e (doc.owner raw.span)
  comments : ∀ id < doc.nodes.size, ∀ slot, (doc'.node id).comments slot =
    (doc.node id).comments slot ++ (raws.filter (doc.Owns id slot)).map doc.placed
  ascend : ∀ id slot, (raws.filter (doc.Owns id slot)).Pairwise fun a b => a.span.hi ≤ b.span.lo

theorem links_attachAll (doc : Document) (raws : List RawComment) :
    (doc.attachAll raws).eol = doc.eol ∧ ∀ id, (doc.attachAll raws).parent id = doc.parent id := by
  induction raws generalizing doc with
  | nil => exact ⟨rfl, fun _ => rfl⟩
  | cons raw raws ih =>
    obtain ⟨eol, parent⟩ := ih (doc.attach raw)
    refine ⟨eol, fun id => (parent id).trans ?_⟩
    rw [attach_eq, appendComment_eq]
    exact (tree_setComments id).2.2.2

/-- Comments in the order of the source, each of them inside the root and none of them crossed by
the start or the end of a node, find their owners. -/
theorem attachAll_attached {doc : Document} {raws : List RawComment} (linked : doc.Linked)
    (root_lt : root < doc.nodes.size) (spread : ∀ id, doc.Reaches id → doc.Spread id)
    (inside : ∀ raw ∈ raws, doc.Surrounds root raw.span)
    (unsplit : ∀ raw ∈ raws, doc.Unsplit raw.span)
    (sorted : raws.Pairwise fun a b => a.span.hi ≤ b.span.lo) :
    doc.Attached raws (doc.attachAll raws) := by
  refine ⟨sameTree_attachAll doc raws, links_attachAll doc raws, fun raw hr => ?_,
    fun id valid slot => comments_attachAll raws valid slot, fun id slot => sorted.filter _⟩
  exact owned_owner linked root_lt spread (inside raw hr) (unsplit raw hr)

/-- A comment behind a statement on its line, one above a statement and one in an empty block:
`a(); // x`, `// y`, `b();`, `{ /*z*/ }`. -/
def bareSample : Document where
  nodes := #[
    { kind := .program, span := some ⟨0, 30, 1, 5⟩, children := [1, 2, 3] },
    { kind := .statement, span := some ⟨0, 4, 1, 1⟩, parent := some 0 },
    { kind := .statement, span := some ⟨15, 19, 3, 3⟩, parent := some 0 },
    { kind := .block, span := some ⟨20, 29, 4, 4⟩, parent := some 0 }]

def bareRemarks : List RawComment :=
  [⟨.line, " x".toList, ⟨5, 9, 1, 1⟩⟩, ⟨.line, " y".toList, ⟨10, 14, 2, 2⟩⟩,
    ⟨.block, "z".toList, ⟨22, 27, 4, 4⟩⟩]

theorem attachAll_attached_bareSample :
    bareSample.Attached bareRemarks (bareSample.attachAll bareRemarks) ∧
    bareRemarks.map (fun raw => bareSample.owner raw.span) =
      [(1, .trailing, .trailing false), (2, .leading, .leading), (3, .inner, .inner)] := by
  have linked : bareSample.Linked := linked_of_linkedAt (by decide)
  have spread : ∀ id < bareSample.nodes.size,
      (∀ s ∈ bareSample.span id, ∀ c ∈ bareSample.children id, ∀ t ∈ bareSample.span c,
        s.lo ≤ t.lo ∧ t.hi ≤ s.hi) ∧
      (bareSample.children id).Pairwise fun a b =>
        ∀ s ∈ bareSample.span a, ∀ t ∈ bareSample.span b, s.hi ≤ t.lo := by decide
  have unsplit : ∀ raw ∈ bareRemarks, ∀ id < bareSample.nodes.size, ∀ t ∈ bareSample.span id,
      ¬ (raw.span.lo < t.lo ∧ t.lo < raw.span.hi) ∧
      ¬ (raw.span.lo < t.hi ∧ t.hi < raw.span.hi) := by decide
  have inside : ∀ raw ∈ bareRemarks, Span.contains ⟨0, 30, 1, 5⟩ raw.span = true := by decide
  have lt : ∀ id, bareSample.Reaches id → id < bareSample.nodes.size :=
    fun id => linked.reaches_lt (by decide)
  refine ⟨attachAll_attached linked (by decide) (fun id reached => ⟨?_, ?_⟩)
    (fun raw hr => ⟨_, rfl, inside raw hr⟩) (fun raw hr id t reached ht => ?_) (by decide), by decide⟩
  · exact fun s c t hs hc ht => (spread id (lt id reached)).1 s hs c hc t ht
  · exact (spread id (lt id reached)).2.imp fun h s t hs ht => h s hs t ht
  · exact unsplit raw hr id (lt id reached) t ht

end Quell.Document
