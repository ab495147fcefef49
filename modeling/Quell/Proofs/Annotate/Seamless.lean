import Quell.Proofs.Annotate.Idle
import Quell.Proofs.Document.Parts

/-!
Children of elements without a gap between them.

Between the tags of an element a reader leaves nothing out: what is neither a hole nor an element is
text. So the spans of the children take up that of the element (`Seamless`), and the comments of the
source stand inside of them. Calls keep this, and they put comments neither in front of a child of an
element nor behind one (`Unadorned`).
-/
namespace Quell.Document

open Text Relation

variable {source : Text} {doc doc' : Document} {o : AnnotateOptions} {rule : Text}

def inSource (doc : Document) (ids : List NodeId) : List NodeId := ids.filter fun x => (doc.span x).isSome

/-- The children of elements take up the spans of these, and hold the comments that are below them. -/
structure Seamless (doc : Document) : Prop where
  abut : ∀ p s, doc.Reaches p → (doc.kind p).hasMarkupChildren = true → doc.span p = some s →
    doc.Abut s.lo s.hi (doc.inSource (doc.children p))
  inside : ∀ p c x s slot r, doc.Reaches p → (doc.kind p).hasMarkupChildren = true →
    doc.Holds p c → doc.Below c x → doc.span c = some s → doc.RemarkIn x slot r →
    s.lo ≤ r.lo ∧ r.hi ≤ s.hi
  /-- Attributes stand in tags. -/
  tags : ∀ p c, doc.Reaches p → (doc.kind p).hasMarkupChildren = true → doc.Holds p c →
    doc.kind c ≠ .attribute
  wide : ∀ r, doc.RemarkAt r → r.lo < r.hi

def Unadorned (doc : Document) : Prop :=
  ∀ p c slot, doc.Reaches p → (doc.kind p).hasMarkupChildren = true → doc.Holds p c →
    slot ≠ .inner → inserted ((doc.node c).comments slot) = []

theorem abut_append {lo hi : Nat} {xs ys : List NodeId} :
    doc.Abut lo hi (xs ++ ys) ↔ ∃ m, doc.Abut lo m xs ∧ doc.Abut m hi ys := by
  induction xs generalizing lo with
  | nil => exact ⟨fun h => ⟨lo, rfl, h⟩, fun ⟨_, same, h⟩ => same ▸ h⟩
  | cons x xs ih =>
    constructor
    · rintro ⟨s, span, low, rest⟩
      obtain ⟨m, front, back⟩ := ih.mp rest
      exact ⟨m, ⟨s, span, low, front⟩, back⟩
    · rintro ⟨m, ⟨s, span, low, front⟩, back⟩
      exact ⟨s, span, low, ih.mpr ⟨m, front, back⟩⟩

theorem abut_congr {lo hi : Nat} {xs : List NodeId} (same : ∀ x ∈ xs, doc'.span x = doc.span x) :
    doc'.Abut lo hi xs ↔ doc.Abut lo hi xs := by
  induction xs generalizing lo with
  | nil => exact Iff.rfl
  | cons x xs ih =>
    have here := same x List.mem_cons_self
    have rest := fun lo => @ih lo fun y hy => same y (List.mem_cons_of_mem x hy)
    simp only [Abut, here, rest]

theorem inSource_append (xs ys : List NodeId) :
    doc.inSource (xs ++ ys) = doc.inSource xs ++ doc.inSource ys := List.filter_append ..

theorem mem_inSource {x : NodeId} {xs : List NodeId} :
    x ∈ doc.inSource xs ↔ x ∈ xs ∧ ∃ s, doc.span x = some s := by
  unfold inSource
  rw [List.mem_filter, Option.isSome_iff_exists]

theorem inSource_congr {xs : List NodeId} (same : ∀ x ∈ xs, doc'.span x = doc.span x) :
    doc'.inSource xs = doc.inSource xs :=
  List.filter_congr fun x hx => by rw [same x hx]

theorem inSource_of_spanless {xs : List NodeId} (none : ∀ x ∈ xs, doc.span x = none) :
    doc.inSource xs = [] :=
  List.filter_eq_nil_iff.mpr fun x hx => by simp [none x hx]

theorem inSource_of_spanned {xs : List NodeId} (all : ∀ x ∈ xs, doc.span x ≠ none) :
    doc.inSource xs = xs :=
  List.filter_eq_self.mpr fun x hx => Option.isSome_iff_ne_none.mpr (all x hx)

theorem Splice.abut {q p : NodeId} {A B N C : List NodeId} (splice : doc.Splice doc' q A B N C)
    (linked : doc.Linked) (valid : p < doc.nodes.size)
    (parts : ∀ lo hi, doc.Abut lo hi (doc.inSource B) → doc'.Abut lo hi (doc'.inSource N)) {lo hi : Nat}
    (h : doc.Abut lo hi (doc.inSource (doc.children p))) :
    doc'.Abut lo hi (doc'.inSource (doc'.children p)) := by
  have same : ∀ x ∈ doc.children p, doc'.span x = doc.span x := fun x hx =>
    (splice.content (linked.child_lt hx)).2.1
  have kept : ∀ {xs : List NodeId}, (∀ x ∈ xs, x ∈ doc.children p) → ∀ {lo hi : Nat},
      doc.Abut lo hi (doc.inSource xs) → doc'.Abut lo hi (doc'.inSource xs) := by
    intro xs inside lo hi abut
    rw [inSource_congr fun x hx => same x (inside x hx)]
    exact (abut_congr fun x hx => same x (inside x (mem_inSource.mp hx).1)).mpr abut
  by_cases here : p = q
  · subst here
    rw [splice.split, inSource_append, inSource_append, abut_append] at h
    obtain ⟨m, front, back⟩ := h
    obtain ⟨k, first, middle⟩ := abut_append.mp front
    rw [splice.children_here, inSource_append, inSource_append]
    refine abut_append.mpr ⟨m, abut_append.mpr ⟨k, kept (fun x hx => ?_) first, parts k m middle⟩,
      kept (fun x hx => ?_) back⟩
    · rw [splice.split]
      simp [hx]
    · rw [splice.split]
      simp [hx]
  · rw [splice.children_rest valid here]
    exact kept (fun _ hx => hx) h

theorem Recut.abut {p id : NodeId} {A C : List NodeId} {parts : List Text}
    (recut : doc.Recut doc' p A id C parts) (sound : doc.Sound source) (reached : doc.Reaches id)
    {s : Span} (span : doc.span id = some s) :
    doc'.Abut s.lo s.hi (List.range' doc.nodes.size parts.length) := by
  have slice := ((sound.each id reached).text _ recut.value).2.2 s span
  have laid : doc'.Laid (some s) [] parts.flatten (List.range' doc.nodes.size parts.length) := by
    refine laid_range fun i t part => ?_
    have node := recut.part i t part
    rw [span] at node
    exact ⟨text?_of_node node rfl, span_of_node node⟩
  have abut := laid.abut
  rwa [bytes_nil, Nat.add_zero, slice?_bytes slice] at abut

theorem Edit.abut (edit : Edit o rule doc doc') (sound : doc.Sound source) {p : NodeId}
    (valid : p < doc.nodes.size) {lo hi : Nat} (h : doc.Abut lo hi (doc.inSource (doc.children p))) :
    doc'.Abut lo hi (doc'.inSource (doc'.children p)) := by
  have remark : ∀ (id : NodeId) (slot : Slot) (cs : List Comment),
      (doc.update id (·.setComments slot cs)).Abut lo hi
        ((doc.update id (·.setComments slot cs)).inSource
          ((doc.update id (·.setComments slot cs)).children p)) := by
    intro id slot cs
    have tree := fun j => @tree_setComments doc id slot cs j
    rw [(tree p).2.2.1, inSource_congr fun x _ => (tree x).2.1]
    exact (abut_congr fun x _ => (tree x).2.1).mpr h
  have nothing : ∀ {N : List NodeId}, (∀ x ∈ N, doc'.span x = none) → ∀ lo hi,
      doc.Abut lo hi (doc.inSource []) → doc'.Abut lo hi (doc'.inSource N) := by
    intro N none lo hi same
    rw [inSource_of_spanless none]
    exact same
  cases edit with
  | extend => exact remark ..
  | beside =>
    rw [appendComment_eq]
    exact remark ..
  | behind =>
    rw [appendComment_eq]
    exact remark ..
  | fill reached =>
    obtain ⟨splice, -, node⟩ := addPlaceholder_spec (sound.reaches_lt reached)
    refine splice.abut sound.linked valid (nothing fun x hx => ?_) h
    rw [List.mem_singleton.mp hx]
    exact span_of_node node
  | @cut _ q id A C parts s reached markup span settled recut =>
    have hold := recut.splice.holds_of_mem (List.mem_singleton_self id)
    refine recut.splice.abut sound.linked valid (fun lo hi single => ?_) h
    rw [inSource_of_spanned (by simp [span])] at single
    obtain ⟨t, here, rfl, rfl⟩ := single
    cases span.symm.trans here
    rw [inSource_of_spanned fun x hx => recut.spanned_new span hx]
    exact recut.abut sound (reached.child hold) span
  | among _ _ _ _ _ _ _ _ noted =>
    exact noted.splice.abut sound.linked valid
      (nothing fun x hx => noted.spanless_new (noted.splice.fresh x hx).1) h
  | last _ _ _ _ _ noted =>
    exact noted.splice.abut sound.linked valid
      (nothing fun x hx => noted.spanless_new (noted.splice.fresh x hx).1) h

theorem Edit.below_old (edit : Edit o rule doc doc') (sound : doc.Sound source) {c x : NodeId}
    (below : doc'.Below c x) (lt : x < doc.nodes.size) : doc.Below c x := by
  induction below with
  | refl => exact .refl
  | tail _ hold ih =>
    have old := edit.holds_old sound lt hold
    exact (ih old.parent_lt).tail old

theorem Edit.element_old (edit : Edit o rule doc doc') (sound : doc.Sound source) {p : NodeId}
    (reached : doc'.Reaches p) (markup : (doc'.kind p).hasMarkupChildren = true) :
    doc.Reaches p ∧ (doc.kind p).hasMarkupChildren = true := by
  have frame := (edit.frame sound).1
  have lt : p < doc.nodes.size := by
    by_contra out
    obtain ⟨s, span⟩ := Option.ne_none_iff_exists'.mp
      ((edit.sound sound).span_of_markup reached markup)
    exact (edit.new_spanned sound (Nat.le_of_not_lt out) span).1 (text?_of_markup markup)
  rw [(frame.same p lt).1] at markup
  exact ⟨frame.back p reached lt, markup⟩

theorem Edit.seamless (edit : Edit o rule doc doc') (sound : doc.Sound source)
    (seamless : doc.Seamless) : doc'.Seamless := by
  have frame := (edit.frame sound).1
  refine ⟨?_, ?_, ?_, fun r remark => seamless.wide r (edit.remarkAt sound remark)⟩
  · intro p s reached markup span
    obtain ⟨within, element⟩ := edit.element_old sound reached markup
    have valid := sound.reaches_lt within
    rw [(frame.same p valid).2] at span
    exact edit.abut sound valid (seamless.abut p s within element span)
  · intro p c x s slot r reached markup hold below span remark
    obtain ⟨within, element⟩ := edit.element_old sound reached markup
    have old := edit.remarkIn sound remark
    have within' := edit.below_old sound below (sound.reaches_lt old.1)
    have lt : c < doc.nodes.size := by
      rcases ReflTransGen.cases_head within' with rfl | ⟨y, hold', -⟩
      · exact sound.reaches_lt old.1
      · exact hold'.parent_lt
    rw [(frame.same c lt).2] at span
    exact seamless.inside p c x s slot r within element (edit.holds_old sound lt hold) within' span old
  · intro p c reached markup hold own
    obtain ⟨within, element⟩ := edit.element_old sound reached markup
    rcases Nat.lt_or_ge c doc.nodes.size with lt | new
    · rw [(frame.same c lt).1] at own
      exact seamless.tags p c within element (edit.holds_old sound lt hold) own
    · have solid : doc'.text? c = none := by
        unfold text?
        rw [own]
        rfl
      have ok := (edit.sound sound).each p reached
      cases span : doc'.span c with
      | some s => exact (edit.new_spanned sound new span).1 solid
      | none =>
        rcases (ok.arranged markup).part hold span with note | gap | lead
        · rw [note.kind_eq] at own
          cases own
        · obtain ⟨_, text, -⟩ := gap.text?_eq
          cases solid.symm.trans text
        · obtain ⟨_, text, -⟩ := lead.text?_eq
          cases solid.symm.trans text

theorem Edit.unadorned_new (edit : Edit o rule doc doc') (sound : doc.Sound source) {p c : NodeId}
    (reached : doc'.Reaches p) (markup : (doc'.kind p).hasMarkupChildren = true)
    (hold : doc'.Holds p c) (new : doc.nodes.size ≤ c) {slot : Slot} (ne : slot ≠ .inner) :
    (doc'.node c).comments slot = [] := by
  have ok := (edit.sound sound).each
  cases span : doc'.span c with
  | some s =>
    obtain ⟨t, value⟩ := Option.ne_none_iff_exists'.mp (edit.new_spanned sound new span).1
    exact ((ok c (reached.child hold)).text t value).2.1 slot
  | none =>
    rcases ((ok p reached).arranged markup).part hold span with ⟨_, _, _, node, -⟩ | ⟨_, _, node, -⟩ |
      ⟨_, _, node, -⟩
    all_goals
      rw [node]
      cases slot <;> rfl

theorem Edit.unadorned (edit : Edit o rule doc doc') (sound : doc.Sound source)
    (seamless : doc.Seamless) (unadorned : doc.Unadorned) : doc'.Unadorned := by
  intro p c slot reached markup hold ne
  rcases Nat.lt_or_ge c doc.nodes.size with lt | new
  · obtain ⟨within, element⟩ := edit.element_old sound reached markup
    have held := edit.holds_old sound lt hold
    have before := unadorned p c slot within element held ne
    have splice : ∀ {q : NodeId} {A B N C : List NodeId}, doc.Splice doc' q A B N C →
        inserted ((doc'.node c).comments slot) = [] := fun splice => by
      rw [(splice.content lt).2.2 slot]
      exact before
    cases edit with
    | @extend id slot' cs d d' reached' at_id merged =>
      rw [comments_update (sound.reaches_lt reached')]
      split
      next here =>
        by_contra some
        refine inserted_merge merged some ?_
        rw [← at_id, ← here.1, ← here.2]
        exact before
      next => exact before
    | @beside line id q rest found aim place =>
      have other : c ≠ id := by
        rintro rfl
        have link := parent_of_aim aim
        cases link.symm.trans ((sound.linked.agree p c).mp held)
        exact not_beside_of_markup element (seamless.tags p c within element held) place
      rw [comments_appendComment (sound.reaches_lt (sound.first_spec found).1),
        if_neg fun here => other here.1]
      exact before
    | @behind block last reached' kind found =>
      have other : c ≠ last := by
        rintro rfl
        have inner : doc.Holds block c := List.mem_of_getLast? found
        cases sound.linked.parent_unique inner held
        rw [kind] at element
        cases element
      rw [comments_appendComment (sound.reaches_lt (sound.last_statement reached' kind found).1),
        if_neg fun here => other here.1]
      exact before
    | fill reached' => exact splice (addPlaceholder_spec (sound.reaches_lt reached')).1
    | cut _ _ _ _ recut => exact splice recut.splice
    | among _ _ _ _ _ _ _ _ noted => exact splice noted.splice
    | last _ _ _ _ _ noted => exact splice noted.splice
  · rw [edit.unadorned_new sound reached markup hold new ne]
    rfl

theorem WellFormed.unadorned (wf : doc.WellFormed source) : doc.Unadorned := by
  intro p c slot reached _ hold _
  refine List.filter_eq_nil_iff.mpr fun k hk => ?_
  obtain ⟨-, s, span, -⟩ := (wf.each c (reached.child hold)).remarks slot k hk
  simp [Comment.isInserted, span]

structure Woven (source : Text) (doc : Document) : Prop where
  sound : doc.Sound source
  braced : doc.Braced source
  snug : doc.Snug source
  anchored : doc.Anchored
  clear : doc.Clear
  worded : doc.Worded
  seamless : doc.Seamless
  unadorned : doc.Unadorned

theorem WellFormed.woven (wf : doc.WellFormed source) (braced : doc.Braced source)
    (snug : doc.Snug source) (clear : doc.Clear) (worded : doc.Worded) (seamless : doc.Seamless) :
    doc.Woven source :=
  ⟨wf.sound, braced, snug, wf.anchored, clear, worded, seamless, wf.unadorned⟩

theorem Edit.woven (edit : Edit o rule doc doc') (woven : doc.Woven source) : doc'.Woven source where
  sound := edit.sound woven.sound
  braced := (edit.frame woven.sound).1.braced woven.braced
  snug := edit.snug woven.sound woven.snug
  anchored := edit.anchored woven.sound woven.anchored
  clear := edit.clear woven.sound woven.clear
  worded := edit.worded woven.sound woven.worded
  seamless := edit.seamless woven.sound woven.seamless
  unadorned := edit.unadorned woven.sound woven.seamless woven.unadorned

theorem Edits.woven (edits : Edits o rule doc doc') (woven : doc.Woven source) : doc'.Woven source := by
  induction edits with
  | refl => exact woven
  | tail _ edit ih => exact edit.woven ih

theorem Calls.woven (calls : doc.Calls doc') (woven : doc.Woven source) : doc'.Woven source :=
  calls.keeps woven.sound woven fun _ _ _ _ edit _ => edit.woven

instance decidableAbut (doc : Document) :
    (lo hi : Nat) → (xs : List NodeId) → Decidable (doc.Abut lo hi xs)
  | lo, hi, [] => inferInstanceAs (Decidable (lo = hi))
  | lo, hi, x :: xs =>
    match span : doc.span x with
    | none => isFalse (by rintro ⟨s, h, -⟩; rw [span] at h; cases h)
    | some s =>
      have := decidableAbut doc s.hi hi xs
      decidable_of_iff (s.lo = lo ∧ doc.Abut s.hi hi xs)
        ⟨fun h => ⟨s, span, h⟩, fun ⟨t, h, rest⟩ => by cases span.symm.trans h; exact rest⟩

def RemarksWithin (doc : Document) (s : Span) : Prop :=
  ∀ i < doc.nodes.size, ∀ t ∈ doc.span i, s.lo ≤ t.lo → t.hi ≤ s.hi →
    ∀ r ∈ doc.remarkSpans i, s.lo ≤ r.lo ∧ r.hi ≤ s.hi

def Seamlessly (doc : Document) : Prop :=
  (∀ p < doc.nodes.size, (doc.kind p).hasMarkupChildren = true → ∀ s ∈ doc.span p,
    doc.Abut s.lo s.hi (doc.inSource (doc.children p)) ∧ ∀ c ∈ doc.children p,
      doc.kind c ≠ .attribute ∧ ∀ t ∈ doc.span c, doc.RemarksWithin t) ∧
  ∀ i < doc.nodes.size, ∀ r ∈ doc.remarkSpans i, r.lo < r.hi

instance (s : Span) : Decidable (doc.RemarksWithin s) :=
  inferInstanceAs (Decidable (∀ i < doc.nodes.size, _))

instance : Decidable doc.Seamlessly := inferInstanceAs (Decidable (_ ∧ _))

theorem WellFormed.seamless_of_table (wf : doc.WellFormed source) (snug : doc.Snug source)
    (h : doc.Seamlessly) : doc.Seamless := by
  obtain ⟨elements, wide⟩ := h
  have sound := wf.sound
  refine ⟨fun p s reached markup span => ?_, fun p c x s slot r reached markup hold below span remark => ?_,
    fun p c reached markup hold => ?_, fun r remark => ?_⟩
  · exact (elements p (sound.reaches_lt reached) markup s span).1
  · obtain ⟨u, hu, -⟩ := sound.parent_span reached hold span
    obtain ⟨t, ht⟩ := Option.ne_none_iff_exists'.mp (snug.owned x slot r remark)
    obtain ⟨v, hv, low, high⟩ := sound.below_span (reached.child hold) below ht
    cases span.symm.trans hv
    obtain ⟨-, k, mem, here⟩ := id remark
    exact ((elements p (sound.reaches_lt reached) markup u hu).2 c hold).2 s span x
      (sound.reaches_lt remark.1) t ht low high r (mem_remarkSpans mem here)
  · obtain ⟨u, hu⟩ := Option.ne_none_iff_exists'.mp (sound.span_of_markup reached markup)
    exact ((elements p (sound.reaches_lt reached) markup u hu).2 c hold).1
  · obtain ⟨id, slot, c, reached, mem, span⟩ := remark
    exact wide id (sound.reaches_lt reached) r (mem_remarkSpans mem span)

end Quell.Document
