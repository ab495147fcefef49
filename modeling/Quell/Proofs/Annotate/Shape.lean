import Quell.Proofs.Annotate.Moves
import Quell.Proofs.Document.WellFormed

/-!
What a call does to the shape of a tree.

A regular tree stays regular, is walked in the order of its spans, and loses nothing but texts, which
their fragments replace. Nothing that `Regular` asks for is idle: for each part there is a tree in
shape that lacks it, and that a call leaves out of shape.
-/
namespace Quell.Document

open Text Relation

def Ascends (doc : Document) : Prop :=
  doc.preorder.Pairwise fun a b => ∀ s ∈ doc.span a, ∀ t ∈ doc.span b, s.lo ≤ t.lo

instance (doc : Document) : Decidable doc.Ascends := inferInstanceAs (Decidable (List.Pairwise ..))

/-- The walk from the root ends; it has every reached node once, and in the order of the spans. -/
structure Walks (doc : Document) : Prop where
  visits : doc.Visits [root] doc.preorder
  nodup : doc.preorder.Nodup
  all : ∀ id, id ∈ doc.preorder ↔ doc.Reaches id
  ascends : doc.Ascends

theorem RegularTree.walks {doc : Document} (tree : doc.RegularTree) : doc.Walks where
  visits := tree.linked.visits_preorder tree.root_lt
  nodup := preorder_nodup (fun _ => tree.nested) tree.linked tree.root_lt
  all _ := mem_preorder tree.linked tree.root_lt
  ascends := (preorder_ascends (fun _ => tree.nested) tree.linked tree.root_lt
    fun id reached => (tree.regular id reached).forward).imp fun h s hs t ht => h s t hs ht

/-- A call on a regular tree ends without a fault, and so do its climbs. It leaves a regular tree, in
which every node that was reached stands for itself or has given way to the fragments of its text. -/
theorem annotateOne_shape (o : AnnotateOptions) (line : Nat) (rule : Text) {doc : Document}
    (tree : doc.RegularTree) :
    (∀ id, doc.Reaches id → doc.Climbs line id (doc.ascend line doc.nodes.size id)) ∧
    ∃ doc' r, doc.annotateOne o line rule = .ok (doc', r) ∧ doc'.RegularTree ∧ doc'.Walks ∧
      ∃ parts, doc.Renders doc' parts := by
  refine ⟨fun id reached => tree.linked.climbs line (tree.linked.reaches_lt tree.root_lt reached), ?_⟩
  obtain ⟨doc', r, result, moves⟩ := annotateOne_moves o line rule tree
  have tree' := moves.tree tree
  exact ⟨doc', r, result, tree', tree'.walks, moves.renders tree⟩

def ShapedAt (doc : Document) (id : NodeId) : Prop :=
  (doc.kind id = .conditional → (doc.children id).length = 2 ∨ (doc.children id).length = 3) ∧
  ((doc.kind id).hasMarkupChildren = true → doc.LaidOut id) ∧
  (doc.kind id = .hole → (doc.children id).length = 1) ∧
  (∀ c ∈ doc.children id, ∀ s ∈ doc.span id, ∀ t ∈ doc.span c, s.lo ≤ t.lo ∧ t.hi ≤ s.hi) ∧
  (doc.children id).Pairwise fun a b => ∀ s ∈ doc.span a, ∀ t ∈ doc.span b, s.hi ≤ t.lo

def RegularAt (doc : Document) (id : NodeId) : Prop :=
  (∀ s ∈ doc.span id, s.lo ≤ s.hi) ∧
  (∀ t ∈ doc.text? id, doc.children id = [] ∧ ∀ s ∈ doc.span id, s.lo + bytes t ≤ s.hi) ∧
  (doc.span id = none → ∀ c ∈ doc.children id, doc.span c = none)

def Treelike (doc : Document) : Prop :=
  root < doc.nodes.size ∧ ∀ id < doc.nodes.size, doc.LinkedAt id ∧ doc.ShapedAt id

section Test

variable {doc : Document} {id : NodeId}

instance : Decidable (doc.ShapedAt id) := inferInstanceAs (Decidable (_ ∧ _))

instance : Decidable (doc.RegularAt id) := inferInstanceAs (Decidable (_ ∧ _))

instance : Decidable doc.Treelike := inferInstanceAs (Decidable (_ ∧ _))

theorem shaped_of_shapedAt (h : doc.ShapedAt id) : doc.Shaped id := by
  obtain ⟨conditional, markup, hole, nested, ordered⟩ := h
  refine ⟨fun kind => ?_, fun kind => (markup kind).tagged, fun kind => ?_,
    fun c s t hold hs ht => nested c hold s hs t ht,
    ordered.imp fun h s t hs ht => h s hs t ht⟩
  · rcases conditional kind with two | three
    · obtain ⟨test, consequent, kids⟩ := List.length_eq_two.mp two
      exact ⟨test, consequent, none, kids⟩
    · obtain ⟨test, consequent, alternate, kids⟩ := List.length_eq_three.mp three
      exact ⟨test, consequent, some alternate, kids⟩
  · exact List.length_eq_one_iff.mp (hole kind)

theorem regular_of_regularAt (h : doc.RegularAt id) : doc.Regular id :=
  ⟨fun s hs => h.1 s hs, fun t ht => (h.2.1 t ht).1, fun t s ht hs => (h.2.1 t ht).2 s hs, h.2.2⟩

theorem tree_of_treelike (h : doc.Treelike) : doc.Tree := by
  have linked := linked_of_linkedAt fun id lt => (h.2 id lt).1
  exact ⟨linked, h.1, fun id reached =>
    shaped_of_shapedAt (h.2 id (linked.reaches_lt h.1 reached)).2⟩

theorem regularTree_of_treelike (h : doc.Treelike)
    (regular : ∀ id < doc.nodes.size, doc.RegularAt id) : doc.RegularTree :=
  have tree := tree_of_treelike h
  ⟨tree, fun id reached =>
    regular_of_regularAt (regular id (tree.linked.reaches_lt tree.root_lt reached))⟩

end Test

def withText (value : Text) (stop : Nat) (within : List NodeId) (more : List Node) : Document :=
  ⟨(#[
    { kind := .program, span := some ⟨0, 14, 1, 2⟩, children := [1] },
    { kind := .element, span := some ⟨0, 14, 1, 2⟩, parent := some 0, children := [2, 3, 4, 6] },
    { kind := .openingTag, span := some ⟨0, 3, 1, 1⟩, parent := some 1 },
    { kind := .text value, span := some ⟨3, stop, 1, 2⟩, parent := some 1, children := within },
    { kind := .hole, span := some ⟨7, 10, 2, 2⟩, parent := some 1, children := [5] },
    { kind := .expression, span := some ⟨8, 9, 2, 2⟩, parent := some 4 },
    { kind := .closingTag, span := some ⟨10, 14, 2, 2⟩, parent := some 1 }] : Array Node) ++ more, .lf⟩

/-- Its text fits. -/
def fitting : Document := withText "\nbcd".toList 7 [] []

theorem annotateOne_shape_fitting : fitting.RegularTree ∧
    (∀ id, fitting.Reaches id → fitting.Climbs 2 id (fitting.ascend 2 fitting.nodes.size id)) ∧
    ∃ doc' r, fitting.annotateOne {} 2 ['r'] = .ok (doc', r) ∧ doc'.RegularTree ∧ doc'.Walks ∧
      ∃ parts, fitting.Renders doc' parts :=
  have tree : fitting.RegularTree :=
    regularTree_of_treelike (by decide +kernel) (by decide +kernel)
  ⟨tree, annotateOne_shape {} 2 ['r'] tree⟩

/-- A text of seven bytes in a span of two. -/
def swollen : Document := withText "\nb\nc\nde".toList 5 [] []

/-- A text that holds an expression. -/
def branched : Document :=
  withText "\nbcd".toList 7 [7] [{ kind := .expression, span := some ⟨3, 4, 1, 1⟩, parent := some 3 }]

/-- A statement without span around an expression with one. -/
def hollow : Document where
  nodes := #[
    { kind := .program, span := some ⟨0, 9, 1, 1⟩, children := [1, 3] },
    { kind := .statement, span := none, parent := some 0, children := [2] },
    { kind := .expression, span := some ⟨5, 6, 1, 1⟩, parent := some 1 },
    { kind := .statement, span := some ⟨1, 2, 1, 1⟩, parent := some 0 }]

/-- A statement that ends before it starts. -/
def backward : Document where
  nodes := #[
    { kind := .program, span := some ⟨0, 9, 1, 1⟩, children := [1, 2] },
    { kind := .statement, span := some ⟨8, 2, 1, 1⟩, parent := some 0 },
    { kind := .statement, span := some ⟨3, 5, 1, 1⟩, parent := some 0 }]

theorem of_outcome {doc doc' : Document} {r : Resolution} (P : Document → Prop) [DecidablePred P]
    (passes : (doc.annotateOne {} 2 ['r']).toOption.all (fun out => decide (P out.1)) = true)
    (result : doc.annotateOne {} 2 ['r'] = .ok (doc', r)) : P doc' := by
  rw [result] at passes
  exact of_decide_eq_true passes

/-- The tree is in shape, and a call does not leave it so. -/
def Warps (doc : Document) : Prop :=
  doc.Tree ∧ ¬ ∃ doc' r, doc.annotateOne {} 2 ['r'] = .ok (doc', r) ∧ doc'.Tree ∧ doc'.Walks ∧
    ∃ parts, doc.Renders doc' parts

theorem warps_of_falls {doc : Document} (tree : doc.Treelike)
    (falls : (doc.annotateOne {} 2 ['r']).toOption.all
      (fun out => decide (¬ out.1.Ascends)) = true) : doc.Warps := by
  refine ⟨tree_of_treelike tree, ?_⟩
  rintro ⟨doc', r, result, -, walks, -⟩
  exact of_outcome (fun out => ¬ out.Ascends) falls result walks.ascends

theorem annotateOne_shape_irregular :
    swollen.Warps ∧ branched.Warps ∧ hollow.Warps ∧ backward.Warps := by
  refine ⟨warps_of_falls (by decide +kernel) (by decide +kernel), ?_,
    warps_of_falls (by decide +kernel) (by decide +kernel),
    warps_of_falls (by decide +kernel) (by decide +kernel)⟩
  have tree : branched.Tree := tree_of_treelike (by decide +kernel)
  have drops : (branched.annotateOne {} 2 ['r']).toOption.all
      (fun out => decide (7 ∉ out.1.preorder)) = true := by decide +kernel
  refine ⟨tree, ?_⟩
  rintro ⟨doc', r, result, -, walks, parts, renders⟩
  have reached : branched.Reaches 7 :=
    (mem_preorder tree.linked (by decide)).mp (by decide +kernel)
  have gone : ¬ doc'.Reaches 7 := fun h =>
    of_outcome (fun out => 7 ∉ out.preorder) drops result ((walks.all 7).mpr h)
  -- What was dropped is no text.
  obtain ⟨⟨_, value, -⟩, -, -⟩ := renders.lost 7 reached gone
  cases value

end Quell.Document
