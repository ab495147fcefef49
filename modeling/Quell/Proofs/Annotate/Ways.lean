import Mathlib.Logic.Equiv.Basic
import Quell.Proofs.Annotate.Alike
import Quell.Proofs.Annotate.Rerun

/-!
Ways in which a node takes up a rule.

Beside a node, behind the last one of a block and within a markup comment the annotator looks for a
directive in other slots, and writes another comment where it finds none. In each way two rules may
come in either order, but for the order in which the directive names them: `serveAt_swap`.
-/
namespace Quell

open Text Relation

namespace Document

variable {source : Text} {doc doc' : Document} {o : AnnotateOptions} {rule : Text} {line : Nat}

def besideWay (o : AnnotateOptions) : Way :=
  ⟨[.leading, .trailing], if o.inline then .trailing else .leading,
    fun rule => (besideComment o rule).2⟩

def behindWay (o : AnnotateOptions) : Way := ⟨[.trailing], .trailing, behindComment o⟩

def withinWay (o : AnnotateOptions) : Way := ⟨[.inner], .inner, behindComment o⟩

def serveAt (doc : Document) (id : NodeId) (way : Way) (rule : Text) : Document × Resolution :=
  (doc.update id fun n => (n.serve way rule).1, ((doc.node id).serve way rule).2)

theorem besideWay_fair (o : AnnotateOptions) : (besideWay o).Fair o := by
  unfold besideWay besideComment
  cases o.inline with
  | false => exact ⟨List.mem_cons_self, .nextLine, .line, .leading, fun _ => rfl⟩
  | true => exact ⟨List.mem_cons_of_mem _ List.mem_cons_self, .sameLine, .line, .trailing false, fun _ => rfl⟩

theorem behindWay_fair (o : AnnotateOptions) : (behindWay o).Fair o :=
  ⟨List.mem_singleton.mpr rfl, .nextLine, .line, .trailing true, fun _ => rfl⟩

theorem withinWay_fair (o : AnnotateOptions) : (withinWay o).Fair o :=
  ⟨List.mem_singleton.mpr rfl, .nextLine, .line, .trailing true, fun _ => rfl⟩

theorem directed_iff_not_bare {id : NodeId} {slot : Slot} :
    (doc.node id).directed slot = true ↔ ¬ doc.Bare id slot := by
  unfold Bare Node.directed
  cases ((doc.node id).comments slot).getLast? with
  | none => simp
  | some c => simp [Option.isSome_iff_ne_none]

theorem directed_of_settled {id : NodeId} {slot : Slot} {r : Resolution}
    (settled : Resolution.ofMerge (doc.mergeInto id slot rule).2 = some r) :
    (doc.node id).directed slot = true := by
  rw [directed_iff_not_bare]
  intro bare
  rw [bare.mergeInto_eq rule] at settled
  cases settled

theorem not_directed_of_unread {id : NodeId} {slot : Slot}
    (unread : doc.mergeInto id slot rule = (doc, .notADirective)) :
    (doc.node id).directed slot = false := by
  rw [Bool.eq_false_iff, ne_eq, directed_iff_not_bare, not_not]
  exact bare_of_unread (by rw [unread])

theorem serveAt_of_settled {id : NodeId} {slot : Slot} {r : Resolution} {way : Way}
    (found : way.slots.find? (doc.node id).directed = some slot)
    (settled : Resolution.ofMerge (doc.mergeInto id slot rule).2 = some r) :
    doc.serveAt id way rule = ((doc.mergeInto id slot rule).1, r) := by
  have served : (doc.node id).serve way rule =
      ((doc.node id).setComments slot (Comment.mergeLast ((doc.node id).comments slot) rule).1,
        (Resolution.ofMerge (Comment.mergeLast ((doc.node id).comments slot) rule).2).getD
          .inserted) := by
    unfold Node.serve
    rw [found]
  refine Prod.ext ?_ ?_
  · refine update_congr doc id ?_
    rw [served]
  · change ((doc.node id).serve way rule).2 = r
    rw [served]
    change (Resolution.ofMerge (doc.mergeInto id slot rule).2).getD .inserted = r
    rw [settled]
    rfl

theorem serveAt_of_bare {id : NodeId} {way : Way}
    (none : way.slots.find? (doc.node id).directed = none) :
    doc.serveAt id way rule = (doc.appendComment id way.slot (way.comment rule), .inserted) := by
  have served := Node.serve_bare none rule
  refine Prod.ext (update_congr doc id ?_) ?_
  · rw [served]
  · change ((doc.node id).serve way rule).2 = _
    rw [served]

theorem attachOrdinary_eq (o : AnnotateOptions) (doc : Document) (id : NodeId) (rule : Text) :
    attachOrdinary o doc id rule = doc.serveAt id (besideWay o) rule := by
  rcases attachOrdinary_cases o doc id rule with ⟨r, settled, result⟩ | ⟨leading,
    ⟨r, settled, result⟩ | ⟨trailing, result⟩⟩
  · rw [result, serveAt_of_settled ?_ settled]
    change List.find? _ [Slot.leading, .trailing] = _
    rw [List.find?_cons_of_pos (directed_of_settled settled)]
  · rw [result, serveAt_of_settled ?_ settled]
    change List.find? _ [Slot.leading, .trailing] = _
    rw [List.find?_cons_of_neg (by rw [not_directed_of_unread leading]; exact Bool.false_ne_true),
      List.find?_cons_of_pos (directed_of_settled settled)]
  · rw [result, serveAt_of_bare]
    · unfold besideWay besideComment
      cases o.inline <;> rfl
    · refine List.find?_eq_none.mpr fun slot hs => ?_
      change slot ∈ [Slot.leading, .trailing] at hs
      rw [Bool.not_eq_true]
      rcases List.mem_cons.mp hs with rfl | hs
      · exact not_directed_of_unread leading
      · rw [List.mem_singleton.mp hs]
        exact not_directed_of_unread trailing

/-- On an ordinary line the rule is taken up beside the target. -/
theorem Ordinary.annotateOne_eq (ordinary : doc.Ordinary line) {id p : NodeId}
    (found : doc.locate line = some (.node id (some p))) (o : AnnotateOptions) (rule : Text) :
    doc.annotateOne o line rule = .ok (doc.serveAt id (besideWay o) rule) := by
  obtain ⟨kind, beside⟩ := ordinary id p found
  unfold annotateOne
  rw [found]
  dsimp only
  rw [annotateNode_eq, if_neg kind, if_pos beside, attachOrdinary_eq]

theorem attachBehindLast_eq {block last : NodeId} (o : AnnotateOptions) (rule : Text)
    (found : (doc.children block).getLast? = some last) :
    attachBehindLast o doc block rule = doc.serveAt last (behindWay o) rule := by
  rcases attachBehindLast_cases o rule found with ⟨r, settled, result⟩ | ⟨unread, result⟩
  · rw [result, serveAt_of_settled ?_ settled]
    change List.find? _ [Slot.trailing] = _
    rw [List.find?_cons_of_pos (directed_of_settled settled)]
  · rw [result, serveAt_of_bare]
    · rfl
    · refine List.find?_eq_none.mpr fun slot hs => ?_
      change slot ∈ [Slot.trailing] at hs
      rw [List.mem_singleton.mp hs, not_directed_of_unread unread]
      exact Bool.false_ne_true

/-- The same documents, but for the names of new nodes and the order of rules. -/
structure Alike (first : Nat) (f : NodeId → NodeId) (doc doc' : Document) : Prop where
  eol : doc'.eol = doc.eol
  size : doc'.nodes.size = doc.nodes.size
  old : ∀ j < first, f j = j
  far : ∀ j, doc.nodes.size ≤ j → f j = j
  inj : f.Injective
  node : ∀ j, (doc.node j).Alike f (doc'.node (f j))

variable {first : Nat} {f : NodeId → NodeId}

theorem Alike.of_nodes (eol : doc'.eol = doc.eol) (size : doc'.nodes.size = doc.nodes.size)
    (node : ∀ j, (doc.node j).Alike id (doc'.node j)) : Alike first id doc doc' :=
  ⟨eol, size, fun _ _ => rfl, fun _ _ => rfl, Function.injective_id, node⟩

theorem Alike.refl (first : Nat) (doc : Document) : Alike first id doc doc :=
  .of_nodes rfl rfl fun j => .refl (doc.node j)

theorem Alike.trans {doc'' : Document} {g : NodeId → NodeId} (h : Alike first f doc doc')
    (k : Alike first g doc' doc'') : Alike first (g ∘ f) doc doc'' where
  eol := k.eol.trans h.eol
  size := k.size.trans h.size
  old j lt := by rw [Function.comp_apply, h.old j lt, k.old j lt]
  far j le := by rw [Function.comp_apply, h.far j le, k.far j (by rw [h.size]; exact le)]
  inj := k.inj.comp h.inj
  node j := (h.node j).trans (k.node (f j))

theorem Alike.lt (alike : Alike first f doc doc') {id : NodeId} (valid : id < doc.nodes.size) :
    f id < doc'.nodes.size := by
  rw [alike.size]
  by_contra ge
  have fixed := alike.inj (alike.far (f id) (Nat.le_of_not_lt ge))
  rw [fixed] at ge
  exact ge valid

theorem Alike.surjective (alike : Alike first f doc doc') :
    f.Surjective := by
  intro j
  rcases Nat.lt_or_ge j doc.nodes.size with lt | ge
  · have within : (Finset.range doc.nodes.size).image f ⊆ Finset.range doc.nodes.size := by
      intro i mem
      obtain ⟨k, hk, rfl⟩ := Finset.mem_image.mp mem
      rw [Finset.mem_range, ← alike.size]
      exact alike.lt (Finset.mem_range.mp hk)
    have all := Finset.eq_of_subset_of_card_le within
      (Finset.card_image_of_injective _ alike.inj).ge
    obtain ⟨k, -, hk⟩ := Finset.mem_image.mp (all.symm ▸ Finset.mem_range.mpr lt)
    exact ⟨k, hk⟩
  · exact ⟨j, alike.far j ge⟩

theorem Alike.symm (alike : Alike first f doc doc') :
    ∃ g, Alike first g doc' doc := by
  obtain ⟨g, left, right⟩ := Function.bijective_iff_has_inverse.mp ⟨alike.inj, alike.surjective⟩
  have back : ∀ {j k : NodeId}, f j = k → g k = j := fun h => h ▸ left _
  refine ⟨g, alike.eol.symm, alike.size.symm, fun j lt => back (alike.old j lt), fun j ge =>
    back (alike.far j (by rwa [← alike.size])), right.injective, fun j => ?_⟩
  have node := alike.node (g j)
  rw [right j] at node
  have undo : ∀ ids : List NodeId, (ids.map f).map g = ids := fun ids => by
    rw [List.map_map, left.comp_eq_id, List.map_id]
  refine ⟨node.kind.symm, node.span.symm, ?_, ?_, fun slot => Comment.forall₂_symm (node.comments slot)⟩
  · rw [node.parent, Option.map_map, left.comp_eq_id, Option.map_id, id]
  · rw [node.children, undo]

theorem size_addPlaceholder {block : NodeId} (valid : block < doc.nodes.size) :
    (doc.addPlaceholder block).1.nodes.size = doc.nodes.size + 1 :=
  (addPlaceholder_spec valid).2.1

theorem ext_of_nodes (eol : doc'.eol = doc.eol) (size : doc'.nodes.size = doc.nodes.size)
    (node : ∀ j, doc'.node j = doc.node j) : doc' = doc := by
  cases doc with
  | mk nodes ending =>
    cases doc' with
    | mk nodes' ending' =>
      have same : nodes' = nodes := by
        refine Array.ext size fun j lt lt' => ?_
        have here := node j
        unfold Document.node at here
        simpa [Array.getD, lt, show j < nodes.size from lt'] using here
      cases eol
      rw [same]

theorem node_serveAt {id : NodeId} (valid : id < doc.nodes.size) (way : Way) (rule : Text)
    (j : NodeId) : (doc.serveAt id way rule).1.node j =
      if j = id then ((doc.node id).serve way rule).1 else doc.node j := by
  unfold serveAt
  dsimp only
  rw [node_update]
  by_cases same : j = id
  · rw [if_pos ⟨same, valid⟩, if_pos same]
  · rw [if_neg fun h => same h.1, if_neg same]

theorem size_serveAt (doc : Document) (id : NodeId) (way : Way) (rule : Text) :
    (doc.serveAt id way rule).1.nodes.size = doc.nodes.size := size_update ..

section Swap

variable {j : NodeId} {w v : Way} {r q : Text}

theorem node_serveAt_twice (valid : j < doc.nodes.size) (i : NodeId) :
    ((doc.serveAt j w r).1.serveAt j v q).1.node i =
      if i = j then (((doc.node j).serve w r).1.serve v q).1 else doc.node i := by
  rw [node_serveAt (by rw [size_serveAt]; exact valid), node_serveAt valid, if_pos rfl,
    node_serveAt valid w r i]
  split_ifs <;> rfl

theorem serveAt_snd (valid : j < doc.nodes.size) :
    ((doc.serveAt j w r).1.serveAt j v q).2 = (((doc.node j).serve w r).1.serve v q).2 := by
  change (Node.serve _ v q).2 = _
  rw [node_serveAt valid, if_pos rfl]

/-- Ways that look at different slots do not notice each other. -/
theorem serveAt_comm (valid : j < doc.nodes.size) (fair : w.Fair o) (fair' : v.Fair o)
    (apart : ∀ s ∈ w.slots, s ∉ v.slots) :
    ((doc.serveAt j w r).1.serveAt j v q).1 = ((doc.serveAt j v q).1.serveAt j w r).1 ∧
      ((doc.serveAt j w r).1.serveAt j v q).2 = (doc.serveAt j v q).2 ∧
      ((doc.serveAt j v q).1.serveAt j w r).2 = (doc.serveAt j w r).2 := by
  obtain ⟨same, first, second⟩ := Node.serve_comm fair fair' apart (doc.node j) r q
  refine ⟨ext_of_nodes rfl ?_ fun i => ?_, ?_, ?_⟩
  · simp only [size_serveAt]
  · rw [node_serveAt_twice valid, node_serveAt_twice valid, same]
  · rw [serveAt_snd valid]
    exact first
  · rw [serveAt_snd valid]
    exact second

theorem serveAt_swap (valid : j < doc.nodes.size) (fair : w.Fair o) (name : RuleName r)
    (name' : RuleName q) :
    Alike first id ((doc.serveAt j w r).1.serveAt j w q).1 ((doc.serveAt j w q).1.serveAt j w r).1 ∧
      [(doc.serveAt j w r).2, ((doc.serveAt j w r).1.serveAt j w q).2].Perm
        [(doc.serveAt j w q).2, ((doc.serveAt j w q).1.serveAt j w r).2] := by
  obtain ⟨alike, perm⟩ := Node.serve_swap fair (doc.node j) name name'
  refine ⟨.of_nodes rfl ?_ fun i => ?_, ?_⟩
  · simp only [size_serveAt]
  · rw [node_serveAt_twice valid, node_serveAt_twice valid]
    split_ifs
    · exact alike
    · exact .refl _
  · rw [serveAt_snd valid, serveAt_snd valid]
    exact perm

end Swap

/-- The two targets are not a statement and the block that it is the last one of. -/
def Apart (doc : Document) : Target → Target → Prop
  | .node id _, .blockTail block => (doc.children block).getLast? ≠ some id
  | .blockTail block, .node id _ => (doc.children block).getLast? ≠ some id
  | _, _ => True

end Document
end Quell
