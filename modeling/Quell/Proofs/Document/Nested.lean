import Quell.Proofs.Document.Tree

/-!
Spans along the document order.

Where children lie in their parents and one behind the other, what follows a node in document order
is below it or behind it. `Visits` is the walk with a stack that keeps no count of anything: it ends
in every linked document, and what it has visited is the preorder.
-/
namespace Quell.Document

open Relation

structure NestedAt (doc : Document) (id : NodeId) : Prop where
  within : ∀ c t, doc.Holds id c → doc.span c = some t →
    ∃ s, doc.span id = some s ∧ s.lo ≤ t.lo ∧ t.hi ≤ s.hi
  ordered : (doc.children id).Pairwise fun a b =>
    ∀ s t, doc.span a = some s → doc.span b = some t → s.hi ≤ t.lo

section Order

variable {doc : Document} (nested : ∀ id, doc.Reaches id → doc.NestedAt id)

include nested

theorem span_above {c x : NodeId} (reached : doc.Reaches c) (h : doc.Below c x) {t : Span}
    (ht : doc.span x = some t) : ∃ s, doc.span c = some s ∧ s.lo ≤ t.lo ∧ t.hi ≤ s.hi := by
  induction h generalizing t with
  | refl => exact ⟨t, ht, Nat.le_refl _, Nat.le_refl _⟩
  | @tail y x hcy hyx ih =>
    obtain ⟨u, hu, lo, hi⟩ := (nested y (reached.below hcy)).within x t hyx ht
    obtain ⟨s, hs, lo', hi'⟩ := ih hu
    exact ⟨s, hs, by omega, by omega⟩

theorem inOrder_spans (linked : doc.Linked) (root_lt : root < doc.nodes.size) (id : NodeId)
    (reached : doc.Reaches id) : (doc.gather inOrder id).Pairwise fun a b =>
      (doc.Below a b ∨ ∀ s t, doc.span a = some s → doc.span b = some t → s.hi ≤ t.lo) ∧
      ¬ doc.Below b a := by
  induction id using linked.induct with
  | node id ih =>
    rw [gather_eq linked (linked.reaches_lt root_lt reached), inOrder, List.flatMap_map]
    refine List.pairwise_cons.mpr ⟨?_, ?_⟩
    · intro x hx
      obtain ⟨c, hc, hcx⟩ := List.mem_flatMap.mp hx
      have below := (mem_inOrder linked (linked.child_lt hc)).mp hcx
      refine ⟨.inl (ReflTransGen.head hc below), fun back => ?_⟩
      exact linked.acyclic id (TransGen.head' hc (below.trans back))
    · rw [List.pairwise_flatMap]
      refine ⟨fun c hc => ih c hc (reached.child hc), ?_⟩
      have distinct : (doc.children id).Pairwise (· ≠ ·) := linked.nodup id
      refine List.Pairwise.imp_of_mem ?_ ((nested id reached).ordered.and distinct)
      intro c d hc hd both x hx y hy
      have below_c := (mem_inOrder linked (linked.child_lt hc)).mp hx
      have below_d := (mem_inOrder linked (linked.child_lt hd)).mp hy
      refine ⟨.inr fun s t hs ht => ?_, fun back => ?_⟩
      · obtain ⟨u, hu, -, hi⟩ := span_above nested (reached.child hc) below_c hs
        obtain ⟨v, hv, lo, -⟩ := span_above nested (reached.child hd) below_d ht
        have := both.1 u v hu hv
        omega
      · exact both.2 (linked.sibling_unique hc hd below_c (below_d.trans back))

theorem preorder_spans (linked : doc.Linked) (root_lt : root < doc.nodes.size) :
    doc.preorder.Pairwise fun a b =>
      (doc.Below a b ∨ ∀ s t, doc.span a = some s → doc.span b = some t → s.hi ≤ t.lo) ∧
      ¬ doc.Below b a := by
  rw [preorder_eq]
  exact inOrder_spans nested linked root_lt root ReflTransGen.refl

theorem preorder_nodup (linked : doc.Linked) (root_lt : root < doc.nodes.size) :
    doc.preorder.Nodup := by
  refine (preorder_spans nested linked root_lt).imp fun h => ?_
  rintro rfl
  exact h.2 ReflTransGen.refl

theorem preorder_ascends (linked : doc.Linked) (root_lt : root < doc.nodes.size)
    (forward : ∀ id, doc.Reaches id → ∀ s, doc.span id = some s → s.lo ≤ s.hi) :
    doc.preorder.Pairwise fun a b =>
      ∀ s t, doc.span a = some s → doc.span b = some t → s.lo ≤ t.lo := by
  refine List.Pairwise.imp_of_mem ?_ (preorder_spans nested linked root_lt)
  intro a b ha hb h s t hs ht
  have reached := (mem_preorder linked root_lt).mp ha
  rcases h.1 with below | behind
  · obtain ⟨u, hu, lo, -⟩ := span_above nested reached below ht
    cases hs.symm.trans hu
    exact lo
  · exact Nat.le_trans (forward a reached s hs) (behind s t hs ht)

end Order

inductive Visits (doc : Document) : List NodeId → List NodeId → Prop where
  | done : Visits doc [] []
  | step {id : NodeId} {stack order : List NodeId} :
      Visits doc (doc.children id ++ stack) order → Visits doc (id :: stack) (id :: order)

theorem Linked.visits {doc : Document} (linked : doc.Linked) {id : NodeId}
    (valid : id < doc.nodes.size) {stack order : List NodeId} (rest : doc.Visits stack order) :
    doc.Visits (id :: stack) (doc.gather inOrder id ++ order) := by
  induction id using linked.induct generalizing stack order with
  | node id ih =>
    rw [gather_eq linked valid, inOrder, List.flatMap_map, List.cons_append]
    refine .step ?_
    have all : ∀ cs : List NodeId, (∀ c ∈ cs, doc.Holds id c) →
        doc.Visits (cs ++ stack) (cs.flatMap (doc.gather inOrder) ++ order) := by
      intro cs held
      induction cs with
      | nil => exact rest
      | cons c cs later =>
        rw [List.cons_append, List.flatMap_cons, List.append_assoc]
        have hold := held c (by simp)
        exact ih c hold (linked.child_lt hold) (later fun d hd => held d (by simp [hd]))
    exact all _ fun c hc => hc

theorem Linked.visits_preorder {doc : Document} (linked : doc.Linked)
    (root_lt : root < doc.nodes.size) : doc.Visits [root] doc.preorder := by
  have := linked.visits root_lt .done
  rwa [List.append_nil, ← preorder_eq] at this

end Quell.Document
