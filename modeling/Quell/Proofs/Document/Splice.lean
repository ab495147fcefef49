import Quell.Proofs.Document.Tree

/-!
Splices: one child list is changed in one place, and the nodes that come in are new.

Every edit of the library that is not about comments is a splice. The table keeps all its nodes;
those that leave the child list are leaves and lose their parent. A splice of a linked document is
linked, and reachability changes for the leaving and the new nodes only.
-/
namespace Quell.Document

open Relation

structure Splice (doc doc' : Document) (p : NodeId) (A B N C : List NodeId) : Prop where
  eol : doc'.eol = doc.eol
  grows : doc.nodes.size ≤ doc'.nodes.size
  split : doc.children p = A ++ B ++ C
  here : doc'.node p = { doc.node p with children := A ++ N ++ C }
  gone : ∀ b ∈ B, doc'.node b = { doc.node b with parent := none }
  leaf : ∀ b ∈ B, doc.children b = []
  rest : ∀ j, j < doc.nodes.size → j ≠ p → j ∉ B → doc'.node j = doc.node j
  fresh : ∀ j ∈ N, doc.nodes.size ≤ j ∧ doc'.parent j = some p
  nodup : N.Nodup
  /-- The parent of a new node is `p`, if it came in there, or another new node. -/
  above : ∀ j q, doc.nodes.size ≤ j → doc'.parent j = some q →
    q = p ∧ j ∈ N ∨ doc.nodes.size ≤ q ∧ j ∈ doc'.children q
  /-- New nodes hold newer nodes. -/
  below : ∀ q, doc.nodes.size ≤ q → (doc'.children q).Nodup ∧
    ∀ c ∈ doc'.children q, q < c ∧ doc'.parent c = some q

namespace Splice

variable {doc doc' : Document} {p : NodeId} {A B N C : List NodeId}
variable (splice : doc.Splice doc' p A B N C) (linked : doc.Linked)

include splice

theorem children_here : doc'.children p = A ++ N ++ C := by
  unfold children
  rw [splice.here]

theorem holds_of_mem {b : NodeId} (hb : b ∈ B) : doc.Holds p b := by
  unfold Holds
  rw [splice.split]
  simp [hb]

theorem children_gone {b : NodeId} (hb : b ∈ B) : doc'.children b = [] := by
  have h := splice.leaf b hb
  unfold children at h ⊢
  rw [splice.gone b hb]
  exact h

theorem parent_gone {b : NodeId} (hb : b ∈ B) : doc'.parent b = none := by
  unfold parent
  rw [splice.gone b hb]

theorem children_rest {j : NodeId} (lt : j < doc.nodes.size) (ne : j ≠ p) :
    doc'.children j = doc.children j := by
  by_cases hb : j ∈ B
  · rw [splice.children_gone hb, splice.leaf j hb]
  · unfold children
    rw [splice.rest j lt ne hb]

theorem parent_rest {j : NodeId} (lt : j < doc.nodes.size) (hb : j ∉ B) :
    doc'.parent j = doc.parent j := by
  by_cases ne : j = p
  · subst ne
    unfold parent
    rw [splice.here]
  · unfold parent
    rw [splice.rest j lt ne hb]

/-- An old node keeps what it is; only links change. -/
theorem content {j : NodeId} (lt : j < doc.nodes.size) :
    doc'.kind j = doc.kind j ∧ doc'.span j = doc.span j ∧
      ∀ slot, (doc'.node j).comments slot = (doc.node j).comments slot := by
  by_cases hp : j = p
  · subst hp
    unfold kind span
    rw [splice.here]
    exact ⟨rfl, rfl, fun slot => by cases slot <;> rfl⟩
  · by_cases hb : j ∈ B
    · unfold kind span
      rw [splice.gone j hb]
      exact ⟨rfl, rfl, fun slot => by cases slot <;> rfl⟩
    · unfold kind span
      rw [splice.rest j lt hp hb]
      exact ⟨rfl, rfl, fun _ => rfl⟩

theorem not_holds_old {q c : NodeId} (new : doc.nodes.size ≤ q) (lt : c < doc.nodes.size) :
    ¬ doc'.Holds q c := fun hold =>
  absurd (Nat.lt_trans ((splice.below q new).2 c hold).1 lt) (Nat.not_lt_of_le new)

theorem below_new {n j : NodeId} (below : doc'.Below n j) (new : doc.nodes.size ≤ n) :
    doc.nodes.size ≤ j := by
  induction below with
  | refl => exact new
  | tail _ hold ih => exact Nat.le_trans ih (Nat.le_of_lt ((splice.below _ ih).2 _ hold).1)

include linked

theorem not_mem_self : p ∉ B := fun hb =>
  linked.not_below_of_holds (splice.holds_of_mem hb) ReflTransGen.refl

/-- Between old nodes only the leaving ones are let go. -/
theorem holds_old {q c : NodeId} (hq : q < doc.nodes.size) (hc : c < doc.nodes.size) :
    doc'.Holds q c ↔ doc.Holds q c ∧ c ∉ B := by
  unfold Holds
  by_cases hqp : q = p
  · subst hqp
    have nodup := linked.nodup q
    have old : c ∉ N := fun h => absurd (splice.fresh c h).1 (Nat.not_le_of_lt hc)
    rw [splice.split] at nodup ⊢
    rw [splice.children_here]
    have left := List.disjoint_of_nodup_append (List.nodup_append.mp nodup).1
    have right := List.disjoint_of_nodup_append nodup
    simp only [List.mem_append, old, or_false]
    constructor
    · rintro (h | h)
      · exact ⟨.inl (.inl h), fun hb => left h hb⟩
      · exact ⟨.inr h, fun hb => right (List.mem_append_right _ hb) h⟩
    · rintro ⟨(h | h) | h, hb⟩
      · exact .inl h
      · exact absurd h hb
      · exact .inr h
  · rw [splice.children_rest hq hqp]
    refine ⟨fun h => ⟨h, fun hb => ?_⟩, fun h => h.1⟩
    exact hqp (linked.parent_unique h (splice.holds_of_mem hb))

theorem holds_new {q c : NodeId} (hq : q < doc.nodes.size) (new : doc.nodes.size ≤ c) :
    doc'.Holds q c ↔ q = p ∧ c ∈ N := by
  have absent : ∀ q, ¬ doc.Holds q c := fun q h =>
    absurd (linked.child_lt h) (Nat.not_lt_of_le new)
  unfold Holds at absent ⊢
  by_cases hqp : q = p
  · subst hqp
    have none := absent q
    rw [splice.split] at none
    rw [splice.children_here]
    simp only [List.mem_append, not_or, true_and] at none ⊢
    constructor
    · rintro ((h | h) | h)
      · exact absurd h none.1.1
      · exact h
      · exact absurd h none.2
    · exact fun h => .inl (.inr h)
  · rw [splice.children_rest hq hqp]
    exact ⟨fun h => absurd h (absent q), fun h => absurd h.1 hqp⟩

theorem agree' (q c : NodeId) : c ∈ doc'.children q ↔ doc'.parent c = some q := by
  rcases Nat.lt_or_ge c doc.nodes.size with hc | hc
  · rcases Nat.lt_or_ge q doc.nodes.size with hq | hq
    · refine (splice.holds_old linked hq hc).trans ?_
      by_cases hb : c ∈ B
      · rw [splice.parent_gone hb]
        exact ⟨fun h => absurd hb h.2, fun h => by cases h⟩
      · rw [splice.parent_rest hc hb, ← linked.agree q c]
        exact ⟨fun h => h.1, fun h => ⟨h, hb⟩⟩
    · refine ⟨fun h => absurd h (splice.not_holds_old hq hc), fun link => ?_⟩
      by_cases hb : c ∈ B
      · rw [splice.parent_gone hb] at link
        cases link
      · rw [splice.parent_rest hc hb, ← linked.agree q c] at link
        exact absurd (Holds.parent_lt link) (Nat.not_lt_of_le hq)
  · rcases Nat.lt_or_ge q doc.nodes.size with hq | hq
    · refine (splice.holds_new linked hq hc).trans ⟨?_, ?_⟩
      · rintro ⟨rfl, h⟩
        exact (splice.fresh c h).2
      · intro link
        rcases splice.above c q hc link with h | h
        · exact h
        · exact absurd hq (Nat.not_lt_of_le h.1)
    · refine ⟨fun h => ((splice.below q hq).2 c h).2, fun link => ?_⟩
      rcases splice.above c q hc link with ⟨rfl, h⟩ | h
      · rw [splice.children_here]
        simp [h]
      · exact h.2

theorem nodup' (q : NodeId) : (doc'.children q).Nodup := by
  rcases Nat.lt_or_ge q doc.nodes.size with hq | hq
  · by_cases hqp : q = p
    · subst hqp
      have nodup := linked.nodup q
      rw [splice.split, List.append_assoc] at nodup
      have sides : (A ++ C).Nodup :=
        nodup.sublist ((List.Sublist.refl A).append (List.sublist_append_right B C))
      rw [splice.children_here, List.append_assoc]
      apply (List.perm_append_comm_assoc A N C).nodup_iff.mpr
      refine List.nodup_append.mpr ⟨splice.nodup, sides, ?_⟩
      intro a ha b hb e
      subst e
      have held : doc.Holds q a := by
        unfold Holds
        rw [splice.split]
        rcases List.mem_append.mp hb with h | h <;> simp [h]
      exact absurd (splice.fresh a ha).1 (Nat.not_le_of_lt (linked.child_lt held))
    · rw [splice.children_rest hq hqp]
      exact linked.nodup q
  · exact (splice.below q hq).1

theorem acyclic' (id : NodeId) : ¬ TransGen doc'.Holds id id := by
  obtain ⟨rank, falls, -⟩ := linked.height
  refine acyclic_of_rank (fun j =>
    if j < doc.nodes.size then rank j + doc'.nodes.size + 1 else doc'.nodes.size - j) ?_ id
  intro q c hold
  rcases Nat.lt_or_ge q doc.nodes.size with hq | hq
  · rcases Nat.lt_or_ge c doc.nodes.size with hc | hc
    · have := falls q c ((splice.holds_old linked hq hc).mp hold).1
      rw [if_pos hc, if_pos hq]
      omega
    · rw [if_neg (Nat.not_lt_of_le hc), if_pos hq]
      omega
  · have newer := ((splice.below q hq).2 c hold).1
    have inside := Holds.parent_lt hold
    rw [if_neg (Nat.not_lt_of_le hq), if_neg (Nat.not_lt_of_le (Nat.le_of_lt
      (Nat.lt_of_le_of_lt hq newer)))]
    exact Nat.sub_lt_sub_left inside newer

theorem linked' : doc'.Linked := ⟨splice.agree' linked, splice.nodup' linked, splice.acyclic' linked⟩

/-- What is reached and is old was reached before and has not left. -/
theorem reaches_old {id : NodeId} (h : doc'.Reaches id) (lt : id < doc.nodes.size) :
    doc.Reaches id ∧ (id ≠ root → id ∉ B) := by
  induction h with
  | refl => exact ⟨ReflTransGen.refl, fun ne => absurd rfl ne⟩
  | @tail q c _ hold ih =>
    rcases Nat.lt_or_ge q doc.nodes.size with hq | hq
    · have old := (splice.holds_old linked hq lt).mp hold
      exact ⟨(ih hq).1.tail old.1, fun _ => old.2⟩
    · exact absurd hold (splice.not_holds_old hq lt)

theorem reaches_kept {id : NodeId} (h : doc.Reaches id) (stays : id ∉ B) : doc'.Reaches id := by
  induction h with
  | refl => exact ReflTransGen.refl
  | @tail q c _ hold ih =>
    have hqb : q ∉ B := by
      intro hq
      unfold Holds at hold
      rw [splice.leaf q hq] at hold
      cases hold
    exact (ih hqb).tail ((splice.holds_old linked (Holds.parent_lt hold)
      (linked.child_lt hold)).mpr ⟨hold, stays⟩)

theorem reaches_new (root_lt : root < doc.nodes.size) {id : NodeId} (h : doc'.Reaches id)
    (new : doc.nodes.size ≤ id) :
    id ∈ N ∨ ∃ q, doc.nodes.size ≤ q ∧ doc'.Reaches q ∧ doc'.Holds q id := by
  rcases ReflTransGen.cases_tail h with e | ⟨q, hq, hold⟩
  · exact absurd root_lt (Nat.not_lt_of_le (e ▸ new))
  · rcases Nat.lt_or_ge q doc.nodes.size with old | fresh
    · exact .inl ((splice.holds_new linked old new).mp hold).2
    · exact .inr ⟨q, fresh, hq, hold⟩

end Splice
end Quell.Document
