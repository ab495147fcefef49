import Mathlib.Data.Finset.Card
import Mathlib.Data.Fintype.Basic
import Mathlib.Logic.Relation
import Quell.Document.Edit

/-!
Documents as trees.

`Linked` says that child lists and parent links describe one forest. In a linked document every
recursion that the library bounds by the number of nodes reaches its leaves, so `fold` satisfies
its own equation without a bound; walking and printing are such folds. `gather_path` is how two
documents that differ below one node are compared: around that node both folds are the same.
-/
namespace Quell.Document

open Relation

@[simp] theorem size_update (doc : Document) (id : NodeId) (f : Node → Node) :
    (doc.update id f).nodes.size = doc.nodes.size := by
  simp [update]

@[simp] theorem eol_update (doc : Document) (id : NodeId) (f : Node → Node) :
    (doc.update id f).eol = doc.eol := rfl

theorem node_update (doc : Document) (id j : NodeId) (f : Node → Node) :
    (doc.update id f).node j =
      if j = id ∧ id < doc.nodes.size then f (doc.node id) else doc.node j := by
  unfold update node
  simp only [Array.getD_eq_getD_getElem?, Array.getElem?_modify]
  by_cases same : id = j
  · subst same
    by_cases valid : id < doc.nodes.size
    · simp [valid]
    · simp [valid]
  · simp [same, Ne.symm same]

theorem node_update_self (doc : Document) {id : NodeId} (valid : id < doc.nodes.size)
    (f : Node → Node) : (doc.update id f).node id = f (doc.node id) := by
  rw [node_update, if_pos ⟨rfl, valid⟩]

theorem node_update_ne (doc : Document) {id j : NodeId} (ne : j ≠ id) (f : Node → Node) :
    (doc.update id f).node j = doc.node j := by
  rw [node_update, if_neg fun h => ne h.1]

theorem node_of_size_le (doc : Document) {id : NodeId} (h : doc.nodes.size ≤ id) :
    doc.node id = { kind := .empty, span := none } := by
  simp [node, Array.getElem?_eq_none h]

@[simp] theorem size_alloc (doc : Document) (kind : NodeKind) (span : Option Span) :
    (doc.alloc kind span).1.nodes.size = doc.nodes.size + 1 := by
  simp [alloc]

@[simp] theorem eol_alloc (doc : Document) (kind : NodeKind) (span : Option Span) :
    (doc.alloc kind span).1.eol = doc.eol := rfl

@[simp] theorem alloc_snd (doc : Document) (kind : NodeKind) (span : Option Span) :
    (doc.alloc kind span).2 = doc.nodes.size := rfl

theorem node_alloc (doc : Document) (kind : NodeKind) (span : Option Span) (j : NodeId) :
    (doc.alloc kind span).1.node j =
      if j = doc.nodes.size then { kind, span } else doc.node j := by
  unfold alloc node
  simp only [Array.getD_eq_getD_getElem?, Array.getElem?_push]
  by_cases new : j = doc.nodes.size
  · simp [new]
  · simp [new]

theorem update_congr (doc : Document) (id : NodeId) {f g : Node → Node}
    (h : f (doc.node id) = g (doc.node id)) : doc.update id f = doc.update id g := by
  cases doc with
  | mk nodes eol =>
    unfold update
    congr 1
    apply Array.ext_getElem?
    intro i
    rw [Array.getElem?_modify, Array.getElem?_modify]
    split
    · rename_i same
      subst same
      by_cases valid : id < nodes.size
      · have e : f nodes[id] = g nodes[id] := by simpa [node, valid] using h
        simp [valid, e]
      · simp [valid]
    · rfl

theorem update_eq_self (doc : Document) (id : NodeId) (f : Node → Node)
    (h : f (doc.node id) = doc.node id) : doc.update id f = doc := by
  rw [doc.update_congr id (g := fun n => n) h]
  cases doc with
  | mk nodes eol =>
    unfold update
    congr 1
    apply Array.ext_getElem?
    intro i
    rw [Array.getElem?_modify]
    split <;> simp

/-- The second node stands in the child list of the first. -/
def Holds (doc : Document) (p c : NodeId) : Prop := c ∈ doc.children p

def Below (doc : Document) : NodeId → NodeId → Prop := ReflTransGen doc.Holds

/-- What the root reaches. -/
def Reaches (doc : Document) (id : NodeId) : Prop := doc.Below root id

/-- Child lists and parent links agree, no list names a node twice, and no node stands below
itself. -/
structure Linked (doc : Document) : Prop where
  agree : ∀ p c, c ∈ doc.children p ↔ doc.parent c = some p
  nodup : ∀ p, (doc.children p).Nodup
  acyclic : ∀ id, ¬ TransGen doc.Holds id id

theorem Holds.parent_lt {doc : Document} {p c : NodeId} (h : doc.Holds p c) :
    p < doc.nodes.size := by
  by_contra outside
  unfold Holds children at h
  rw [node_of_size_le doc (Nat.le_of_not_lt outside)] at h
  cases h

namespace Linked

variable {doc : Document} (linked : doc.Linked)

include linked

theorem child_lt {p c : NodeId} (h : doc.Holds p c) : c < doc.nodes.size := by
  have link := (linked.agree p c).mp h
  by_contra outside
  unfold parent at link
  rw [node_of_size_le doc (Nat.le_of_not_lt outside)] at link
  cases link

theorem parent_unique {p q c : NodeId} (hp : doc.Holds p c) (hq : doc.Holds q c) : p = q :=
  Option.some.inj (((linked.agree p c).mp hp).symm.trans ((linked.agree q c).mp hq))

theorem not_below_of_holds {p c : NodeId} (h : doc.Holds p c) : ¬ doc.Below c p := fun back =>
  linked.acyclic p (TransGen.head' h back)

theorem below_comparable {a b id : NodeId} (ha : doc.Below a id) (hb : doc.Below b id) :
    doc.Below a b ∨ doc.Below b a := by
  induction ha with
  | refl => exact .inr hb
  | @tail q c haq hqc ih =>
    rcases ReflTransGen.cases_tail hb with rfl | ⟨r, hbr, hrc⟩
    · exact .inl (haq.tail hqc)
    · exact ih (linked.parent_unique hrc hqc ▸ hbr)

theorem sibling_unique {p c d id : NodeId} (hc : doc.Holds p c) (hd : doc.Holds p d)
    (below_c : doc.Below c id) (below_d : doc.Below d id) : c = d := by
  have apart : ∀ {x y : NodeId}, doc.Holds p x → doc.Holds p y → doc.Below x y → x = y := by
    intro x y hx hy h
    rcases ReflTransGen.cases_tail h with rfl | ⟨r, hxr, hry⟩
    · rfl
    · exact absurd (linked.parent_unique hry hy ▸ hxr) (linked.not_below_of_holds hx)
  rcases linked.below_comparable below_c below_d with h | h
  · exact apart hc hd h
  · exact (apart hd hc h).symm

end Linked

/-- A relation without cycles on the numbers below `n` has a rank below `n`: how many numbers
follow. -/
theorem exists_rank {n : Nat} {r : Nat → Nat → Prop} (bound : ∀ a b, r a b → b < n)
    (acyclic : ∀ a, ¬ TransGen r a a) :
    ∃ rank : Nat → Nat, (∀ a b, r a b → rank b < rank a) ∧ ∀ a < n, rank a < n := by
  classical
  refine ⟨fun a => ((Finset.range n).filter fun b => TransGen r a b).card, ?_, ?_⟩
  · intro a b h
    apply Finset.card_lt_card
    rw [Finset.ssubset_iff_of_subset]
    · refine ⟨b, ?_, ?_⟩
      · simp only [Finset.mem_filter, Finset.mem_range]
        exact ⟨bound a b h, TransGen.single h⟩
      · simp only [Finset.mem_filter, not_and]
        exact fun _ => acyclic b
    · intro c hc
      simp only [Finset.mem_filter] at hc ⊢
      exact ⟨hc.1, TransGen.head h hc.2⟩
  · intro a ha
    have strict : ((Finset.range n).filter fun b => TransGen r a b) ⊂ Finset.range n := by
      rw [Finset.ssubset_iff_of_subset (Finset.filter_subset _ _)]
      refine ⟨a, Finset.mem_range.mpr ha, ?_⟩
      simp only [Finset.mem_filter, not_and]
      exact fun _ => acyclic a
    simpa using Finset.card_lt_card strict

theorem acyclic_of_rank {r : Nat → Nat → Prop} (rank : Nat → Nat)
    (falls : ∀ a b, r a b → rank b < rank a) (a : Nat) : ¬ TransGen r a a := by
  intro cycle
  have lower : ∀ b, TransGen r a b → rank b < rank a := by
    intro b h
    induction h with
    | single h => exact falls _ _ h
    | tail _ h ih => exact Nat.lt_trans (falls _ _ h) ih
  exact Nat.lt_irrefl _ (lower a cycle)

namespace Linked

variable {doc : Document} (linked : doc.Linked)

include linked

theorem height : ∃ rank : NodeId → Nat, (∀ p c, doc.Holds p c → rank c < rank p) ∧
    ∀ id < doc.nodes.size, rank id < doc.nodes.size :=
  exists_rank (fun _ _ h => linked.child_lt h) linked.acyclic

theorem depth : ∃ rank : NodeId → Nat, (∀ p c, doc.Holds p c → rank p < rank c) ∧
    ∀ id < doc.nodes.size, rank id < doc.nodes.size := by
  obtain ⟨rank, rises, bound⟩ := exists_rank (n := doc.nodes.size) (r := fun c p => doc.Holds p c)
    (fun _ _ h => h.parent_lt) (fun id cycle => linked.acyclic id (transGen_swap.mp cycle))
  exact ⟨rank, fun p c h => rises c p h, bound⟩

/-- Induction from the leaves. -/
theorem induct {motive : NodeId → Prop}
    (node : ∀ id, (∀ c, doc.Holds id c → motive c) → motive id) (id : NodeId) : motive id := by
  obtain ⟨rank, falls, -⟩ := linked.height
  have all : ∀ n, ∀ id, rank id = n → motive id := by
    intro n
    induction n using Nat.strong_induction_on with
    | _ n ih =>
      intro id hid
      exact node id fun c hc => ih (rank c) (hid ▸ falls id c hc) c rfl
  exact all _ id rfl

theorem reaches_lt (root_lt : root < doc.nodes.size) {id : NodeId} (h : doc.Reaches id) :
    id < doc.nodes.size := by
  rcases ReflTransGen.cases_tail h with rfl | ⟨p, -, hp⟩
  · exact root_lt
  · exact linked.child_lt hp

end Linked

theorem Reaches.child {doc : Document} {p c : NodeId} (h : doc.Reaches p) (hc : doc.Holds p c) :
    doc.Reaches c := ReflTransGen.tail h hc

theorem Reaches.below {doc : Document} {p c : NodeId} (h : doc.Reaches p) (hc : doc.Below p c) :
    doc.Reaches c := ReflTransGen.trans h hc

theorem Linked.reaches_parent {doc : Document} (linked : doc.Linked) {p c : NodeId}
    (h : doc.Reaches c) (link : doc.parent c = some p) (ne : c ≠ root) : doc.Reaches p := by
  rcases ReflTransGen.cases_tail h with rfl | ⟨q, hq, hqc⟩
  · exact absurd rfl ne
  · exact linked.parent_unique ((linked.agree p c).mpr link) hqc ▸ hq

section Fold

variable {α : Type} {doc doc' : Document}
variable {alg alg' : NodeId → List (NodeId × List α) → List α}

def fold (doc : Document) (alg : NodeId → List (NodeId × List α) → List α) :
    Nat → NodeId → List α
  | 0, _ => []
  | fuel + 1, id => alg id ((doc.children id).map fun c => (c, fold doc alg fuel c))

def gather (doc : Document) (alg : NodeId → List (NodeId × List α) → List α) (id : NodeId) :
    List α :=
  doc.fold alg doc.nodes.size id

theorem fold_stable {rank : NodeId → Nat} (falls : ∀ p c, doc.Holds p c → rank c < rank p)
    {m n : Nat} {id : NodeId} (hm : rank id < m) (hn : rank id < n) :
    doc.fold alg m id = doc.fold alg n id := by
  induction m generalizing n id with
  | zero => omega
  | succ m ih =>
    cases n with
    | zero => omega
    | succ n =>
      rw [fold, fold]
      congr 1
      apply List.map_congr_left
      intro c hc
      have := falls id c hc
      have low : rank c < m := by omega
      rw [ih low (by omega : rank c < n)]

theorem gather_eq (linked : doc.Linked) {id : NodeId} (valid : id < doc.nodes.size) :
    doc.gather alg id = alg id ((doc.children id).map fun c => (c, doc.gather alg c)) := by
  obtain ⟨rank, falls, bound⟩ := linked.height
  unfold gather
  obtain ⟨m, hm⟩ := Nat.exists_eq_succ_of_ne_zero (Nat.ne_zero_of_lt valid)
  have low := bound id valid
  rw [hm] at low ⊢
  rw [fold]
  congr 1
  apply List.map_congr_left
  intro c hc
  have := falls id c hc
  rw [fold_stable falls (m := m) (n := m + 1) (by omega) (by omega)]

def AlikeAt (doc doc' : Document) (alg alg' : NodeId → List (NodeId × List α) → List α)
    (id : NodeId) : Prop :=
  doc'.children id = doc.children id ∧
    ∀ kids, kids.map (·.1) = doc.children id → alg' id kids = alg id kids

theorem AlikeAt.apply {id : NodeId} (alike : AlikeAt doc doc' alg alg' id) (give : NodeId → List α) :
    alg' id ((doc.children id).map fun c => (c, give c)) =
      alg id ((doc.children id).map fun c => (c, give c)) := by
  apply alike.2
  rw [List.map_map]
  exact List.map_id _

theorem gather_congr (linked : doc.Linked) (linked' : doc'.Linked) {id : NodeId}
    (valid : id < doc.nodes.size) (valid' : id < doc'.nodes.size)
    (same : ∀ j, doc.Below id j → AlikeAt doc doc' alg alg' j) :
    doc'.gather alg' id = doc.gather alg id := by
  induction id using linked.induct with
  | node id ih =>
    have here := same id ReflTransGen.refl
    rw [gather_eq linked valid, gather_eq linked' valid', here.1, here.apply]
    congr 1
    apply List.map_congr_left
    intro c hc
    have hold : doc.Holds id c := hc
    have hold' : doc'.Holds id c := by
      unfold Holds
      rw [here.1]
      exact hc
    rw [ih c hold (linked.child_lt hold) (linked'.child_lt hold')
      fun j hj => same j (ReflTransGen.head hold hj)]

def Linear (alg : NodeId → List (NodeId × List α) → List α) (id : NodeId) : Prop :=
  ∀ A c C, ∃ L R, ∀ v, alg id (A ++ (c, v) :: C) = L ++ v ++ R

/-- Two documents that differ only below `p` gather the same around it. What comes first is built up
along the path, by the steps that the motive allows. -/
theorem gather_path (linked : doc.Linked) (linked' : doc'.Linked) {a p : NodeId}
    {motive : NodeId → List α → Prop} (nil : motive p [])
    (path : doc.Below a p) (valid : a < doc.nodes.size) (valid' : a < doc'.nodes.size)
    (step : ∀ q b A C, doc.Below a q → doc.Below b p → doc.children q = A ++ b :: C →
      ∃ L R, (∀ v, alg q (A.map (fun c => (c, doc.gather alg c)) ++ (b, v) ::
          C.map fun c => (c, doc.gather alg c)) = L ++ v ++ R) ∧
        ∀ U, motive b U → motive q (L ++ U))
    (same : ∀ j, doc.Below a j → ¬ doc.Below p j → AlikeAt doc doc' alg alg' j)
    (size_le : doc.nodes.size ≤ doc'.nodes.size) :
    ∃ U V, doc.gather alg a = U ++ doc.gather alg p ++ V ∧
      doc'.gather alg' a = U ++ doc'.gather alg' p ++ V ∧ motive a U := by
  induction path using ReflTransGen.head_induction_on with
  | refl => exact ⟨[], [], by simp, by simp, nil⟩
  | @head a b hab hbp ih =>
    have outside : ¬ doc.Below p a := fun back =>
      linked.acyclic a (TransGen.head' hab (hbp.trans back))
    have here := same a ReflTransGen.refl outside
    obtain ⟨A, C, split⟩ := List.append_of_mem hab
    have hab' : doc'.Holds a b := by
      unfold Holds
      rw [here.1]
      exact hab
    obtain ⟨U, V, hU, hU', built⟩ := ih (linked.child_lt hab) (linked'.child_lt hab')
      (fun q c A C hq => step q c A C (ReflTransGen.head hab hq))
      fun j hj => same j (ReflTransGen.head hab hj)
    -- The siblings of the child on the path hold nothing that changed.
    have aside : ∀ x, doc.Holds a x → x ≠ b → doc'.gather alg' x = doc.gather alg x := by
      intro x hx hxb
      have lt := linked.child_lt hx
      apply gather_congr linked linked' lt (Nat.lt_of_lt_of_le lt size_le)
      intro j hj
      apply same j (ReflTransGen.head hx hj)
      intro hpj
      exact hxb (linked.sibling_unique hx hab hj (hbp.trans hpj))
    have nodup := linked.nodup a
    rw [split] at nodup
    have apart := List.nodup_middle.mp nodup
    have notin : b ∉ A ++ C := (List.nodup_cons.mp apart).1
    have sides : ∀ xs : List NodeId, (∀ x ∈ xs, x ∈ A ++ C) →
        xs.map (fun c => (c, doc'.gather alg' c)) = xs.map (fun c => (c, doc.gather alg c)) := by
      intro xs inside
      apply List.map_congr_left
      intro x hx
      have mem := inside x hx
      have hold : doc.Holds a x := by
        unfold Holds
        rw [split]
        rcases List.mem_append.mp mem with h | h
        · exact List.mem_append_left _ h
        · exact List.mem_append_right _ (List.mem_cons_of_mem _ h)
      rw [aside x hold fun e => notin (e ▸ mem)]
    obtain ⟨L, R, line, grow⟩ := step a b A C ReflTransGen.refl hbp split
    refine ⟨L ++ U, V ++ R, ?_, ?_, grow U built⟩
    · rw [gather_eq linked valid, split, List.map_append, List.map_cons, line, hU]
      simp only [List.append_assoc]
    · rw [gather_eq linked' valid', here.1, here.apply, split, List.map_append, List.map_cons,
        sides A fun x hx => List.mem_append_left _ hx,
        sides C fun x hx => List.mem_append_right _ hx, line, hU']
      simp only [List.append_assoc]

theorem gather_context (linked : doc.Linked) (linked' : doc'.Linked) {a p : NodeId}
    (path : doc.Below a p) (valid : a < doc.nodes.size) (valid' : a < doc'.nodes.size)
    (linear : ∀ q, doc.Below a q → doc.Below q p → q ≠ p → Linear alg q)
    (same : ∀ j, doc.Below a j → ¬ doc.Below p j → AlikeAt doc doc' alg alg' j)
    (size_le : doc.nodes.size ≤ doc'.nodes.size) :
    ∃ U V, doc.gather alg a = U ++ doc.gather alg p ++ V ∧
      doc'.gather alg' a = U ++ doc'.gather alg' p ++ V := by
  obtain ⟨U, V, old, new, -⟩ := gather_path linked linked' (motive := fun _ _ => True) trivial path
    valid valid' (fun q b A C above below split => by
      have hold : doc.Holds q b := by
        unfold Holds
        rw [split]
        simp
      have ne : q ≠ p := fun e => linked.not_below_of_holds hold (e ▸ below)
      obtain ⟨L, R, line⟩ := linear q above (ReflTransGen.head hold below) ne
        (A.map fun c => (c, doc.gather alg c)) b (C.map fun c => (c, doc.gather alg c))
      exact ⟨L, R, line, fun _ _ => trivial⟩) same size_le
  exact ⟨U, V, old, new⟩

end Fold

def inOrder (id : NodeId) (kids : List (NodeId × List NodeId)) : List NodeId :=
  id :: kids.flatMap (·.2)

theorem linear_inOrder (id : NodeId) : Linear inOrder id := by
  intro A c C
  refine ⟨id :: A.flatMap (·.2), C.flatMap (·.2), ?_⟩
  intro v
  simp [inOrder]

theorem walk_eq_fold (doc : Document) (fuel depth : Nat) (id : NodeId) :
    (doc.walk fuel depth id).map (·.2) = doc.fold inOrder fuel id := by
  induction fuel generalizing depth id with
  | zero => rfl
  | succ fuel ih =>
    simp only [walk, fold, inOrder, List.map_cons, List.map_flatMap, List.flatMap_map, ih]

theorem preorder_eq (doc : Document) : doc.preorder = doc.gather inOrder root :=
  walk_eq_fold doc _ 0 root

theorem mem_inOrder {doc : Document} (linked : doc.Linked) {id j : NodeId}
    (valid : id < doc.nodes.size) : j ∈ doc.gather inOrder id ↔ doc.Below id j := by
  induction id using linked.induct with
  | node id ih =>
    rw [gather_eq linked valid, inOrder, List.mem_cons, List.flatMap_map, List.mem_flatMap]
    constructor
    · rintro (rfl | ⟨c, hc, hj⟩)
      · exact ReflTransGen.refl
      · exact ReflTransGen.head hc ((ih c hc (linked.child_lt hc)).mp hj)
    · intro h
      rcases ReflTransGen.cases_head h with rfl | ⟨c, hc, hj⟩
      · exact .inl rfl
      · exact .inr ⟨c, hc, (ih c hc (linked.child_lt hc)).mpr hj⟩

theorem mem_preorder {doc : Document} (linked : doc.Linked) (root_lt : root < doc.nodes.size)
    {id : NodeId} : id ∈ doc.preorder ↔ doc.Reaches id := by
  rw [preorder_eq]
  exact mem_inOrder linked root_lt

end Quell.Document
