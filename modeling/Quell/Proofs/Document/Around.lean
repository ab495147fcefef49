import Quell.Proofs.Document.Locate
import Quell.Proofs.Document.Preserve

/-!
A splice seen from the root.

What a document gathers is, around a spliced child list, what it gathered before. In particular the
nodes that start on a line are the same, but for those that leave or come in.
-/
namespace Quell.Document

open Text Relation

section Around

variable {α : Type} {doc doc' : Document} {p : NodeId} {A B N C : List NodeId}
variable {alg alg' : NodeId → List (NodeId × List α) → List α}

def Flat (alg : NodeId → List (NodeId × List α) → List α) (id : NodeId) (front : List α)
    (each : NodeId → List α) (back : List α) : Prop :=
  ∀ kids, alg id kids = front ++ kids.flatMap (fun k => k.2 ++ each k.1) ++ back

theorem Splice.not_leaving (splice : doc.Splice doc' p A B N C) (linked : doc.Linked)
    {c j : NodeId} (side : c ∈ A ++ C) (below : doc.Below c j) : j ∉ B := by
  intro hb
  have hold : doc.Holds p c := by
    unfold Holds
    rw [splice.split]
    rcases List.mem_append.mp side with h | h <;> simp [h]
  have same := linked.sibling_unique hold (splice.holds_of_mem hb) below ReflTransGen.refl
  subst same
  have nodup := linked.nodup p
  rw [splice.split, List.append_assoc] at nodup
  have apart := (List.perm_append_comm_assoc A B C).nodup_iff.mp nodup
  exact List.disjoint_of_nodup_append apart hb side

theorem Splice.gather_here (splice : doc.Splice doc' p A B N C) (linked : doc.Linked)
    (lt : p < doc.nodes.size)
    (alike : ∀ j, doc.Below p j → j ≠ p → j ∉ B → AlikeAt doc doc' alg alg' j)
    {front back : List α} {each each' : NodeId → List α} (flat : Flat alg p front each back)
    (flat' : Flat alg' p front each' back) (same : ∀ c ∈ A ++ C, each' c = each c) :
    doc.gather alg p = front ++ (A ++ B ++ C).flatMap (fun c => doc.gather alg c ++ each c) ++ back ∧
      doc'.gather alg' p = front ++ (A.flatMap (fun c => doc.gather alg c ++ each c) ++
        N.flatMap (fun c => doc'.gather alg' c ++ each' c) ++
        C.flatMap fun c => doc.gather alg c ++ each c) ++ back := by
  have linked' := splice.linked' linked
  have kept : ∀ c ∈ A ++ C, doc'.gather alg' c ++ each' c = doc.gather alg c ++ each c := by
    intro c hc
    have hold : doc.Holds p c := by
      unfold Holds
      rw [splice.split]
      rcases List.mem_append.mp hc with h | h <;> simp [h]
    have c_lt := linked.child_lt hold
    rw [same c hc, gather_congr linked linked' c_lt (Nat.lt_of_lt_of_le c_lt splice.grows)]
    intro j below
    refine alike j (ReflTransGen.head hold below) ?_ (splice.not_leaving linked hc below)
    rintro rfl
    exact linked.not_below_of_holds hold below
  have side : ∀ xs : List NodeId, (∀ x ∈ xs, x ∈ A ++ C) →
      xs.flatMap (fun c => doc'.gather alg' c ++ each' c) =
        xs.flatMap fun c => doc.gather alg c ++ each c := by
    intro xs inside
    rw [List.flatMap_def, List.flatMap_def]
    congr 1
    exact List.map_congr_left fun x hx => kept x (inside x hx)
  constructor
  · rw [gather_eq linked lt, flat, splice.split, List.flatMap_map]
  · rw [gather_eq linked' (Nat.lt_of_lt_of_le lt splice.grows), flat', splice.children_here,
      List.flatMap_map, List.flatMap_append, List.flatMap_append,
      side A fun x hx => List.mem_append_left _ hx, side C fun x hx => List.mem_append_right _ hx]

theorem Splice.gather_around (splice : doc.Splice doc' p A B N C) (linked : doc.Linked)
    (root_lt : root < doc.nodes.size) (reached : doc.Reaches p)
    (linear : ∀ q, doc.Reaches q → doc.Below q p → q ≠ p → Linear alg q)
    (alike : ∀ j, doc.Reaches j → j ≠ p → j ∉ B → AlikeAt doc doc' alg alg' j)
    {front back : List α} {each each' : NodeId → List α} (flat : Flat alg p front each back)
    (flat' : Flat alg' p front each' back) (same : ∀ c ∈ A ++ C, each' c = each c) :
    ∃ U V, doc.gather alg root =
        U ++ (A ++ B ++ C).flatMap (fun c => doc.gather alg c ++ each c) ++ V ∧
      doc'.gather alg' root =
        U ++ (A.flatMap (fun c => doc.gather alg c ++ each c) ++
          N.flatMap (fun c => doc'.gather alg' c ++ each' c) ++
          C.flatMap fun c => doc.gather alg c ++ each c) ++ V := by
  obtain ⟨U, V, old, new⟩ := gather_context linked (splice.linked' linked) reached root_lt
    (Nat.lt_of_lt_of_le root_lt splice.grows) linear
    (fun j hj outside => alike j hj (fun e => outside (e ▸ ReflTransGen.refl)) fun hb =>
      outside (ReflTransGen.single (splice.holds_of_mem hb))) splice.grows
  obtain ⟨here, here'⟩ := splice.gather_here linked (linked.reaches_lt root_lt reached)
    (fun j below => alike j (reached.below below)) flat flat' same
  refine ⟨U ++ front, back ++ V, ?_, ?_⟩
  · rw [old, here]
    simp only [List.append_assoc]
  · rw [new, here']
    simp only [List.append_assoc]

theorem flat_inOrder (id : NodeId) : Flat inOrder id [id] (fun _ => []) [] := by
  intro kids
  simp [inOrder]

theorem Splice.preorder_around (splice : doc.Splice doc' p A B N C) (linked : doc.Linked)
    (root_lt : root < doc.nodes.size) (reached : doc.Reaches p) :
    ∃ U V, doc.preorder = U ++ (A.flatMap (doc.gather inOrder) ++ B ++
        C.flatMap (doc.gather inOrder)) ++ V ∧
      doc'.preorder = U ++ (A.flatMap (doc.gather inOrder) ++ N.flatMap (doc'.gather inOrder) ++
        C.flatMap (doc.gather inOrder)) ++ V := by
  obtain ⟨U, V, old, new⟩ := splice.gather_around linked root_lt reached
    (fun q _ _ _ => linear_inOrder q)
    (fun j hj ne hb => ⟨splice.children_rest (linked.reaches_lt root_lt hj) ne, fun _ _ => rfl⟩)
    (flat_inOrder p) (flat_inOrder p) fun _ _ => rfl
  have leaves : B.flatMap (doc.gather inOrder) = B := by
    have alone : ∀ b ∈ B, doc.gather inOrder b = [b] := by
      intro b hb
      rw [gather_eq linked (linked.child_lt (splice.holds_of_mem hb)), splice.leaf b hb]
      rfl
    rw [List.flatMap_def, List.map_congr_left alone, ← List.flatMap_def]
    exact List.flatMap_singleton' B
  simp only [List.append_nil] at old new
  refine ⟨U, V, ?_, ?_⟩
  · rw [preorder_eq, old, List.flatMap_append, List.flatMap_append, leaves]
  · rw [preorder_eq, new]

theorem Splice.filter_around (splice : doc.Splice doc' p A B N C) (linked : doc.Linked)
    (root_lt : root < doc.nodes.size) (reached : doc.Reaches p) {f f' : NodeId → Bool}
    (same : ∀ j, doc.Reaches j → f' j = f j) :
    ∃ U V, doc.preorder.filter f = U ++ B.filter f ++ V ∧
      doc'.preorder.filter f' = U ++ (N.flatMap (doc'.gather inOrder)).filter f' ++ V ∧
      ∀ a ∈ A, f a = true → a ∈ U := by
  obtain ⟨U, V, old, new⟩ := splice.preorder_around linked root_lt reached
  have kept : ∀ xs : List NodeId, (∀ x ∈ xs, x ∈ doc.preorder) → xs.filter f' = xs.filter f :=
    fun xs inside => List.filter_congr fun x hx =>
      same x ((mem_preorder linked root_lt).mp (inside x hx))
  have front : ∀ x ∈ U ++ A.flatMap (doc.gather inOrder), x ∈ doc.preorder := by
    intro x hx
    rw [old, List.append_assoc, List.append_assoc, List.append_assoc, ← List.append_assoc]
    exact List.mem_append_left _ hx
  have behind : ∀ x ∈ C.flatMap (doc.gather inOrder) ++ V, x ∈ doc.preorder := by
    intro x hx
    rw [old, List.append_assoc, List.append_assoc]
    exact List.mem_append_right _ (List.mem_append_right _ hx)
  refine ⟨(U ++ A.flatMap (doc.gather inOrder)).filter f,
    (C.flatMap (doc.gather inOrder) ++ V).filter f, ?_, ?_, ?_⟩
  · rw [old]
    simp only [List.filter_append, List.append_assoc]
  · rw [new, ← kept _ front, ← kept _ behind]
    simp only [List.filter_append, List.append_assoc]
  · intro a ha holds
    refine List.mem_filter.mpr ⟨List.mem_append_right _ (List.mem_flatMap.mpr ⟨a, ha, ?_⟩), holds⟩
    have hold : doc.Holds p a := by
      unfold Holds
      rw [splice.split]
      simp [ha]
    exact (mem_inOrder linked (linked.child_lt hold)).mpr ReflTransGen.refl

theorem Splice.filter_eq (splice : doc.Splice doc' p A B N C) (linked : doc.Linked)
    (root_lt : root < doc.nodes.size) (reached : doc.Reaches p) {f f' : NodeId → Bool}
    (same : ∀ j, doc.Reaches j → f' j = f j) (gone : ∀ b ∈ B, f b = false)
    (new : ∀ j, doc.nodes.size ≤ j → f' j = false) :
    doc'.preorder.filter f' = doc.preorder.filter f := by
  obtain ⟨U, V, old, now, -⟩ := splice.filter_around linked root_lt reached same
  have left : B.filter f = [] :=
    List.filter_eq_nil_iff.mpr fun b hb => by rw [gone b hb]; exact Bool.false_ne_true
  have came : (N.flatMap (doc'.gather inOrder)).filter f' = [] := by
    refine List.filter_eq_nil_iff.mpr fun j hj => ?_
    obtain ⟨n, hn, below⟩ := List.mem_flatMap.mp hj
    have linked' := splice.linked' linked
    have hold : doc'.Holds p n := by
      unfold Holds
      rw [splice.children_here]
      simp [hn]
    have fresh := splice.below_new ((mem_inOrder linked' (linked'.child_lt hold)).mp below)
      (splice.fresh n hn).1
    rw [new j fresh]
    exact Bool.false_ne_true
  rw [old, now, left, came]

end Around

theorem Splice.startingOn_around {doc doc' : Document} {p : NodeId} {A B N C : List NodeId}
    (splice : doc.Splice doc' p A B N C) (linked : doc.Linked) (root_lt : root < doc.nodes.size)
    (reached : doc.Reaches p) (line : Nat) :
    ∃ U V, doc.startingOn line = U ++ B.filter (doc.starts? line) ++ V ∧
      doc'.startingOn line =
        U ++ (N.flatMap (doc'.gather inOrder)).filter (doc'.starts? line) ++ V ∧
      ∀ a ∈ A, doc.starts? line a = true → a ∈ U :=
  splice.filter_around linked root_lt reached fun _ hj =>
    have content := splice.content (linked.reaches_lt root_lt hj)
    starts?_congr content.1 content.2.1 line

theorem Splice.startingOn_eq {doc doc' : Document} {p : NodeId} {A B N C : List NodeId}
    (splice : doc.Splice doc' p A B N C) (linked : doc.Linked) (root_lt : root < doc.nodes.size)
    (reached : doc.Reaches p) {line : Nat} (gone : ∀ b ∈ B, doc.starts? line b = false)
    (new : ∀ j, doc.nodes.size ≤ j → doc'.starts? line j = false) :
    doc'.startingOn line = doc.startingOn line :=
  splice.filter_eq linked root_lt reached (fun _ hj =>
    have content := splice.content (linked.reaches_lt root_lt hj)
    starts?_congr content.1 content.2.1 line) gone new

theorem preorder_setComments {doc : Document} (linked : doc.Linked)
    (root_lt : root < doc.nodes.size) (id : NodeId) (slot : Slot) (cs : List Comment) :
    (doc.update id (·.setComments slot cs)).preorder = doc.preorder := by
  have tree := fun j => @tree_setComments doc id slot cs j
  have linked' : (doc.update id (·.setComments slot cs)).Linked :=
    linked.of_same (fun j => (tree j).2.2.1) fun j => (tree j).2.2.2
  rw [preorder_eq, preorder_eq]
  refine gather_congr linked linked' root_lt ?_ fun j _ => ⟨(tree j).2.2.1, fun _ _ => rfl⟩
  rw [size_update]
  exact root_lt

theorem startingOn_setComments {doc : Document} (linked : doc.Linked)
    (root_lt : root < doc.nodes.size) (id : NodeId) (slot : Slot) (cs : List Comment) (line : Nat) :
    (doc.update id (·.setComments slot cs)).startingOn line = doc.startingOn line := by
  rw [Document.startingOn_eq, Document.startingOn_eq, preorder_setComments linked root_lt]
  exact List.filter_congr fun j _ =>
    starts?_congr (tree_setComments j).1 (tree_setComments j).2.1 line

theorem starts?_of_spanless {doc : Document} {id : NodeId} (spanless : doc.span id = none)
    (line : Nat) : doc.starts? line id = false := by
  unfold starts?
  rw [spanless]
  simp

theorem starts?_of_blank {doc : Document} {id : NodeId} {t : Text} (value : doc.text? id = some t)
    (blank : allBlank t = true) (line : Nat) : doc.starts? line id = false := by
  unfold starts? isBlankText
  rw [value]
  simp [blank]

theorem span_of_node {doc : Document} {id : NodeId} {n : Node} (h : doc.node id = n) :
    doc.span id = n.span := by
  unfold span
  rw [h]

section Edits

variable {source : Text} {doc doc' : Document} {p : NodeId} {A C : List NodeId} {line : Nat}

theorem Noted.spanless_new {lead : Option Text} {body gap : Text}
    (noted : doc.Noted doc' p A C lead body gap) {j : NodeId} (new : doc.nodes.size ≤ j) :
    doc'.span j = none := by
  rcases Nat.lt_or_ge j doc'.nodes.size with lt | ge
  · rw [noted.size] at lt
    obtain ⟨i, rfl⟩ := Nat.exists_eq_add_of_le new
    have behind := span_of_node noted.behind
    cases lead with
    | none =>
      rcases i with _ | _ | _ | i
      · exact span_of_node noted.hole
      · exact span_of_node noted.slot
      · exact behind
      · simp only [Option.toList_none, List.length_nil] at lt
        omega
    | some u =>
      rcases i with _ | _ | _ | _ | i
      · exact span_of_node noted.hole
      · exact span_of_node noted.slot
      · exact span_of_node (noted.front u rfl)
      · exact behind
      · simp only [Option.toList_some, List.length_singleton] at lt
        omega
  · exact span_of_node (node_of_size_le doc' ge)

theorem Noted.startingOn_eq {lead : Option Text} {body gap : Text}
    (noted : doc.Noted doc' p A C lead body gap) (sound : doc.Sound source)
    (reached : doc.Reaches p) : doc'.startingOn line = doc.startingOn line :=
  noted.splice.startingOn_eq sound.linked sound.root_lt reached (fun _ hb => nomatch hb)
    fun _ new => starts?_of_spanless (noted.spanless_new new) line

theorem startingOn_addPlaceholder {block : NodeId} (sound : doc.Sound source)
    (reached : doc.Reaches block) :
    (doc.addPlaceholder block).1.startingOn line = doc.startingOn line := by
  obtain ⟨splice, size, node⟩ := addPlaceholder_spec (sound.reaches_lt reached)
  refine splice.startingOn_eq sound.linked sound.root_lt reached (fun _ hb => nomatch hb) ?_
  intro j new
  apply starts?_of_spanless
  rcases Nat.lt_or_eq_of_le new with lt | rfl
  · refine span_of_node (node_of_size_le _ ?_)
    rw [size]
    exact lt
  · exact span_of_node node

theorem Recut.startingOn_blank {id : NodeId} {parts : List Text}
    (recut : doc.Recut doc' p A id C parts) (sound : doc.Sound source) (reached : doc.Reaches p)
    (blank : allBlank parts.flatten = true) : doc'.startingOn line = doc.startingOn line := by
  refine recut.splice.startingOn_eq sound.linked sound.root_lt reached ?_ ?_
  · intro b hb
    rw [List.mem_singleton.mp hb]
    exact starts?_of_blank recut.value blank line
  · intro j new
    rcases Nat.lt_or_ge j doc'.nodes.size with lt | ge
    · rw [recut.size] at lt
      obtain ⟨i, rfl⟩ := Nat.exists_eq_add_of_le new
      have inside : i < parts.length := by omega
      have node := recut.part i parts[i] (List.getElem?_eq_getElem inside)
      refine starts?_of_blank (text?_of_node node rfl) ?_ line
      rw [allBlank_iff] at blank ⊢
      intro c hc
      exact blank c (List.mem_flatten.mpr ⟨parts[i], List.getElem_mem inside, hc⟩)
    · exact starts?_of_spanless (span_of_node (node_of_size_le doc' ge)) line

end Edits

end Quell.Document
