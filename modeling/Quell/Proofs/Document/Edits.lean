import Mathlib.Data.List.Range
import Quell.Proofs.Document.Splice
import Quell.Proofs.Text.Offsets
import Quell.Proofs.Text.Segments

/-!
The edits of the library are splices.

New nodes are first added to the table (`Grows`) and then hung into a child list, beside what stands
there or in place of a text. `Recut` is a text cut into parts, `Noted` a markup comment put among
siblings, and a placeholder is a node put into an empty block.
-/
namespace Quell.Document

open Text

/-- Nodes have been added to the table, none of them held by an old one. Those in `N` have no parent
yet. -/
structure Grows (doc doc' : Document) (N : List NodeId) : Prop where
  eol : doc'.eol = doc.eol
  grows : doc.nodes.size ≤ doc'.nodes.size
  old : ∀ j, j < doc.nodes.size → doc'.node j = doc.node j
  fresh : ∀ j ∈ N, doc.nodes.size ≤ j ∧ j < doc'.nodes.size
  nodup : N.Nodup
  above : ∀ j q, doc.nodes.size ≤ j → doc'.parent j = some q →
    j ∉ N ∧ doc.nodes.size ≤ q ∧ j ∈ doc'.children q
  below : ∀ q, doc.nodes.size ≤ q → (doc'.children q).Nodup ∧
    ∀ c ∈ doc'.children q, q < c ∧ doc'.parent c = some q

@[simp] theorem size_adopt (doc : Document) (p : NodeId) (ids : List NodeId) :
    (doc.adopt p ids).nodes.size = doc.nodes.size := by
  unfold adopt
  induction ids generalizing doc with
  | nil => rfl
  | cons id ids ih => rw [List.foldl_cons, ih, size_update]

@[simp] theorem eol_adopt (doc : Document) (p : NodeId) (ids : List NodeId) :
    (doc.adopt p ids).eol = doc.eol := by
  unfold adopt
  induction ids generalizing doc with
  | nil => rfl
  | cons id ids ih => rw [List.foldl_cons, ih, eol_update]

theorem node_adopt (doc : Document) (p : NodeId) (ids : List NodeId) (j : NodeId) :
    (doc.adopt p ids).node j =
      if j ∈ ids ∧ j < doc.nodes.size then { doc.node j with parent := some p } else doc.node j := by
  unfold adopt
  induction ids generalizing doc with
  | nil => simp
  | cons id ids ih =>
    rw [List.foldl_cons, ih, size_update, node_update]
    by_cases valid : j < doc.nodes.size
    · by_cases same : j = id
      · subst same
        simp [valid]
      · simp [valid, same]
    · by_cases same : j = id
      · subst same
        simp [valid]
      · simp [valid, same]

def hang (doc : Document) (p : NodeId) (ids : List NodeId) (f : List NodeId → List NodeId) :
    Document :=
  (doc.adopt p ids).update p fun n => { n with children := f n.children }

theorem node_hang {doc : Document} {p : NodeId} {ids : List NodeId} (valid : p < doc.nodes.size)
    (notin : p ∉ ids) (f : List NodeId → List NodeId) (j : NodeId) :
    (doc.hang p ids f).node j =
      if j = p then { doc.node p with children := f (doc.children p) }
      else if j ∈ ids ∧ j < doc.nodes.size then { doc.node j with parent := some p }
      else doc.node j := by
  unfold hang
  rw [node_update]
  by_cases same : j = p
  · subst same
    rw [if_pos ⟨rfl, by rwa [size_adopt]⟩, if_pos rfl, node_adopt, if_neg fun h => notin h.1]
    rfl
  · rw [if_neg fun h => same h.1, if_neg same, node_adopt]

theorem insertChildren_eq_hang (doc : Document) (p : NodeId) (index : Nat) (ids : List NodeId) :
    doc.insertChildren p index ids =
      doc.hang p ids fun cs => cs.take index ++ ids ++ cs.drop index := rfl

namespace Grows

variable {doc doc' : Document} {N : List NodeId} (grows : doc.Grows doc' N)

include grows

theorem node_hang {p : NodeId} (valid : p < doc.nodes.size) (f : List NodeId → List NodeId)
    (j : NodeId) :
    (doc'.hang p N f).node j =
      if j = p then { doc.node p with children := f (doc.children p) }
      else if j ∈ N then { doc'.node j with parent := some p }
      else doc'.node j := by
  have notin : p ∉ N := fun h => absurd (grows.fresh p h).1 (Nat.not_le_of_lt valid)
  rw [Document.node_hang (Nat.lt_of_lt_of_le valid grows.grows) notin]
  have here := grows.old p valid
  by_cases same : j = p
  · unfold children
    rw [if_pos same, if_pos same, here]
  · rw [if_neg same, if_neg same]
    by_cases mem : j ∈ N
    · rw [if_pos ⟨mem, (grows.fresh j mem).2⟩, if_pos mem]
    · rw [if_neg fun h => mem h.1, if_neg mem]

theorem node_new {p : NodeId} (valid : p < doc.nodes.size) (f : List NodeId → List NodeId)
    {j : NodeId} (new : doc.nodes.size ≤ j) :
    (doc'.hang p N f).node j =
      if j ∈ N then { doc'.node j with parent := some p } else doc'.node j := by
  have ne : j ≠ p := fun e => absurd valid (Nat.not_lt_of_le (e ▸ new))
  rw [grows.node_hang valid, if_neg ne]

theorem children_new {p : NodeId} (valid : p < doc.nodes.size) (f : List NodeId → List NodeId)
    {j : NodeId} (new : doc.nodes.size ≤ j) :
    (doc'.hang p N f).children j = doc'.children j := by
  unfold children
  rw [grows.node_new valid f new]
  split <;> rfl

theorem parent_new {p : NodeId} (valid : p < doc.nodes.size) (f : List NodeId → List NodeId)
    {j : NodeId} (new : doc.nodes.size ≤ j) :
    (doc'.hang p N f).parent j = if j ∈ N then some p else doc'.parent j := by
  unfold parent
  rw [grows.node_new valid f new]
  split <;> rfl

/-- What is new is linked as a splice wants it. -/
theorem links {p : NodeId} (valid : p < doc.nodes.size) (f : List NodeId → List NodeId) :
    (∀ j ∈ N, doc.nodes.size ≤ j ∧ (doc'.hang p N f).parent j = some p) ∧
    (∀ j q, doc.nodes.size ≤ j → (doc'.hang p N f).parent j = some q →
      q = p ∧ j ∈ N ∨ doc.nodes.size ≤ q ∧ j ∈ (doc'.hang p N f).children q) ∧
    (∀ q, doc.nodes.size ≤ q → ((doc'.hang p N f).children q).Nodup ∧
      ∀ c ∈ (doc'.hang p N f).children q, q < c ∧ (doc'.hang p N f).parent c = some q) := by
  refine ⟨?_, ?_, ?_⟩
  · intro j mem
    have new := (grows.fresh j mem).1
    exact ⟨new, by rw [grows.parent_new valid f new, if_pos mem]⟩
  · intro j q new link
    rw [grows.parent_new valid f new] at link
    split at link
    · rename_i mem
      cases link
      exact .inl ⟨rfl, mem⟩
    · obtain ⟨-, newq, held⟩ := grows.above j q new link
      exact .inr ⟨newq, by rwa [grows.children_new valid f newq]⟩
  · intro q new
    obtain ⟨nodup, held⟩ := grows.below q new
    rw [grows.children_new valid f new]
    refine ⟨nodup, fun c hc => ?_⟩
    obtain ⟨newer, link⟩ := held c hc
    have newc : doc.nodes.size ≤ c := Nat.le_of_lt (Nat.lt_of_le_of_lt new newer)
    refine ⟨newer, ?_⟩
    rw [grows.parent_new valid f newc, if_neg (grows.above c q newc link).1]
    exact link

theorem splice_insert {p : NodeId} (valid : p < doc.nodes.size) {A C : List NodeId}
    (split : doc.children p = A ++ C) :
    doc.Splice (doc'.insertChildren p A.length N) p A [] N C := by
  rw [insertChildren_eq_hang]
  obtain ⟨fresh, above, below⟩ :=
    grows.links valid fun cs => cs.take A.length ++ N ++ cs.drop A.length
  refine ⟨?_, ?_, by simpa using split, ?_, by simp, by simp, ?_, fresh, grows.nodup, above, below⟩
  · unfold hang
    rw [eol_update, eol_adopt, grows.eol]
  · unfold hang
    rw [size_update, size_adopt]
    exact grows.grows
  · rw [grows.node_hang valid, if_pos rfl, split, List.take_left, List.drop_left]
  · intro j lt ne _
    have old : j ∉ N := fun h => absurd (grows.fresh j h).1 (Nat.not_le_of_lt lt)
    rw [grows.node_hang valid, if_neg ne, if_neg old, grows.old j lt]

theorem splice_replace {p b : NodeId} (valid : p < doc.nodes.size) (lt : b < doc.nodes.size)
    (ne : b ≠ p) (leaf : doc.children b = []) {A C : List NodeId}
    (split : doc.children p = A ++ [b] ++ C) :
    doc.Splice ((doc'.hang p N fun cs => cs.take A.length ++ N ++ cs.drop (A.length + 1)).update b
      fun n => { n with parent := none }) p A [b] N C := by
  generalize hf : (fun cs : List NodeId => cs.take A.length ++ N ++ cs.drop (A.length + 1)) = f
  have size_hang : (doc'.hang p N f).nodes.size = doc'.nodes.size := by
    unfold hang
    rw [size_update, size_adopt]
  have old : ∀ j, j < doc.nodes.size → j ∉ N := fun j lt h =>
    absurd (grows.fresh j h).1 (Nat.not_le_of_lt lt)
  have keep : ∀ j, j ≠ b → ((doc'.hang p N f).update b fun n => { n with parent := none }).node j =
      (doc'.hang p N f).node j := fun j ne => node_update_ne _ ne _
  have new_ne : ∀ j, doc.nodes.size ≤ j → j ≠ b := fun j new e =>
    absurd lt (Nat.not_lt_of_le (e ▸ new))
  have parents : ∀ j, doc.nodes.size ≤ j →
      ((doc'.hang p N f).update b fun n => { n with parent := none }).parent j =
        (doc'.hang p N f).parent j := fun j new => by
    unfold parent
    rw [keep j (new_ne j new)]
  have kids : ∀ j, doc.nodes.size ≤ j →
      ((doc'.hang p N f).update b fun n => { n with parent := none }).children j =
        (doc'.hang p N f).children j := fun j new => by
    unfold children
    rw [keep j (new_ne j new)]
  obtain ⟨fresh, above, below⟩ := grows.links valid f
  refine ⟨?_, ?_, split, ?_, ?_, ?_, ?_, ?_, grows.nodup, ?_, ?_⟩
  · unfold hang
    rw [eol_update, eol_update, eol_adopt, grows.eol]
  · rw [size_update, size_hang]
    exact grows.grows
  · have cut : f (A ++ [b] ++ C) = A ++ N ++ C := by
      have len : A.length + 1 = (A ++ [b]).length := by simp
      rw [← hf]
      dsimp only
      rw [len, List.drop_left, List.append_assoc A [b] C, List.take_left]
    rw [keep p ne.symm, grows.node_hang valid, if_pos rfl, split, cut]
  · intro b' hb
    rw [List.mem_singleton.mp hb, node_update_self _ (by
      rw [size_hang]
      exact Nat.lt_of_lt_of_le lt grows.grows), grows.node_hang valid, if_neg ne,
      if_neg (old b lt), grows.old b lt]
  · intro b' hb
    rw [List.mem_singleton.mp hb]
    exact leaf
  · intro j ltj nej hj
    rw [keep j (by simpa using hj), grows.node_hang valid, if_neg nej, if_neg (old j ltj),
      grows.old j ltj]
  · intro j mem
    rw [parents j (fresh j mem).1]
    exact fresh j mem
  · intro j q new link
    rw [parents j new] at link
    rcases above j q new link with h | ⟨newq, held⟩
    · exact .inl h
    · exact .inr ⟨newq, by rwa [kids q newq]⟩
  · intro q new
    rw [kids q new]
    refine ⟨(below q new).1, fun c hc => ?_⟩
    obtain ⟨newer, link⟩ := (below q new).2 c hc
    exact ⟨newer, by rwa [parents c (Nat.le_of_lt (Nat.lt_of_le_of_lt new newer))]⟩

end Grows

/-- A child that splits the list which holds it. -/
theorem Linked.held {doc : Document} (linked : doc.Linked) {p id : NodeId} {A C : List NodeId}
    (split : doc.children p = A ++ [id] ++ C) :
    doc.Holds p id ∧ id ≠ p ∧ id < doc.nodes.size ∧ p < doc.nodes.size := by
  have hold : doc.Holds p id := by
    unfold Holds
    simp [split]
  exact ⟨hold, fun e => linked.not_below_of_holds hold (e ▸ Relation.ReflTransGen.refl),
    linked.child_lt hold, hold.parent_lt⟩

theorem indexInParent_eq {doc : Document} (linked : doc.Linked) {p id : NodeId}
    {A C : List NodeId} (split : doc.children p = A ++ [id] ++ C) :
    doc.parent id = some p ∧ doc.indexInParent id = some A.length := by
  have mem : id ∈ doc.children p := by simp [split]
  have link := (linked.agree p id).mp mem
  have nodup := linked.nodup p
  rw [split, List.append_assoc] at nodup
  have notin : id ∉ A := fun h => List.disjoint_of_nodup_append nodup h (by simp)
  refine ⟨link, ?_⟩
  unfold indexInParent
  rw [link, Option.bind_some, split, List.append_assoc, List.findIdx?_append]
  have absent : A.findIdx? (· == id) = none := by
    rw [List.findIdx?_eq_none_iff]
    intro x hx
    have : x ≠ id := fun e => notin (e ▸ hx)
    simpa using this
  rw [absent]
  simp [List.findIdx?_cons]

/-- Texts one behind the other, added to the table with the spans that they have in a text with
span `s`. -/
def withTexts (doc : Document) (s : Option Span) : Text → List Text → Document
  | _, [] => doc
  | before, part :: parts =>
    withTexts (doc.alloc (.text part) (s.map (fragmentSpan · before part))).1 s (before ++ part)
      parts

theorem size_withTexts (doc : Document) (s : Option Span) (before : Text) (parts : List Text) :
    (doc.withTexts s before parts).nodes.size = doc.nodes.size + parts.length := by
  induction parts generalizing doc before with
  | nil => rfl
  | cons part parts ih =>
    rw [withTexts, ih, size_alloc, List.length_cons]
    omega

theorem eol_withTexts (doc : Document) (s : Option Span) (before : Text) (parts : List Text) :
    (doc.withTexts s before parts).eol = doc.eol := by
  induction parts generalizing doc before with
  | nil => rfl
  | cons part parts ih => rw [withTexts, ih, eol_alloc]

theorem node_withTexts_old {doc : Document} (s : Option Span) (before : Text) (parts : List Text)
    {j : NodeId} (lt : j < doc.nodes.size) : (doc.withTexts s before parts).node j = doc.node j := by
  induction parts generalizing doc before with
  | nil => rfl
  | cons part parts ih =>
    rw [withTexts, ih _ (by rw [size_alloc]; exact Nat.lt_succ_of_lt lt), node_alloc,
      if_neg (Nat.ne_of_lt lt)]

theorem node_withTexts_new (doc : Document) (s : Option Span) (before : Text) {parts : List Text}
    {i : Nat} {t : Text} (h : parts[i]? = some t) :
    (doc.withTexts s before parts).node (doc.nodes.size + i) =
      { kind := .text t, span := s.map (fragmentSpan · (before ++ (parts.take i).flatten) t) } := by
  induction parts generalizing doc before i with
  | nil => cases h
  | cons part parts ih =>
    cases i with
    | zero =>
      have : part = t := by simpa using h
      subst this
      rw [withTexts, Nat.add_zero, node_withTexts_old _ _ _ (by
        rw [size_alloc]
        exact Nat.lt_succ_self _), node_alloc, if_pos rfl]
      simp
    | succ i =>
      have later := ih (doc.alloc (.text part) (s.map (fragmentSpan · before part))).1
        (before ++ part) (i := i) (by simpa using h)
      rw [size_alloc] at later
      rw [withTexts, show doc.nodes.size + (i + 1) = doc.nodes.size + 1 + i by omega, later]
      simp

theorem bare_withTexts (doc : Document) (s : Option Span) (before : Text) (parts : List Text)
    {j : NodeId} (new : doc.nodes.size ≤ j) :
    (doc.withTexts s before parts).children j = [] ∧
      (doc.withTexts s before parts).parent j = none := by
  unfold children parent
  rcases Nat.lt_or_ge j (doc.nodes.size + parts.length) with lt | ge
  · obtain ⟨i, rfl⟩ := Nat.exists_eq_add_of_le new
    have bound : i < parts.length := by omega
    rw [node_withTexts_new doc s before (List.getElem?_eq_getElem bound)]
    exact ⟨rfl, rfl⟩
  · rw [node_of_size_le _ (by rw [size_withTexts]; exact ge)]
    exact ⟨rfl, rfl⟩

theorem grows_withTexts (doc : Document) (s : Option Span) (before : Text) (parts : List Text) :
    doc.Grows (doc.withTexts s before parts) (List.range' doc.nodes.size parts.length) := by
  refine ⟨eol_withTexts .., ?_, fun j lt => node_withTexts_old s before parts lt, ?_,
    List.nodup_range', ?_, ?_⟩
  · rw [size_withTexts]
    omega
  · intro j mem
    rw [size_withTexts]
    have := List.mem_range'_1.mp mem
    exact ⟨this.1, this.2⟩
  · intro j q new link
    rw [(bare_withTexts doc s before parts new).2] at link
    cases link
  · intro q new
    rw [(bare_withTexts doc s before parts new).1]
    exact ⟨List.nodup_nil, fun c hc => nomatch hc⟩

theorem text?_of_node {doc : Document} {id : NodeId} {t : Text} {n : Node}
    (h : doc.node id = n) (kind : n.kind = .text t) : doc.text? id = some t := by
  unfold text? Document.kind
  rw [h, kind]
  rfl

theorem lt_of_text? {doc : Document} {id : NodeId} {t : Text} (value : doc.text? id = some t) :
    id < doc.nodes.size := by
  by_contra outside
  unfold text? Document.kind at value
  rw [node_of_size_le doc (Nat.le_of_not_lt outside)] at value
  cases value

theorem textFragment_eq {doc : Document} {id : NodeId} {a b c : Text}
    (value : doc.text? id = some (a ++ b ++ c)) :
    doc.textFragment id a.bytes b.bytes =
      .ok (doc.alloc (.text b) ((doc.span id).map (fragmentSpan · a b))) := by
  have front : slice? 0 a.bytes (a ++ b ++ c) = some a := by
    have := slice?_append [] a (b ++ c)
    simpa using this
  unfold textFragment
  rw [value, Option.getD_some]
  dsimp only
  rw [front, slice?_append]

theorem textFragments_eq {doc : Document} {id : NodeId} (valid : id < doc.nodes.size)
    {before rest : Text} {parts : List Text}
    (value : doc.text? id = some (before ++ parts.flatten ++ rest)) :
    doc.textFragments id (ranged before.bytes parts) =
      .ok (doc.withTexts (doc.span id) before parts,
        List.range' doc.nodes.size parts.length) := by
  induction parts generalizing doc before with
  | nil => rfl
  | cons part parts ih =>
    have here : doc.text? id = some (before ++ part ++ (parts.flatten ++ rest)) := by
      rw [value]
      simp
    let next := (doc.alloc (.text part) ((doc.span id).map (fragmentSpan · before part))).1
    have same : next.node id = doc.node id := by
      rw [node_alloc, if_neg (Nat.ne_of_lt valid)]
    have value' : next.text? id = some ((before ++ part) ++ parts.flatten ++ rest) := by
      unfold text? Document.kind
      rw [same]
      unfold text? Document.kind at here
      rw [here]
      simp
    have lt : id < next.nodes.size := by
      rw [size_alloc]
      exact Nat.lt_succ_of_lt valid
    have later := ih lt value'
    have span' : next.span id = doc.span id := by
      unfold span
      rw [same]
    rw [span', bytes_append, size_alloc] at later
    rw [ranged, textFragments, show before.bytes + part.bytes - before.bytes = part.bytes by omega,
      textFragment_eq here]
    show next.textFragments id (ranged (before.bytes + part.bytes) parts) >>=
      (fun r => .ok (r.1, doc.nodes.size :: r.2)) = _
    rw [later]
    rfl

theorem joined_withTexts {doc : Document} {id : NodeId} {parts : List Text}
    (value : doc.text? id = some parts.flatten) :
    (List.range' doc.nodes.size parts.length).flatMap
        (fun f => ((doc.withTexts (doc.span id) [] parts).text? f).getD []) =
      ((doc.withTexts (doc.span id) [] parts).text? id).getD [] := by
  have text_id : (doc.withTexts (doc.span id) [] parts).text? id = some parts.flatten := by
    have lt := lt_of_text? value
    unfold text? Document.kind at value ⊢
    rw [node_withTexts_old _ _ _ lt, value]
  have each : (List.range' doc.nodes.size parts.length).map
      (fun f => ((doc.withTexts (doc.span id) [] parts).text? f).getD []) = parts := by
    apply List.ext_getElem?
    intro i
    rw [List.getElem?_map]
    rcases Nat.lt_or_ge i parts.length with h | h
    · have found := List.getElem?_eq_getElem h
      rw [List.getElem?_range' h, found, Option.map_some, Nat.one_mul,
        text?_of_node (node_withTexts_new doc _ [] found) rfl]
      rfl
    · rw [List.getElem?_eq_none h, List.getElem?_eq_none (by simpa using h)]
      rfl
  rw [text_id, Option.getD_some, List.flatMap_def, each]

structure Recut (doc doc' : Document) (p : NodeId) (A : List NodeId) (id : NodeId)
    (C : List NodeId) (parts : List Text) : Prop where
  value : doc.text? id = some parts.flatten
  splice : doc.Splice doc' p A [id] (List.range' doc.nodes.size parts.length) C
  size : doc'.nodes.size = doc.nodes.size + parts.length
  part : ∀ (i : Nat) (t : Text), parts[i]? = some t → doc'.node (doc.nodes.size + i) =
    { kind := .text t, span := (doc.span id).map (fragmentSpan · (parts.take i).flatten t),
      parent := some p }

def recutAt (doc : Document) (p : NodeId) (index : Nat) (id : NodeId) (parts : List Text) :
    Document :=
  ((doc.withTexts (doc.span id) [] parts).hang p (List.range' doc.nodes.size parts.length)
    fun cs => cs.take index ++ List.range' doc.nodes.size parts.length ++ cs.drop (index + 1)).update
      id fun n => { n with parent := none }

theorem size_recutAt (doc : Document) (p : NodeId) (index : Nat) (id : NodeId)
    (parts : List Text) :
    (doc.recutAt p index id parts).nodes.size = doc.nodes.size + parts.length := by
  unfold recutAt hang
  rw [size_update, size_update, size_adopt, size_withTexts]

theorem replaceText_eq {doc : Document} (linked : doc.Linked) {p id : NodeId} {A C : List NodeId}
    (split : doc.children p = A ++ [id] ++ C) {parts : List Text}
    (value : doc.text? id = some parts.flatten) :
    (doc.withTexts (doc.span id) [] parts).replaceText id
        (List.range' doc.nodes.size parts.length) = .ok (doc.recutAt p A.length id parts) := by
  obtain ⟨-, -, lt, valid⟩ := linked.held split
  have grows := doc.grows_withTexts (doc.span id) [] parts
  obtain ⟨link, index⟩ := indexInParent_eq linked split
  have joined := joined_withTexts value
  unfold recutAt
  generalize doc.withTexts (doc.span id) [] parts = g at grows joined ⊢
  have link' : g.parent id = some p := by
    unfold parent at link ⊢
    rw [grows.old id lt, link]
  have index' : g.indexInParent id = some A.length := by
    unfold indexInParent at index ⊢
    rw [link', Option.bind_some]
    rw [link, Option.bind_some] at index
    unfold children at index ⊢
    rw [grows.old p valid, index]
  unfold replaceText
  rw [link', index']
  dsimp only
  rw [if_pos joined]
  rfl

theorem recutAt_part {doc : Document} {p id : NodeId} (valid : p < doc.nodes.size)
    (lt : id < doc.nodes.size) (index : Nat) {parts : List Text} {i : Nat} {t : Text}
    (h : parts[i]? = some t) :
    (doc.recutAt p index id parts).node (doc.nodes.size + i) =
      { kind := .text t, span := (doc.span id).map (fragmentSpan · (parts.take i).flatten t),
        parent := some p } := by
  have bound : i < parts.length := (List.getElem?_eq_some_iff.mp h).1
  have new : doc.nodes.size ≤ doc.nodes.size + i := Nat.le_add_right _ _
  have other : doc.nodes.size + i ≠ id := fun e => absurd lt (Nat.not_lt_of_le (e ▸ new))
  unfold recutAt
  rw [node_update_ne _ other, (doc.grows_withTexts (doc.span id) [] parts).node_new valid _ new,
    if_pos (List.mem_range'_1.mpr ⟨new, by omega⟩), node_withTexts_new doc _ [] h, List.nil_append]

theorem replaceText_recut {doc : Document} (linked : doc.Linked) {p id : NodeId}
    {A C : List NodeId} (split : doc.children p = A ++ [id] ++ C) (leaf : doc.children id = [])
    {parts : List Text} (value : doc.text? id = some parts.flatten) :
    ∃ doc', (doc.withTexts (doc.span id) [] parts).replaceText id
        (List.range' doc.nodes.size parts.length) = .ok doc' ∧ doc.Recut doc' p A id C parts := by
  obtain ⟨-, ne, lt, valid⟩ := linked.held split
  have grows := doc.grows_withTexts (doc.span id) [] parts
  exact ⟨_, replaceText_eq linked split value, value,
    grows.splice_replace valid lt ne leaf split, size_recutAt .., fun i t h =>
      recutAt_part valid lt A.length h⟩

theorem flatten_around {parts : List Text} {i : Nat} {t : Text} (h : parts[i]? = some t) :
    parts.flatten = (parts.take i).flatten ++ t ++ (parts.drop (i + 1)).flatten := by
  obtain ⟨bound, rfl⟩ := List.getElem?_eq_some_iff.mp h
  conv_lhs => rw [← List.take_append_drop i parts, List.drop_eq_getElem_cons bound]
  rw [List.flatten_append, List.flatten_cons, List.append_assoc]

section Recut

variable {doc doc' : Document} {p id : NodeId} {A C : List NodeId} {parts : List Text}

theorem Recut.mem_part (recut : doc.Recut doc' p A id C parts) {j : NodeId}
    (h : j ∈ List.range' doc.nodes.size parts.length) :
    ∃ i t, j = doc.nodes.size + i ∧ parts[i]? = some t ∧ doc'.node j =
      { kind := .text t, span := (doc.span id).map (fragmentSpan · (parts.take i).flatten t),
        parent := some p } := by
  obtain ⟨low, high⟩ := List.mem_range'_1.mp h
  obtain ⟨i, rfl⟩ := Nat.exists_eq_add_of_le low
  have bound : i < parts.length := by omega
  have found := List.getElem?_eq_getElem bound
  exact ⟨i, parts[i], rfl, found, recut.part i _ found⟩

/-- The parts of a text stand one behind the other. -/
theorem Recut.sorted (recut : doc.Recut doc' p A id C parts) :
    (List.range' doc.nodes.size parts.length).Pairwise fun a b =>
      ∀ r u, doc'.span a = some r → doc'.span b = some u → r.hi ≤ u.lo := by
  refine List.Pairwise.imp_of_mem ?_ List.pairwise_lt_range'
  intro a b ha hb lt r u hr hu
  obtain ⟨i, t, rfl, hi, node⟩ := recut.mem_part ha
  obtain ⟨k, v, rfl, hk, node'⟩ := recut.mem_part hb
  have ik : i < k := Nat.lt_of_add_lt_add_left lt
  unfold Document.span at hr hu
  rw [node] at hr
  rw [node'] at hu
  obtain ⟨s, hs, rfl⟩ := Option.map_eq_some_iff.mp hr
  obtain ⟨s', hs', rfl⟩ := Option.map_eq_some_iff.mp hu
  cases hs.symm.trans hs'
  -- The text in front of the later part holds the earlier part.
  have longer : (parts.take k).flatten =
      (parts.take i).flatten ++ t ++ ((parts.take k).drop (i + 1)).flatten := by
    have found : (parts.take k)[i]? = some t := by rw [List.getElem?_take_of_lt ik, hi]
    have := flatten_around found
    rwa [List.take_take, Nat.min_eq_left (Nat.le_of_lt ik)] at this
  show s.lo + bytes (parts.take i).flatten + bytes t ≤ s.lo + bytes (parts.take k).flatten
  rw [longer]
  simp only [bytes_append]
  omega

end Recut

theorem segmentText_eq {doc : Document} {id : NodeId} {t : Text} (value : doc.text? id = some t)
    (loose : ¬ Settled t) :
    doc.segmentText id = (doc.withTexts (doc.span id) [] t.segments).replaceText id
      (List.range' doc.nodes.size t.segments.length) := by
  have joined := segments_flatten t
  have whole : ¬ (t.startsWithBreak && t.allBlank) = true := fun h => loose (.inl h)
  have many : ∀ r, t.segmentRanges ≠ [r] := by
    intro r h
    refine loose (.inr ?_)
    unfold segmentRanges at h
    cases hs : t.segments with
    | nil =>
      rw [hs] at h
      cases h
    | cons x xs =>
      rw [hs, ranged] at h
      have : xs = [] := by
        cases xs with
        | nil => rfl
        | cons y ys => simp [ranged] at h
      rw [hs, this] at joined
      rw [this, ← joined]
      simp
  have alone : doc.text? id = some ([] ++ t.segments.flatten ++ []) := by
    rw [joined, value, List.nil_append, List.append_nil]
  have fragments := textFragments_eq (lt_of_text? value) alone
  rw [bytes_nil] at fragments
  unfold segmentText
  rw [value]
  dsimp only
  rw [if_neg whole]
  split
  · rename_i r h
    exact absurd h (many r)
  · unfold segmentRanges
    rw [fragments]
    rfl

theorem segmentText_recut {doc : Document} (linked : doc.Linked) {p id : NodeId}
    {A C : List NodeId} (split : doc.children p = A ++ [id] ++ C) (leaf : doc.children id = [])
    {t : Text} (value : doc.text? id = some t) (loose : ¬ Settled t) :
    ∃ doc', doc.segmentText id = .ok doc' ∧ doc.Recut doc' p A id C t.segments := by
  have parts : doc.text? id = some t.segments.flatten := by rw [segments_flatten, value]
  obtain ⟨doc', replaced, recut⟩ := replaceText_recut linked split leaf parts
  exact ⟨doc', (segmentText_eq value loose).trans replaced, recut⟩

theorem segmentText_settled {doc : Document} {id : NodeId}
    (settled : ∀ t, doc.text? id = some t → Settled t) : doc.segmentText id = .ok doc := by
  unfold segmentText
  cases value : doc.text? id with
  | none => rfl
  | some t =>
    dsimp only
    rcases settled t value with h | h
    · rw [if_pos h]
    · split
      · rfl
      · unfold segmentRanges
        rw [h]
        rfl

theorem splitText_eq {doc : Document} {id : NodeId} {a b : Text}
    (value : doc.text? id = some (a ++ b)) :
    doc.splitText id a.bytes =
      ((doc.withTexts (doc.span id) [] [a, b]).replaceText id
        (List.range' doc.nodes.size 2)).map
          fun doc' => (doc', some (doc.nodes.size, doc.nodes.size + 1)) := by
  have lt := lt_of_text? value
  have boundary : (a ++ b).isBoundary a.bytes = true := isBoundary_iff.mpr ⟨a, b, rfl, rfl⟩
  have len : (a ++ b).bytes - a.bytes = b.bytes := by
    rw [bytes_append]
    omega
  have first : doc.text? id = some ([] ++ a ++ b) := by simpa using value
  have head := textFragment_eq first
  let next := (doc.alloc (.text a) ((doc.span id).map (fragmentSpan · [] a))).1
  have same : next.node id = doc.node id := by
    rw [node_alloc, if_neg (Nat.ne_of_lt lt)]
  have value' : next.text? id = some (a ++ b ++ []) := by
    unfold text? Document.kind at value ⊢
    rw [same, value, List.append_nil]
  have tail := textFragment_eq value'
  have span' : next.span id = doc.span id := by
    unfold span
    rw [same]
  rw [span'] at tail
  unfold splitText
  rw [value]
  dsimp only
  rw [if_pos boundary, len]
  rw [bytes_nil] at head
  rw [head]
  show next.textFragment id a.bytes b.bytes >>= (fun r => do
    let doc₁ ← r.1.replaceText id [doc.nodes.size, r.2]
    return (doc₁, some (doc.nodes.size, r.2))) = _
  rw [tail]
  have names : List.range' doc.nodes.size 2 = [doc.nodes.size, next.nodes.size] := by
    rw [size_alloc]
    rfl
  show (do
    let doc₁ ← (next.alloc (.text b) ((doc.span id).map (fragmentSpan · a b))).1.replaceText id
      [doc.nodes.size, next.nodes.size]
    return (doc₁, some (doc.nodes.size, next.nodes.size))) =
    ((next.alloc (.text b) ((doc.span id).map (fragmentSpan · a b))).1.replaceText id _).map _
  rw [names, size_alloc]
  cases (next.alloc (.text b) ((doc.span id).map (fragmentSpan · a b))).1.replaceText id
      [doc.nodes.size, doc.nodes.size + 1] with
  | ok doc' => rfl
  | error e => rfl

theorem splitText_recut {doc : Document} (linked : doc.Linked) {p id : NodeId}
    {A C : List NodeId} (split : doc.children p = A ++ [id] ++ C) (leaf : doc.children id = [])
    {a b : Text} (value : doc.text? id = some (a ++ b)) :
    ∃ doc', doc.splitText id a.bytes =
        .ok (doc', some (doc.nodes.size, doc.nodes.size + 1)) ∧
      doc.Recut doc' p A id C [a, b] := by
  have parts : doc.text? id = some [a, b].flatten := by simpa using value
  obtain ⟨doc', replaced, recut⟩ := replaceText_recut linked split leaf parts
  refine ⟨doc', ?_, recut⟩
  rw [splitText_eq value]
  exact congrArg (Except.map _) replaced

def noteOf (body : Text) : Comment := { kind := .block, text := body, placement := .inner }

theorem newMarkupComment_node (doc : Document) (body : Text) (j : NodeId) :
    (doc.newMarkupComment body).1.node j =
      if j = doc.nodes.size then { kind := .hole, span := none, children := [doc.nodes.size + 1] }
      else if j = doc.nodes.size + 1 then
        { kind := .emptyHole, span := none, parent := some doc.nodes.size, inner := [noteOf body] }
      else doc.node j := by
  unfold newMarkupComment appendComment appendChild
  dsimp only
  simp only [node_update, node_alloc, size_update, size_alloc, alloc_snd]
  rcases Nat.lt_trichotomy j doc.nodes.size with h | h | h
  · have h₁ : j ≠ doc.nodes.size := Nat.ne_of_lt h
    have h₂ : j ≠ doc.nodes.size + 1 := Nat.ne_of_lt (Nat.lt_succ_of_lt h)
    simp [h₁, h₂]
  · have bound : doc.nodes.size < doc.nodes.size + 1 + 1 := by omega
    subst h
    simp [bound]
  · have h₁ : j ≠ doc.nodes.size := Nat.ne_of_gt h
    by_cases h₂ : j = doc.nodes.size + 1
    · subst h₂
      simp only [Nat.succ_ne_self, false_and, if_false, true_and, if_true, Node.setComments,
        Node.comments, noteOf, Nat.lt_succ_self]
      rfl
    · simp [h₁, h₂]

theorem newMarkupComment_size (doc : Document) (body : Text) :
    (doc.newMarkupComment body).1.nodes.size = doc.nodes.size + 2 := by
  unfold newMarkupComment appendComment appendChild
  simp

theorem newMarkupComment_eol (doc : Document) (body : Text) :
    (doc.newMarkupComment body).1.eol = doc.eol := rfl

/-- What a new markup comment puts into a child list: its hole behind blanks, if there are any, and
in front of a line break. -/
def noteIds (n : NodeId) : Option Text → List NodeId
  | none => [n, n + 2]
  | some _ => [n + 2, n, n + 3]

structure Noted (doc doc' : Document) (p : NodeId) (A C : List NodeId) (lead : Option Text)
    (body gap : Text) : Prop where
  splice : doc.Splice doc' p A [] (noteIds doc.nodes.size lead) C
  size : doc'.nodes.size = doc.nodes.size + 3 + lead.toList.length
  hole : doc'.node doc.nodes.size =
    { kind := .hole, span := none, parent := some p, children := [doc.nodes.size + 1] }
  slot : doc'.node (doc.nodes.size + 1) =
    { kind := .emptyHole, span := none, parent := some doc.nodes.size, inner := [noteOf body] }
  front : ∀ u ∈ lead, doc'.node (doc.nodes.size + 2) =
    { kind := .text u, span := none, parent := some p }
  behind : doc'.node (doc.nodes.size + 2 + lead.toList.length) =
    { kind := .text gap, span := none, parent := some p }

def withNote (doc : Document) (body : Text) (texts : List Text) : Document :=
  (doc.newMarkupComment body).1.withTexts none [] texts

theorem node_withNote (doc : Document) (body : Text) (texts : List Text) :
    (∀ j, j < doc.nodes.size → (doc.withNote body texts).node j = doc.node j) ∧
    (doc.withNote body texts).node doc.nodes.size =
      { kind := .hole, span := none, children := [doc.nodes.size + 1] } ∧
    (doc.withNote body texts).node (doc.nodes.size + 1) =
      { kind := .emptyHole, span := none, parent := some doc.nodes.size,
        inner := [noteOf body] } ∧
    ∀ (i : Nat) (t : Text), texts[i]? = some t →
      (doc.withNote body texts).node (doc.nodes.size + 2 + i) =
        { kind := .text t, span := none } := by
  have size := newMarkupComment_size doc body
  have old : ∀ j, j < doc.nodes.size + 2 → (doc.withNote body texts).node j =
      (doc.newMarkupComment body).1.node j := fun j lt =>
    node_withTexts_old none [] texts (by rw [size]; exact lt)
  refine ⟨?_, ?_, ?_, ?_⟩
  · intro j lt
    rw [old j (Nat.lt_add_right 2 lt), newMarkupComment_node, if_neg (Nat.ne_of_lt lt),
      if_neg (Nat.ne_of_lt (Nat.lt_succ_of_lt lt))]
  · rw [old _ (by omega), newMarkupComment_node, if_pos rfl]
  · rw [old _ (by omega), newMarkupComment_node, if_neg (Nat.succ_ne_self _), if_pos rfl]
  · intro i t h
    have := node_withTexts_new (doc.newMarkupComment body).1 none [] h
    rw [size] at this
    exact this

theorem size_withNote (doc : Document) (body : Text) (texts : List Text) :
    (doc.withNote body texts).nodes.size = doc.nodes.size + 2 + texts.length := by
  unfold withNote
  rw [size_withTexts, newMarkupComment_size]

theorem grows_withNote (doc : Document) (body : Text) (texts : List Text) {N : List NodeId}
    (nodup : N.Nodup) (fresh : ∀ j ∈ N, doc.nodes.size ≤ j ∧ j ≠ doc.nodes.size + 1 ∧
      j < doc.nodes.size + 2 + texts.length) :
    doc.Grows (doc.withNote body texts) N := by
  obtain ⟨old, hole, slot, rest⟩ := node_withNote doc body texts
  have later : ∀ j, doc.nodes.size + 2 ≤ j → (doc.withNote body texts).parent j = none ∧
      (doc.withNote body texts).children j = [] := by
    intro j new
    unfold parent children
    obtain ⟨i, rfl⟩ := Nat.exists_eq_add_of_le new
    cases found : texts[i]? with
    | some t =>
      rw [rest i t found]
      exact ⟨rfl, rfl⟩
    | none =>
      have bound := List.getElem?_eq_none_iff.mp found
      rw [node_of_size_le _ (by rw [size_withNote]; omega)]
      exact ⟨rfl, rfl⟩
  have cases_new : ∀ j, doc.nodes.size ≤ j →
      j = doc.nodes.size ∨ j = doc.nodes.size + 1 ∨ doc.nodes.size + 2 ≤ j := by
    intro j new
    omega
  refine ⟨?_, ?_, old, ?_, nodup, ?_, ?_⟩
  · unfold withNote
    rw [eol_withTexts, newMarkupComment_eol]
  · rw [size_withNote]
    omega
  · intro j mem
    rw [size_withNote]
    exact ⟨(fresh j mem).1, (fresh j mem).2.2⟩
  · intro j q new link
    rcases cases_new j new with rfl | rfl | h
    · unfold parent at link
      rw [hole] at link
      cases link
    · unfold parent at link
      rw [slot] at link
      cases link
      refine ⟨fun mem => (fresh _ mem).2.1 rfl, Nat.le_refl _, ?_⟩
      unfold children
      rw [hole]
      simp
    · rw [(later j h).1] at link
      cases link
  · intro q new
    rcases cases_new q new with rfl | rfl | h
    · unfold children parent
      rw [hole]
      refine ⟨List.nodup_singleton _, fun c hc => ?_⟩
      rw [List.mem_singleton.mp hc, slot]
      exact ⟨Nat.lt_succ_self _, rfl⟩
    · unfold children
      rw [slot]
      exact ⟨List.nodup_nil, fun c hc => nomatch hc⟩
    · rw [(later q h).2]
      exact ⟨List.nodup_nil, fun c hc => nomatch hc⟩

theorem noted_pair {doc : Document} {p : NodeId} (valid : p < doc.nodes.size) {A C : List NodeId}
    (split : doc.children p = A ++ C) (body gap : Text) :
    doc.Noted ((doc.withNote body [gap]).insertChildren p A.length
      [doc.nodes.size, doc.nodes.size + 2]) p A C none body gap := by
  have room : doc.nodes.size < doc.nodes.size + 2 + 1 := by omega
  obtain ⟨-, hole, slot, rest⟩ := node_withNote doc body [gap]
  have grows := grows_withNote doc body [gap] (N := [doc.nodes.size, doc.nodes.size + 2])
    (by simp) (by
      intro j hj
      rcases List.mem_pair.mp hj with rfl | rfl
      · exact ⟨Nat.le_refl _, (Nat.succ_ne_self _).symm, room⟩
      · exact ⟨Nat.le_add_right _ _, by simp, Nat.lt_succ_self _⟩)
  refine ⟨grows.splice_insert valid split, ?_, ?_, ?_, ?_, ?_⟩
  · rw [insertChildren_eq_hang, hang, size_update, size_adopt, size_withNote]
    rfl
  · rw [insertChildren_eq_hang, grows.node_new valid _ (Nat.le_refl _), if_pos (by simp), hole]
  · rw [insertChildren_eq_hang, grows.node_new valid _ (by omega), if_neg (by simp), slot]
  · intro u hu
    cases hu
  · have := rest 0 gap rfl
    simp only [Nat.add_zero] at this
    simp only [Option.toList_none, List.length_nil, Nat.add_zero]
    rw [insertChildren_eq_hang, grows.node_new valid _ (by omega), if_pos (by simp), this]

theorem noted_triple {doc : Document} {p : NodeId} (valid : p < doc.nodes.size)
    {A C : List NodeId} (split : doc.children p = A ++ C) (lead body gap : Text) :
    doc.Noted ((doc.withNote body [lead, gap]).insertChildren p A.length
      [doc.nodes.size + 2, doc.nodes.size, doc.nodes.size + 3]) p A C (some lead) body gap := by
  have room : doc.nodes.size < doc.nodes.size + 2 + 2 := by omega
  have room' : doc.nodes.size + 2 < doc.nodes.size + 2 + 2 := by omega
  obtain ⟨-, hole, slot, rest⟩ := node_withNote doc body [lead, gap]
  have grows := grows_withNote doc body [lead, gap]
    (N := [doc.nodes.size + 2, doc.nodes.size, doc.nodes.size + 3]) (by simp) (by
      intro j hj
      simp only [List.mem_cons, List.not_mem_nil, or_false] at hj
      rcases hj with rfl | rfl | rfl
      · exact ⟨Nat.le_add_right _ _, by simp, room'⟩
      · exact ⟨Nat.le_refl _, (Nat.succ_ne_self _).symm, room⟩
      · exact ⟨Nat.le_add_right _ _, by simp, Nat.lt_succ_self _⟩)
  refine ⟨grows.splice_insert valid split, ?_, ?_, ?_, ?_, ?_⟩
  · rw [insertChildren_eq_hang, hang, size_update, size_adopt, size_withNote]
    rfl
  · rw [insertChildren_eq_hang, grows.node_new valid _ (Nat.le_refl _), if_pos (by simp), hole]
  · rw [insertChildren_eq_hang, grows.node_new valid _ (by omega), if_neg (by simp), slot]
  · intro u hu
    cases hu
    have := rest 0 lead rfl
    simp only [Nat.add_zero] at this
    rw [insertChildren_eq_hang, grows.node_new valid _ (by omega), if_pos (by simp), this]
  · have := rest 1 gap rfl
    rw [insertChildren_eq_hang, grows.node_new valid _ (by omega), if_pos (by simp)]
    simp only [Option.toList_some, List.length_singleton]
    rw [this]

/-- The empty statement that is put into a block. -/
theorem addPlaceholder_spec {doc : Document} {block : NodeId} (valid : block < doc.nodes.size) :
    doc.Splice (doc.addPlaceholder block).1 block (doc.children block) [] [doc.nodes.size] [] ∧
    (doc.addPlaceholder block).1.nodes.size = doc.nodes.size + 1 ∧
    (doc.addPlaceholder block).1.node doc.nodes.size =
      { kind := .empty, span := none, parent := some block } := by
  have grows : doc.Grows (doc.alloc .empty none).1 [doc.nodes.size] := by
    have new : ∀ j, doc.nodes.size ≤ j → (doc.alloc .empty none).1.parent j = none ∧
        (doc.alloc .empty none).1.children j = [] := by
      intro j hj
      unfold parent children
      rw [node_alloc]
      split
      · exact ⟨rfl, rfl⟩
      · rw [node_of_size_le doc hj]
        exact ⟨rfl, rfl⟩
    refine ⟨rfl, by rw [size_alloc]; omega, ?_, ?_, List.nodup_singleton _, ?_, ?_⟩
    · intro j lt
      rw [node_alloc, if_neg (Nat.ne_of_lt lt)]
    · intro j hj
      rw [List.mem_singleton.mp hj, size_alloc]
      exact ⟨Nat.le_refl _, Nat.lt_succ_self _⟩
    · intro j q hj link
      rw [(new j hj).1] at link
      cases link
    · intro q hq
      rw [(new q hq).2]
      exact ⟨List.nodup_nil, fun c hc => nomatch hc⟩
  have as_insert : (doc.addPlaceholder block).1 =
      (doc.alloc .empty none).1.insertChildren block (doc.children block).length
        [doc.nodes.size] := by
    unfold addPlaceholder appendChild insertChildren adopt
    dsimp only
    rw [List.foldl_cons, List.foldl_nil, alloc_snd]
    apply update_congr
    have kids : (((doc.alloc .empty none).1.update doc.nodes.size fun n =>
        { n with parent := some block }).node block).children = doc.children block := by
      unfold children
      rw [node_update_ne _ (Nat.ne_of_lt valid), grows.old block valid]
    have all : ∀ cs : List NodeId, cs = doc.children block →
        cs ++ [doc.nodes.size] = cs.take (doc.children block).length ++ [doc.nodes.size] ++
          cs.drop (doc.children block).length := by
      rintro cs rfl
      simp
    rw [all _ kids]
  rw [as_insert]
  refine ⟨grows.splice_insert valid (by simp), ?_, ?_⟩
  · rw [insertChildren_eq_hang, hang, size_update, size_adopt, size_alloc]
  · rw [insertChildren_eq_hang, grows.node_new valid _ (Nat.le_refl _), if_pos (by simp),
      node_alloc, if_pos rfl]

end Quell.Document
