import Quell.Proofs.Document.Parts
import Quell.Proofs.Fault

/-!
Edits of any linked document.

A tweak changes comments, puts new nodes without span into a child list, or lets the parts of a text
stand in for it. It asks for links that agree and for nothing else: the text may hold nodes, and it
may stand anywhere or nowhere. Tweaks keep the links (`Tweak.linked`) and say what stands for each
node (`Tweaks.pieced`). Splitting and segmenting never fault and are tweaks.
-/
namespace Quell.Document

open Text Relation

inductive Tweak (doc : Document) : Document → Prop where
  | remark {id : NodeId} {slot : Slot} {cs : List Comment} :
      Tweak doc (doc.update id (·.setComments slot cs))
  | put {doc' : Document} {p : NodeId} {A N C : List NodeId} : doc.Splice doc' p A [] N C →
      (∀ j, doc.nodes.size ≤ j → doc'.span j = none) → Tweak doc doc'
  | cut {doc' : Document} {id : NodeId} {parts : List Text} : doc.text? id = some parts.flatten →
      (doc.withTexts (doc.span id) [] parts).replaceText id
        (List.range' doc.nodes.size parts.length) = .ok doc' → Tweak doc doc'

abbrev Tweaks : Document → Document → Prop := ReflTransGen Tweak

theorem Linked.detach {doc doc' : Document} (linked : doc.Linked) (id : NodeId)
    (children : ∀ q, doc'.children q = (doc.children q).filter (· ≠ id))
    (gone : doc'.parent id = none) (rest : ∀ j, j ≠ id → doc'.parent j = doc.parent j) :
    doc'.Linked := by
  have mem : ∀ q c, c ∈ doc'.children q ↔ doc.Holds q c ∧ c ≠ id := by
    intro q c
    rw [children, List.mem_filter, decide_eq_true_iff]
    exact Iff.rfl
  refine ⟨fun q c => ?_, fun q => ?_, fun a cycle => linked.acyclic a (TransGen.mono (fun q c h => ?_) a a cycle)⟩
  · rw [mem]
    by_cases same : c = id
    · rw [same, gone]
      simp
    · rw [rest c same, ← linked.agree q c]
      exact ⟨fun h => h.1, fun h => ⟨h, same⟩⟩
  · rw [children]
    exact (linked.nodup q).filter _
  · exact ((mem q c).mp h).1

section Cut

variable {doc doc' : Document} {p id : NodeId} {A C : List NodeId} {parts : List Text}

theorem same_withTexts (doc : Document) (s : Option Span) (before : Text) (parts : List Text)
    (j : NodeId) : (doc.withTexts s before parts).children j = doc.children j ∧
      (doc.withTexts s before parts).parent j = doc.parent j := by
  rcases Nat.lt_or_ge j doc.nodes.size with lt | ge
  · unfold children parent
    rw [node_withTexts_old s before parts lt]
    exact ⟨rfl, rfl⟩
  · have bare := bare_withTexts doc s before parts ge
    unfold children parent at bare ⊢
    rw [bare.1, bare.2, node_of_size_le doc ge]
    exact ⟨rfl, rfl⟩

theorem node_recutAt (valid : p < doc.nodes.size) (lt : id < doc.nodes.size) (ne : id ≠ p)
    (index : Nat) (parts : List Text) {j : NodeId} (old : j < doc.nodes.size) :
    (doc.recutAt p index id parts).node j =
      if j = id then { doc.node id with parent := none }
      else if j = p then { doc.node p with
        children := (doc.children p).take index ++ List.range' doc.nodes.size parts.length ++
          (doc.children p).drop (index + 1) }
      else doc.node j := by
  have grows := doc.grows_withTexts (doc.span id) [] parts
  have outside : ∀ j, j < doc.nodes.size → j ∉ List.range' doc.nodes.size parts.length :=
    fun j lt h => absurd (grows.fresh j h).1 (Nat.not_le_of_lt lt)
  unfold recutAt
  by_cases same : j = id
  · subst same
    rw [if_pos rfl, node_update_self _ (by
      unfold hang
      rw [size_update, size_adopt]
      exact Nat.lt_of_lt_of_le lt grows.grows), grows.node_hang valid, if_neg ne,
      if_neg (outside j lt), grows.old j lt]
  · rw [if_neg same, node_update_ne _ same, grows.node_hang valid]
    by_cases here : j = p
    · rw [if_pos here, if_pos here]
    · rw [if_neg here, if_neg here, if_neg (outside j old), grows.old j old]

theorem leaf_recutAt (valid : p < doc.nodes.size) (lt : id < doc.nodes.size) (index : Nat)
    (parts : List Text) {j : NodeId} (new : doc.nodes.size ≤ j) :
    (doc.recutAt p index id parts).children j = [] := by
  have grows := doc.grows_withTexts (doc.span id) [] parts
  have ne : j ≠ id := fun e => absurd lt (Nat.not_lt_of_le (e ▸ new))
  unfold recutAt children
  rw [node_update_ne _ ne]
  exact (grows.children_new valid _ new).trans (bare_withTexts doc _ [] parts new).1

theorem cutInto_recutAt (valid : p < doc.nodes.size) (lt : id < doc.nodes.size) (index : Nat)
    {parts : List Text} (value : doc.text? id = some parts.flatten) :
    doc.CutInto (doc.recutAt p index id parts) id (List.range' doc.nodes.size parts.length) := by
  refine ⟨fun f hf => ?_, _, value, laid_range fun i t found => ?_⟩
  · rw [size_recutAt]
    exact List.mem_range'_1.mp hf
  · have node := recutAt_part valid lt index found
    refine ⟨text?_of_node node rfl, ?_⟩
    unfold Document.span
    rw [node]
    rfl

variable (linked : doc.Linked) (split : doc.children p = A ++ [id] ++ C)

include linked split

theorem children_recutAt (parts : List Text) (q : NodeId) :
    (doc.recutAt p A.length id parts).children q =
      if q = p then A ++ List.range' doc.nodes.size parts.length ++ C else doc.children q := by
  obtain ⟨hold, ne, lt, valid⟩ := linked.held split
  rcases Nat.lt_or_ge q doc.nodes.size with old | new
  · unfold children
    rw [node_recutAt valid lt ne _ parts old]
    by_cases here : q = p
    · have len : A.length + 1 = (A ++ [id]).length := by simp
      rw [if_neg fun e => ne (e.symm.trans here), if_pos here, if_pos here]
      dsimp only
      rw [split, len, List.drop_left, List.append_assoc A [id] C, List.take_left]
    · rw [if_neg here, if_neg here]
      split
      · rename_i same
        rw [same]
      · rfl
  · have ne' : q ≠ p := fun e => absurd valid (Nat.not_lt_of_le (e ▸ new))
    rw [leaf_recutAt valid lt _ parts new, if_neg ne']
    unfold children
    rw [node_of_size_le doc new]

theorem linked_recutAt (parts : List Text) : (doc.recutAt p A.length id parts).Linked := by
  obtain ⟨hold, ne, lt, valid⟩ := linked.held split
  have grows := doc.grows_withTexts (doc.span id) [] parts
  have splice := grows.splice_insert valid (A := A) (C := [id] ++ C)
    (by rw [split, List.append_assoc])
  refine (splice.linked' linked).detach id (fun q => ?_) ?_ fun j other => ?_
  · rw [children_recutAt linked split]
    have keeps : ∀ xs : List NodeId, id ∉ xs → xs.filter (· ≠ id) = xs := fun xs out =>
      List.filter_eq_self.mpr fun x hx => decide_eq_true fun e => out (e ▸ hx)
    have away : q ≠ p → id ∉ doc.children q := fun far h => far (linked.parent_unique h hold)
    by_cases here : q = p
    · have nodup := linked.nodup p
      rw [split] at nodup
      have left := List.disjoint_of_nodup_append (List.nodup_append.mp nodup).1
      have right := List.disjoint_of_nodup_append nodup
      have fresh : id ∉ List.range' doc.nodes.size parts.length := fun h =>
        absurd (grows.fresh id h).1 (Nat.not_le_of_lt lt)
      rw [if_pos here, here, splice.children_here, List.filter_append, List.filter_append,
        List.filter_append, keeps A fun h => left h (List.mem_singleton_self id), keeps _ fresh,
        keeps C fun h => right (List.mem_append_right A (List.mem_singleton_self id)) h]
      simp
    · rw [if_neg here]
      rcases Nat.lt_or_ge q doc.nodes.size with old | new
      · rw [splice.children_rest old here, keeps _ (away here)]
      · rw [insertChildren_eq_hang, grows.children_new valid _ new,
          (bare_withTexts doc _ [] parts new).1]
        unfold children
        rw [node_of_size_le doc new]
        rfl
  · unfold parent
    rw [node_recutAt valid lt ne _ parts lt, if_pos rfl]
  · rcases Nat.lt_or_ge j doc.nodes.size with old | new
    · rw [splice.parent_rest old List.not_mem_nil]
      unfold parent
      rw [node_recutAt valid lt ne _ parts old, if_neg other]
      split
      · rename_i here
        rw [here]
      · rfl
    · rw [insertChildren_eq_hang, grows.parent_new valid _ new]
      unfold recutAt
      rw [← grows.parent_new valid _ new]
      unfold parent
      rw [node_update_ne _ other]

theorem pieced_recutAt {parts : List Text} (value : doc.text? id = some parts.flatten) :
    doc.Pieced (doc.recutAt p A.length id parts) fun j =>
      if j ∈ [id] then List.range' doc.nodes.size parts.length else [j] := by
  obtain ⟨hold, ne, lt, valid⟩ := linked.held split
  have kids := children_recutAt linked split parts
  have nodup := linked.nodup p
  rw [split] at nodup
  -- Each child list consists of what stands for its nodes.
  have lists : ∀ q < doc.nodes.size, (doc.recutAt p A.length id parts).children q =
      (doc.children q).flatMap fun j =>
        if j ∈ [id] then List.range' doc.nodes.size parts.length else [j] := by
    intro q old
    rw [kids]
    by_cases here : q = p
    · rw [if_pos here, here, split, flatMap_around nodup]
    · rw [if_neg here, flatMap_whole fun x hx hb => ?_]
      rw [List.mem_singleton.mp hb] at hx
      exact here (linked.parent_unique hx hold)
  refine ⟨?_, fun j old => ?_, fun j old => ?_, fun q old => ?_, fun q old c hc => ?_,
    fun q new c hc => ?_⟩
  · rw [size_recutAt]
    exact Nat.le_add_right _ _
  · unfold kind Document.span
    rw [node_recutAt valid lt ne _ parts old]
    split
    · rename_i same
      rw [same]
      exact ⟨rfl, rfl⟩
    · split
      · rename_i here
        rw [here]
        exact ⟨rfl, rfl⟩
      · exact ⟨rfl, rfl⟩
  · by_cases same : j = id
    · rw [same, if_pos (List.mem_singleton_self id)]
      exact .inr (cutInto_recutAt valid lt A.length value)
    · exact .inl (if_neg fun h => same (List.mem_singleton.mp h))
  · rw [lists q old]
  · rw [lists q old] at hc
    exact .inl hc
  · rw [leaf_recutAt valid lt _ parts new] at hc
    cases hc

end Cut

/-- A text that some list holds gives way to its parts; for another one they are only added to the
table. -/
theorem replaceText_cases {doc : Document} (linked : doc.Linked) {id : NodeId} {parts : List Text}
    (value : doc.text? id = some parts.flatten) :
    (∃ p A C, doc.children p = A ++ [id] ++ C ∧
      (doc.withTexts (doc.span id) [] parts).replaceText id
        (List.range' doc.nodes.size parts.length) = .ok (doc.recutAt p A.length id parts)) ∨
    (doc.withTexts (doc.span id) [] parts).replaceText id
      (List.range' doc.nodes.size parts.length) = .ok (doc.withTexts (doc.span id) [] parts) := by
  cases link : doc.parent id with
  | none =>
    refine .inr ?_
    unfold replaceText
    rw [(same_withTexts doc (doc.span id) [] parts id).2, link]
  | some p =>
    obtain ⟨A, C, split⟩ := List.append_of_mem ((linked.agree p id).mpr link)
    have split' : doc.children p = A ++ [id] ++ C := by rw [split]; simp
    exact .inl ⟨p, A, C, split', replaceText_eq linked split' value⟩

section Tweak

variable {doc mid doc' : Document}

theorem Splice.pieced {p : NodeId} {A N C : List NodeId} (splice : doc.Splice doc' p A [] N C)
    (spanless : ∀ j, doc.nodes.size ≤ j → doc'.span j = none) :
    doc.Pieced doc' fun id => [id] where
  grows := splice.grows
  content j lt := ⟨(splice.content lt).1, (splice.content lt).2.1⟩
  pieces _ _ := .inl rfl
  order q lt := by
    rw [List.flatMap_singleton']
    by_cases here : q = p
    · rw [here, splice.split, splice.children_here, List.append_nil]
      exact (List.sublist_append_left A N).append (List.Sublist.refl C)
    · rw [splice.children_rest lt here]
  between q lt c hc := by
    rw [List.flatMap_singleton']
    by_cases here : q = p
    · rw [here, splice.children_here] at hc
      by_cases new : c ∈ N
      · have ge := (splice.fresh c new).1
        exact .inr ⟨ge, spanless c ge⟩
      · refine .inl ?_
        rw [here, splice.split]
        simpa [new] using hc
    · rw [splice.children_rest lt here] at hc
      exact .inl hc
  new q ge c hc := by
    have newer := Nat.le_trans ge (Nat.le_of_lt ((splice.below q ge).2 c hc).1)
    exact ⟨newer, spanless c newer⟩

theorem Tweak.linked (tweak : Tweak doc doc') (linked : doc.Linked) : doc'.Linked := by
  cases tweak with
  | remark =>
    have same := @tree_setComments doc
    exact linked.of_same (fun j => (same j).2.2.1) fun j => (same j).2.2.2
  | put splice => exact splice.linked' linked
  | @cut _ id parts value ran =>
    rcases replaceText_cases linked value with ⟨p, A, C, split, there⟩ | apart
    · cases ran.symm.trans there
      exact linked_recutAt linked split parts
    · cases ran.symm.trans apart
      have same := same_withTexts doc (doc.span id) [] parts
      exact linked.of_same (fun j => (same j).1) fun j => (same j).2

theorem Tweak.pieced (tweak : Tweak doc doc') (linked : doc.Linked) :
    ∃ parts, doc.Pieced doc' parts := by
  cases tweak with
  | remark =>
    have same := @tree_setComments doc
    exact ⟨_, .of_same (Nat.le_of_eq (size_update ..).symm)
      (fun j _ => ⟨(same j).1, (same j).2.1⟩) fun j => (same j).2.2.1⟩
  | put splice spanless => exact ⟨_, splice.pieced spanless⟩
  | @cut _ id parts value ran =>
    rcases replaceText_cases linked value with ⟨p, A, C, split, there⟩ | apart
    · cases ran.symm.trans there
      exact ⟨_, pieced_recutAt linked split value⟩
    · cases ran.symm.trans apart
      refine ⟨_, .of_same ?_ (fun j lt => ?_) fun j => (same_withTexts doc _ [] parts j).1⟩
      · rw [size_withTexts]
        exact Nat.le_add_right _ _
      · unfold kind Document.span
        rw [node_withTexts_old _ _ _ lt]
        exact ⟨rfl, rfl⟩

theorem Tweaks.linked (tweaks : Tweaks doc doc') (linked : doc.Linked) : doc'.Linked := by
  induction tweaks with
  | refl => exact linked
  | tail _ tweak ih => exact tweak.linked ih

theorem Tweaks.pieced (tweaks : Tweaks doc doc') (linked : doc.Linked) :
    ∃ parts, doc.Pieced doc' parts := by
  induction tweaks with
  | refl => exact ⟨_, .of_same (Nat.le_refl _) (fun _ _ => ⟨rfl, rfl⟩) fun _ => rfl⟩
  | tail tweaks tweak ih =>
    obtain ⟨f, first⟩ := ih
    have linked' := Tweaks.linked tweaks linked
    obtain ⟨g, second⟩ := tweak.pieced linked'
    exact ⟨_, first.trans second linked'⟩

theorem Tweaks.size_le (tweaks : Tweaks doc doc') (linked : doc.Linked) :
    doc.nodes.size ≤ doc'.nodes.size := by
  obtain ⟨_, pieced⟩ := tweaks.pieced linked
  exact pieced.grows

theorem foldlM_tweaks {α : Type} {step : Document → α → Except Fault Document} (linked : doc.Linked)
    (each : ∀ d x, d.Linked → doc.nodes.size ≤ d.nodes.size →
      ∃ d', step d x = .ok d' ∧ Tweaks d d') (xs : List α) :
    ∃ doc', xs.foldlM step doc = .ok doc' ∧ Tweaks doc doc' := by
  refine foldlM_ok (I := Tweaks doc) (fun x _ d tweaks => ?_) ReflTransGen.refl
  obtain ⟨d', ran, next⟩ := each d x (tweaks.linked linked) (tweaks.size_le linked)
  exact ⟨d', ran, tweaks.trans next⟩

end Tweak

section Texts

variable {doc : Document} {id : NodeId} {n : Nat}

theorem replaceText_tweak (linked : doc.Linked) {parts : List Text}
    (value : doc.text? id = some parts.flatten) :
    ∃ doc', (doc.withTexts (doc.span id) [] parts).replaceText id
      (List.range' doc.nodes.size parts.length) = .ok doc' ∧ Tweak doc doc' := by
  rcases replaceText_cases linked value with ⟨p, A, C, -, there⟩ | apart
  · exact ⟨_, there, .cut value there⟩
  · exact ⟨_, apart, .cut value apart⟩

theorem splitText_uncut (off : ∀ t, doc.text? id = some t → ¬ Cut t n) :
    doc.splitText id n = .ok (doc, none) := by
  unfold splitText
  cases value : doc.text? id with
  | none => rfl
  | some t =>
    dsimp only
    rw [if_neg fun at_boundary => off t value (isBoundary_iff.mp at_boundary)]

theorem splitText_cut (linked : doc.Linked) {a b : Text} (value : doc.text? id = some (a ++ b)) :
    ∃ doc', doc.splitText id (bytes a) = .ok (doc', some (doc.nodes.size, doc.nodes.size + 1)) ∧
      Tweak doc doc' ∧ ∀ p A C, doc.children p = A ++ [id] ++ C →
        doc'.children p = A ++ [doc.nodes.size, doc.nodes.size + 1] ++ C ∧
        doc.CutInto doc' id [doc.nodes.size, doc.nodes.size + 1] := by
  have parts : doc.text? id = some [a, b].flatten := by simpa using value
  obtain ⟨doc', ran, tweak⟩ := replaceText_tweak linked parts
  have result : doc.splitText id (bytes a) =
      .ok (doc', some (doc.nodes.size, doc.nodes.size + 1)) :=
    (splitText_eq value).trans (congrArg (Except.map _) ran)
  refine ⟨doc', result, tweak, fun p A C split => ?_⟩
  obtain ⟨-, -, lt, valid⟩ := linked.held split
  cases ran.symm.trans (replaceText_eq linked split parts)
  have kids := children_recutAt linked split [a, b] p
  rw [if_pos rfl] at kids
  exact ⟨kids, cutInto_recutAt valid lt A.length parts⟩

theorem splitText_tweaks (linked : doc.Linked) (id : NodeId) (n : Nat) :
    ∃ doc' halves, doc.splitText id n = .ok (doc', halves) ∧ Tweaks doc doc' := by
  by_cases cuts : ∃ t, doc.text? id = some t ∧ Cut t n
  · obtain ⟨t, value, a, b, rfl, rfl⟩ := cuts
    obtain ⟨doc', ran, tweak, -⟩ := splitText_cut linked value
    exact ⟨doc', _, ran, ReflTransGen.single tweak⟩
  · have off := splitText_uncut fun t value cut => cuts ⟨t, value, cut⟩
    exact ⟨doc, none, off, ReflTransGen.refl⟩

theorem segmentText_tweaks (linked : doc.Linked) (id : NodeId) :
    ∃ doc', doc.segmentText id = .ok doc' ∧ Tweaks doc doc' := by
  by_cases settled : ∀ t, doc.text? id = some t → Settled t
  · exact ⟨doc, segmentText_settled settled, ReflTransGen.refl⟩
  · simp only [not_forall] at settled
    obtain ⟨t, value, loose⟩ := settled
    have parts : doc.text? id = some t.segments.flatten := by rw [segments_flatten, value]
    obtain ⟨doc', ran, tweak⟩ := replaceText_tweak linked parts
    exact ⟨doc', (segmentText_eq value loose).trans ran, ReflTransGen.single tweak⟩

theorem segmentChildren_tweaks (linked : doc.Linked) (p keep : NodeId) :
    ∃ doc', doc.segmentChildren p keep = .ok doc' ∧ Tweaks doc doc' := by
  unfold segmentChildren
  split
  · exact ⟨doc, rfl, ReflTransGen.refl⟩
  · refine foldlM_tweaks linked (fun d child linked _ => ?_) _
    split
    · exact ⟨d, rfl, ReflTransGen.refl⟩
    · exact segmentText_tweaks linked child

end Texts

end Quell.Document
