import Quell.Proofs.Annotate.Call

/-!
What an edit leaves alone.

Nodes keep their kind, their span and, texts apart, their place below the root (`Edit.frame`). In a
slot the last comment may get a rule more, or a comment is put behind the others.
-/
namespace Quell.Document

open Text Relation

structure Frame (doc doc' : Document) : Prop where
  eol : doc'.eol = doc.eol
  grows : doc.nodes.size ≤ doc'.nodes.size
  same : ∀ id, id < doc.nodes.size → doc'.kind id = doc.kind id ∧ doc'.span id = doc.span id
  /-- Only texts leave the tree. -/
  kept : ∀ id, id < doc.nodes.size → doc.Reaches id → doc.text? id = none → doc'.Reaches id
  back : ∀ id, doc'.Reaches id → id < doc.nodes.size → doc.Reaches id
  /-- No block comes in. -/
  fresh : ∀ id, doc.nodes.size ≤ id → doc'.kind id ≠ .block

theorem Frame.refl (doc : Document) : doc.Frame doc where
  eol := rfl
  grows := Nat.le_refl _
  same := fun _ _ => ⟨rfl, rfl⟩
  kept := fun _ _ h _ => h
  back := fun _ h _ => h
  fresh := by
    intro id ge
    unfold kind
    rw [node_of_size_le doc ge]
    exact nofun

theorem Frame.trans {doc mid doc' : Document} (h : doc.Frame mid) (h' : mid.Frame doc') :
    doc.Frame doc' where
  eol := h'.eol.trans h.eol
  grows := Nat.le_trans h.grows h'.grows
  same := by
    intro id lt
    obtain ⟨kind, span⟩ := h.same id lt
    obtain ⟨kind', span'⟩ := h'.same id (Nat.lt_of_lt_of_le lt h.grows)
    exact ⟨kind'.trans kind, span'.trans span⟩
  kept := by
    intro id lt reached solid
    refine h'.kept id (Nat.lt_of_lt_of_le lt h.grows) (h.kept id lt reached solid) ?_
    unfold text?
    rw [(h.same id lt).1]
    exact solid
  back := fun id reached lt =>
    h.back id (h'.back id reached (Nat.lt_of_lt_of_le lt h.grows)) lt
  fresh := by
    intro id ge
    rcases Nat.lt_or_ge id mid.nodes.size with lt | ge'
    · rw [(h'.same id lt).1]
      exact h.fresh id ge
    · exact h'.fresh id ge'

/-- A block of the later document is one of the earlier. -/
theorem Frame.block {doc doc' : Document} (frame : doc.Frame doc') {id : NodeId}
    (reached : doc'.Reaches id) (kind : doc'.kind id = .block) :
    doc.Reaches id ∧ doc.kind id = .block ∧ doc'.span id = doc.span id := by
  rcases Nat.lt_or_ge id doc.nodes.size with lt | ge
  · obtain ⟨same, span⟩ := frame.same id lt
    exact ⟨frame.back id reached lt, same ▸ kind, span⟩
  · exact absurd kind (frame.fresh id ge)

theorem frame_setComments (doc : Document) (id : NodeId) (slot : Slot) (cs : List Comment) :
    doc.Frame (doc.update id (·.setComments slot cs)) where
  eol := eol_update ..
  grows := Nat.le_of_eq (size_update ..).symm
  same := fun j _ => ⟨(tree_setComments j).1, (tree_setComments j).2.1⟩
  kept := fun _ _ h _ => (reaches_of_same fun j => (tree_setComments j).2.2.1).mpr h
  back := fun _ h _ => (reaches_of_same fun j => (tree_setComments j).2.2.1).mp h
  fresh := by
    intro j ge
    rw [(tree_setComments j).1]
    exact (Frame.refl doc).fresh j ge

theorem Splice.frame {doc doc' : Document} {p : NodeId} {A B N C : List NodeId}
    (splice : doc.Splice doc' p A B N C) (linked : doc.Linked)
    (texts : ∀ b ∈ B, doc.text? b ≠ none)
    (fresh : ∀ id, doc.nodes.size ≤ id → doc'.kind id ≠ .block) : doc.Frame doc' where
  eol := splice.eol
  grows := splice.grows
  same := fun _ lt => ⟨(splice.content lt).1, (splice.content lt).2.1⟩
  kept := fun id _ reached solid => splice.reaches_kept linked reached fun hb => texts id hb solid
  back := fun _ reached lt => (splice.reaches_old linked reached lt).1
  fresh := fresh

def Fresh (o : AnnotateOptions) (rule : Text) (c : Comment) : Prop :=
  c.span = none ∧ ∃ form, c.text = directiveText o form rule c.kind

inductive Amends (o : AnnotateOptions) (rule : Text) : List Comment → List Comment → Prop where
  | same (cs : List Comment) : Amends o rule cs cs
  | extend {cs : List Comment} {c c' : Comment} : c.merge rule = (c', .merged) →
      Amends o rule (cs ++ [c]) (cs ++ [c'])
  | append {cs : List Comment} {c : Comment} : Fresh o rule c →
      (∀ d ∈ cs.getLast?, Directive.parse? d.text = none) → Amends o rule cs (cs ++ [c])

section Amends

variable {source : Text} {doc doc' : Document} {o : AnnotateOptions} {rule : Text}

theorem Amends.of_eq {cs cs' : List Comment} (h : cs' = cs) : Amends o rule cs cs' := by
  rw [h]
  exact .same cs

theorem amends_setComments {id : NodeId} {slot : Slot} {cs : List Comment}
    (valid : id < doc.nodes.size) (here : Amends o rule ((doc.node id).comments slot) cs)
    (j : NodeId) (slot' : Slot) : Amends o rule ((doc.node j).comments slot')
      (((doc.update id (·.setComments slot cs)).node j).comments slot') := by
  rw [comments_update valid]
  split
  · rename_i h
    obtain ⟨rfl, rfl⟩ := h
    exact here
  · exact .same _

theorem besideComment_fresh (o : AnnotateOptions) (rule : Text) :
    Fresh o rule (besideComment o rule).2 := by
  unfold besideComment
  split
  · exact ⟨rfl, .sameLine, rfl⟩
  · exact ⟨rfl, .nextLine, rfl⟩

theorem Splice.amends {p : NodeId} {A B N C : List NodeId} (splice : doc.Splice doc' p A B N C)
    (new : ∀ j, doc.nodes.size ≤ j → ∀ slot, Amends o rule [] ((doc'.node j).comments slot))
    (j : NodeId) (slot : Slot) :
    Amends o rule ((doc.node j).comments slot) ((doc'.node j).comments slot) := by
  rcases Nat.lt_or_ge j doc.nodes.size with lt | ge
  · exact .of_eq ((splice.content lt).2.2 slot)
  · have none : (doc.node j).comments slot = [] := by
      rw [node_of_size_le doc ge]
      cases slot <;> rfl
    rw [none]
    exact new j ge slot

theorem amends_silent {j : NodeId} {kind : NodeKind} {span : Option Span} {parent : Option NodeId}
    {children : List NodeId} (node : doc.node j = { kind, span, parent, children }) (slot : Slot) :
    Amends o rule [] ((doc.node j).comments slot) := by
  rw [node]
  exact .of_eq (by cases slot <;> rfl)

theorem amends_outside {j : NodeId} (ge : doc.nodes.size ≤ j) (slot : Slot) :
    Amends o rule [] ((doc.node j).comments slot) :=
  amends_silent (node_of_size_le doc ge) slot

theorem kind_ne_block {j : NodeId} {n : Node} (node : doc.node j = n) (h : n.kind ≠ .block) :
    doc.kind j ≠ .block := by
  unfold kind
  rw [node]
  exact h

theorem Recut.new {p id : NodeId} {A C : List NodeId} {parts : List Text}
    (recut : doc.Recut doc' p A id C parts) {j : NodeId} (ge : doc.nodes.size ≤ j) :
    doc'.kind j ≠ .block ∧ ∀ slot, Amends o rule [] ((doc'.node j).comments slot) := by
  obtain ⟨i, rfl⟩ := Nat.exists_eq_add_of_le ge
  cases part : parts[i]? with
  | some t =>
    have node := recut.part i t part
    exact ⟨kind_ne_block node nofun, amends_silent node⟩
  | none =>
    have out : doc'.nodes.size ≤ doc.nodes.size + i := by
      rw [recut.size]
      exact Nat.add_le_add_left (List.getElem?_eq_none_iff.mp part) _
    exact ⟨(Frame.refl doc').fresh _ out, amends_outside out⟩

theorem Noted.new_nodes {p : NodeId} {A C : List NodeId} {lead : Option Text} {gap : Text}
    (noted : doc.Noted doc' p A C lead (directiveText o .nextLine rule .block) gap) {j : NodeId}
    (ge : doc.nodes.size ≤ j) :
    doc'.kind j ≠ .block ∧ ∀ slot, Amends o rule [] ((doc'.node j).comments slot) := by
  obtain ⟨i, rfl⟩ := Nat.exists_eq_add_of_le ge
  match i with
  | 0 => exact ⟨kind_ne_block noted.hole nofun, amends_silent noted.hole⟩
  | 1 =>
    refine ⟨kind_ne_block noted.slot nofun, fun slot => ?_⟩
    rw [noted.slot]
    cases slot with
    | leading => exact .same []
    | trailing => exact .same []
    | inner =>
      show Amends o rule [] ([] ++ [_])
      exact .append ⟨rfl, .nextLine, rfl⟩ nofun
  | i + 2 =>
    rcases Nat.lt_or_ge (doc.nodes.size + (i + 2)) doc'.nodes.size with lt | ge'
    · have text : ∃ t, doc'.node (doc.nodes.size + (i + 2)) =
          { kind := .text t, span := none, parent := some p } := by
        have size := noted.size
        cases lead with
        | none =>
          obtain rfl : i = 0 := by
            simp only [Option.toList_none, List.length_nil] at size
            omega
          exact ⟨gap, noted.behind⟩
        | some u =>
          simp only [Option.toList_some, List.length_singleton] at size
          rcases (by omega : i = 0 ∨ i = 1) with rfl | rfl
          · exact ⟨u, noted.front u rfl⟩
          · exact ⟨gap, noted.behind⟩
      obtain ⟨t, node⟩ := text
      exact ⟨kind_ne_block node nofun, amends_silent node⟩
    · exact ⟨(Frame.refl doc').fresh _ ge', amends_outside ge'⟩

theorem addPlaceholder_new {block j : NodeId} (valid : block < doc.nodes.size)
    (ge : doc.nodes.size ≤ j) :
    (doc.addPlaceholder block).1.kind j ≠ .block ∧
      ∀ slot, Amends o rule [] (((doc.addPlaceholder block).1.node j).comments slot) := by
  obtain ⟨-, size, node⟩ := addPlaceholder_spec valid
  rcases Nat.eq_or_lt_of_le ge with rfl | lt
  · exact ⟨kind_ne_block node nofun, amends_silent node⟩
  · have out : (doc.addPlaceholder block).1.nodes.size ≤ j := by
      rw [size]
      exact lt
    exact ⟨(Frame.refl _).fresh _ out, amends_outside out⟩

/-- An edit leaves the old nodes as they are, and amends comments. -/
theorem Edit.frame (edit : Edit o rule doc doc') (sound : doc.Sound source) :
    doc.Frame doc' ∧ ∀ id slot,
      Amends o rule ((doc.node id).comments slot) ((doc'.node id).comments slot) := by
  cases edit with
  | extend reached held merged =>
    refine ⟨frame_setComments .., amends_setComments (sound.reaches_lt reached) ?_⟩
    rw [held]
    exact .extend merged
  | beside found _ _ bare =>
    rw [appendComment_eq]
    exact ⟨frame_setComments .., amends_setComments (sound.reaches_lt (sound.first_spec found).1)
      (.append (besideComment_fresh o rule) bare)⟩
  | behind reached kind found bare =>
    rw [appendComment_eq]
    exact ⟨frame_setComments .., amends_setComments
      (sound.reaches_lt (sound.last_statement reached kind found).1)
      (.append ⟨rfl, .nextLine, rfl⟩ bare)⟩
  | fill reached =>
    have valid := sound.reaches_lt reached
    have splice := (addPlaceholder_spec valid).1
    have new : ∀ j, doc.nodes.size ≤ j → _ ∧ ∀ slot, Amends o rule [] _ := fun _ ge =>
      addPlaceholder_new valid ge
    exact ⟨splice.frame sound.linked nofun fun j ge => (new j ge).1,
      splice.amends fun j ge => (new j ge).2⟩
  | cut reached markup span settled recut =>
    have new : ∀ j, doc.nodes.size ≤ j → _ ∧ ∀ slot, Amends o rule [] _ := fun _ ge => recut.new ge
    refine ⟨recut.splice.frame sound.linked (fun b hb => ?_) fun j ge => (new j ge).1,
      recut.splice.amends fun j ge => (new j ge).2⟩
    rw [List.mem_singleton.mp hb, recut.value]
    exact nofun
  | among _ _ _ _ _ _ _ _ noted =>
    exact ⟨noted.splice.frame sound.linked nofun fun j ge => (noted.new_nodes ge).1,
      noted.splice.amends fun j ge => (noted.new_nodes ge).2⟩
  | last _ _ _ _ _ noted =>
    exact ⟨noted.splice.frame sound.linked nofun fun j ge => (noted.new_nodes ge).1,
      noted.splice.amends fun j ge => (noted.new_nodes ge).2⟩

theorem Edits.frame (edits : Edits o rule doc doc') (sound : doc.Sound source) :
    doc.Frame doc' := by
  induction edits with
  | refl => exact .refl doc
  | tail edits edit ih => exact ih.trans (edit.frame (Edits.sound edits sound)).1

end Amends
end Quell.Document
