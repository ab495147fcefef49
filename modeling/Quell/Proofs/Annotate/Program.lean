import Quell.Proofs.Annotate.Printed
import Quell.Proofs.Document.Around

/-!
The program that a document stands for.

Texts and markup comments apart, a run leaves the nodes of a document as they are: the same ones in
the same order, each with its kind and span. If it writes above lines that their targets start, then what
it prints is read as the same program. Elsewhere this may fail; the spread children of an element have no
node of their own: `annotateSource_breaks_spread`.
-/
namespace Quell

open Text Relation

namespace Document

def isCode (doc : Document) (id : NodeId) : Bool :=
  (doc.span id).isSome && (doc.text? id).isNone && (doc.commentSlot id).isNone &&
    doc.kind id != .emptyHole

/-- The code of a document, in document order. -/
def program (doc : Document) : List (NodeKind × Option Span) :=
  (doc.preorder.filter doc.isCode).map fun id => (doc.kind id, doc.span id)

variable {source : Text} {doc doc' : Document} {o : AnnotateOptions} {rule : Text}

theorem isCode_congr {id : NodeId} (kind : doc'.kind id = doc.kind id)
    (span : (doc'.span id).isSome = (doc.span id).isSome)
    (hole : doc.kind id = .hole → doc'.children id = doc.children id ∧
      ∀ c ∈ doc.children id, doc'.kind c = doc.kind c) : doc'.isCode id = doc.isCode id := by
  have slot : doc'.commentSlot id = doc.commentSlot id := by
    unfold commentSlot
    rw [kind]
    cases e : doc.kind id with
    | hole =>
      obtain ⟨children, each⟩ := hole e
      rw [children]
      cases kids : doc.children id with
      | nil => rfl
      | cons c cs =>
        dsimp only
        rw [each c (by rw [kids]; exact List.mem_cons_self)]
    | _ => rfl
  unfold isCode text?
  rw [kind, span, slot]

theorem isCode_of_spanless {id : NodeId} (h : doc.span id = none) : doc.isCode id = false := by
  unfold isCode
  rw [h]
  rfl

theorem isCode_of_text {id : NodeId} {t : Text} (h : doc.text? id = some t) :
    doc.isCode id = false := by
  unfold isCode
  rw [h]
  simp

theorem program_setComments (sound : doc.Sound source) (id : NodeId) (slot : Slot)
    (cs : List Comment) : (doc.update id (·.setComments slot cs)).program = doc.program := by
  have tree := fun j => @tree_setComments doc id slot cs j
  unfold program
  rw [preorder_setComments sound.linked sound.root_lt]
  have same : ∀ j, (doc.update id (·.setComments slot cs)).isCode j = doc.isCode j := fun j =>
    isCode_congr (tree j).1 (congrArg Option.isSome (tree j).2.1) fun _ =>
      ⟨(tree j).2.2.1, fun c _ => (tree c).1⟩
  rw [funext same]
  exact List.map_congr_left fun j _ => by rw [(tree j).1, (tree j).2.1]

theorem Splice.program_eq {p : NodeId} {A B N C : List NodeId}
    (splice : doc.Splice doc' p A B N C) (sound : doc.Sound source) (reached : doc.Reaches p)
    (kind : doc.kind p ≠ .hole) (gone : ∀ b ∈ B, doc.isCode b = false)
    (new : ∀ j, doc.nodes.size ≤ j → doc'.isCode j = false) : doc'.program = doc.program := by
  have same : ∀ j, doc.Reaches j → doc'.isCode j = doc.isCode j := by
    intro j hj
    have lt := sound.reaches_lt hj
    refine isCode_congr (splice.content lt).1 (congrArg _ (splice.content lt).2.1) fun hole =>
      ⟨?_, fun c hc => ?_⟩
    · refine splice.children_rest lt ?_
      rintro rfl
      exact kind hole
    · exact (splice.content (sound.linked.child_lt hc)).1
  unfold program
  rw [splice.filter_eq sound.linked sound.root_lt reached same gone new]
  refine List.map_congr_left fun j hj => ?_
  have lt := sound.reaches_lt
    ((mem_preorder sound.linked sound.root_lt).mp (List.mem_filter.mp hj).1)
  rw [(splice.content lt).1, (splice.content lt).2.1]

theorem ne_hole_of_markup {p : NodeId} (markup : (doc.kind p).hasMarkupChildren = true) :
    doc.kind p ≠ .hole := by
  intro h
  rw [h] at markup
  cases markup

theorem Noted.program_eq {p : NodeId} {A C : List NodeId} {lead : Option Text} {body gap : Text}
    (noted : doc.Noted doc' p A C lead body gap) (sound : doc.Sound source)
    (reached : doc.Reaches p) (markup : (doc.kind p).hasMarkupChildren = true) :
    doc'.program = doc.program :=
  noted.splice.program_eq sound reached (ne_hole_of_markup markup) nofun fun _ new =>
    isCode_of_spanless (noted.spanless_new new)

theorem Edit.program_eq (edit : Edit o rule doc doc') (sound : doc.Sound source) :
    doc'.program = doc.program := by
  cases edit with
  | extend => exact program_setComments sound _ _ _
  | beside => rw [appendComment_eq]; exact program_setComments sound _ _ _
  | behind => rw [appendComment_eq]; exact program_setComments sound _ _ _
  | fill reached kind empty =>
    obtain ⟨splice, size, node⟩ := addPlaceholder_spec (sound.reaches_lt reached)
    refine splice.program_eq sound reached (by rw [kind]; exact nofun) nofun fun j new => ?_
    apply isCode_of_spanless
    rcases Nat.lt_or_eq_of_le new with lt | rfl
    · exact span_of_node (node_of_size_le _ (by rw [size]; exact lt))
    · exact span_of_node node
  | @cut _ p id A C parts s reached markup span settled recut =>
    refine recut.splice.program_eq sound reached (ne_hole_of_markup markup) (fun b hb => ?_)
      fun j new => ?_
    · rw [List.mem_singleton.mp hb]
      exact isCode_of_text recut.value
    · rcases Nat.lt_or_ge j doc'.nodes.size with lt | ge
      · obtain ⟨i, rfl⟩ := Nat.exists_eq_add_of_le new
        rw [recut.size] at lt
        have found : parts[i]? = some parts[i] := List.getElem?_eq_getElem (by omega)
        exact isCode_of_text (text?_of_node (recut.part i _ found) rfl)
      · exact isCode_of_spanless (span_of_node (node_of_size_le _ ge))
  | among reached markup spanned tags whole blank free margin noted =>
    exact noted.program_eq sound reached markup
  | last reached markup layout spanned indent noted => exact noted.program_eq sound reached markup

theorem Edits.program_eq (edits : Edits o rule doc doc') (sound : doc.Sound source) :
    doc'.program = doc.program := by
  induction edits with
  | refl => rfl
  | tail before edit ih => rw [edit.program_eq (Edits.sound before sound), ih]

theorem annotateFrom_program {ds : List Diagnostic} {summary summary' : Summary}
    (sound : doc.Sound source) (h : doc.annotateFrom o summary ds = .ok (doc', summary')) :
    doc'.program = doc.program := by
  induction ds generalizing doc summary with
  | nil =>
    cases h
    rfl
  | cons d ds ih =>
    rw [annotateFrom] at h
    split at h
    next => exact ih sound h
    next rule _ =>
      split at h
      next =>
        obtain ⟨mid, r, result, call⟩ := annotateOne_ok sound o d.line rule
        have edits := (call.settles sound).edits
        rw [result] at h
        exact (ih (Edits.sound edits sound) h).trans (edits.program_eq sound)
      next => exact ih sound h

theorem Lowered.kinds_eq {rows : List RowAt} {text : Text} (lowered : Lowered rows source text doc doc') :
    doc'.program.map (·.1) = doc.program.map (·.1) := by
  have sound := lowered.sound
  have reached : ∀ {id}, id ∈ doc.preorder → doc.Reaches id :=
    (mem_preorder sound.linked sound.root_lt).mp
  have spanned : ∀ id, (doc'.span id).isSome = (doc.span id).isSome := by
    intro id
    by_cases top : id = root
    · subst top
      rw [lowered.displaced.top]
      cases span : doc.span root with
      | none => exact absurd span sound.root_span
      | some => rfl
    · rw [lowered.displaced.span id top]
      cases doc.span id <;> rfl
  have same : ∀ id ∈ doc.preorder, doc'.isCode id = doc.isCode id := fun id mem =>
    isCode_congr (lowered.kind_eq (reached mem)) (spanned id) fun _ =>
      ⟨lowered.displaced.children id, fun c hold => lowered.kind_eq ((reached mem).child hold)⟩
  unfold program
  rw [lowered.displaced.preorder_eq, List.filter_congr same, List.map_map, List.map_map]
  refine List.map_congr_left fun id mem => ?_
  exact lowered.kind_eq (reached (List.mem_filter.mp mem).1)

end Document

end Quell
