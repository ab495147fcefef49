import Quell.Proofs.Annotate.Frame
import Quell.Proofs.Document.Around

/-!
Comments and texts lie apart.

In a document as it is read no comment lies in a text, for a text is what stands between other
things. Edits bring no new spans to comments, and the texts that they bring in are parts of old ones.
-/
namespace Quell.Document

open Text Relation

variable {source : Text} {doc doc' : Document} {o : AnnotateOptions} {rule : Text}

/-- No comment lies in a text. -/
def Clear (doc : Document) : Prop :=
  ∀ r id t s, doc.RemarkAt r → doc.Reaches id → doc.text? id = some t → doc.span id = some s →
    r.hi ≤ s.lo ∨ s.hi ≤ r.lo

def RemarkIn (doc : Document) (id : NodeId) (slot : Slot) (s : Span) : Prop :=
  doc.Reaches id ∧ ∃ c ∈ (doc.node id).comments slot, c.span = some s

theorem Edit.remarkIn (edit : Edit o rule doc doc') (sound : doc.Sound source) {id : NodeId}
    {slot : Slot} {s : Span} (h : doc'.RemarkIn id slot s) : doc.RemarkIn id slot s := by
  obtain ⟨frame, amends⟩ := edit.frame sound
  obtain ⟨reached, c, mem, span⟩ := h
  have old : ∃ d ∈ (doc.node id).comments slot, d.span = some s := by
    have here := amends id slot
    generalize (doc.node id).comments slot = cs at here
    generalize (doc'.node id).comments slot = cs' at here mem
    cases here with
    | same => exact ⟨c, mem, span⟩
    | @extend cs d d' merged =>
      rcases List.mem_append.mp mem with h | h
      · exact ⟨c, List.mem_append_left _ h, span⟩
      · rw [List.mem_singleton.mp h, (Comment.merge_parses merged).1] at span
        exact ⟨d, by simp, span⟩
    | @append cs d fresh =>
      rcases List.mem_append.mp mem with h | h
      · exact ⟨c, h, span⟩
      · rw [List.mem_singleton.mp h, fresh.1] at span
        cases span
  obtain ⟨d, hd, ds⟩ := old
  refine ⟨frame.back id reached ?_, d, hd, ds⟩
  by_contra out
  rw [node_of_size_le doc (Nat.le_of_not_lt out)] at hd
  cases slot <;> cases hd

theorem Edit.remarkAt (edit : Edit o rule doc doc') (sound : doc.Sound source) {s : Span}
    (h : doc'.RemarkAt s) : doc.RemarkAt s := by
  obtain ⟨id, slot, c, reached, mem, span⟩ := h
  obtain ⟨reached, d, mem, span⟩ := edit.remarkIn sound ⟨reached, c, mem, span⟩
  exact ⟨id, slot, d, reached, mem, span⟩

theorem Frame.text?_eq (frame : doc.Frame doc') {id : NodeId} (lt : id < doc.nodes.size) :
    doc'.text? id = doc.text? id := by
  unfold text?
  rw [(frame.same id lt).1]

def InText (doc : Document) (s : Span) : Prop :=
  ∃ j u r, doc.Reaches j ∧ doc.text? j = some u ∧ doc.span j = some r ∧ r.lo ≤ s.lo ∧ s.hi ≤ r.hi

theorem Edit.new_spanned (edit : Edit o rule doc doc') (sound : doc.Sound source) {id : NodeId}
    {s : Span} (new : doc.nodes.size ≤ id) (span : doc'.span id = some s) :
    doc'.text? id ≠ none ∧ doc.InText s ∧ doc'.Whole id := by
  have outside : ∀ {d : Document}, d.nodes.size = doc.nodes.size → d.span id ≠ some s := by
    intro d size span
    rw [span_of_node (node_of_size_le d (by rw [size]; exact new))] at span
    cases span
  cases edit with
  | extend => exact absurd span (outside (size_update ..))
  | beside =>
    rw [appendComment_eq] at span
    exact absurd span (outside (size_update ..))
  | behind =>
    rw [appendComment_eq] at span
    exact absurd span (outside (size_update ..))
  | fill reached =>
    obtain ⟨-, size, node⟩ := addPlaceholder_spec (sound.reaches_lt reached)
    rcases Nat.lt_or_eq_of_le new with lt | rfl
    · rw [span_of_node (node_of_size_le _ (by rw [size]; exact lt))] at span
      cases span
    · rw [span_of_node node] at span
      cases span
  | @cut _ q j A C parts r reached markup span' settled recut =>
    have hold := recut.splice.holds_of_mem (List.mem_singleton_self j)
    have ok := sound.each j (reached.child hold)
    have inside : id ∈ List.range' doc.nodes.size parts.length := by
      rcases Nat.lt_or_ge id doc'.nodes.size with lt | ge
      · rw [recut.size] at lt
        exact List.mem_range'_1.mpr ⟨new, lt⟩
      · rw [span_of_node (node_of_size_le _ ge)] at span
        cases span
    obtain ⟨i, u, -, part, node, -, -, low, high⟩ := recut.fragment ok span' inside
    rw [span_of_node node] at span
    cases span
    have value := text?_of_node (t := u) node rfl
    refine ⟨?_, ⟨j, _, r, reached.child hold, recut.value, span', low, high⟩, fun t ht => ?_⟩
    · rw [value]
      exact Option.some_ne_none u
    · rw [value] at ht
      exact Option.some.inj ht ▸ settled u (List.mem_of_getElem? part)
  | among _ _ _ _ _ _ _ _ noted =>
    rw [noted.spanless_new new] at span
    cases span
  | last _ _ _ _ _ noted =>
    rw [noted.spanless_new new] at span
    cases span

theorem Edit.clear (edit : Edit o rule doc doc') (sound : doc.Sound source) (clear : doc.Clear) :
    doc'.Clear := by
  intro r id t s remark reached value span
  have frame := (edit.frame sound).1
  rcases Nat.lt_or_ge id doc.nodes.size with lt | new
  · rw [frame.text?_eq lt] at value
    rw [(frame.same id lt).2] at span
    exact clear r id t s (edit.remarkAt sound remark) (frame.back id reached lt) value span
  · obtain ⟨-, ⟨j, u, w, hj, text, whole, low, high⟩, -⟩ := edit.new_spanned sound new span
    have := clear r j u w (edit.remarkAt sound remark) hj text whole
    omega

theorem Edits.clear (edits : Edits o rule doc doc') (sound : doc.Sound source)
    (clear : doc.Clear) : doc'.Clear := by
  induction edits with
  | refl => exact clear
  | tail before edit ih => exact edit.clear (Edits.sound before sound) ih

end Quell.Document
