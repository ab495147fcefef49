import Quell.Proofs.Annotate.Fronted
import Quell.Proofs.Annotate.Snug
import Quell.Proofs.Markup.Clean

/-!
What the children of an element show.

Neighbouring texts are one text, of which `Text.clean` is shown; a markup comment shows nothing; any
other child shows itself. `Smooth` says of an element that nothing is seen of the cuts in its texts: a
text has content on one line only or is kept whole, and it starts with neither space nor tab or else
stands on the line on which what is in front of it starts. A markup comment never comes directly in
front of the latter.
-/
namespace Quell.Document

open Text Relation

abbrev Content := List (Char ⊕ NodeId)

def shown (t : Text) : Content := t.clean.map .inl

/-- What a child shows that is not text. -/
def mark (doc : Document) (id : NodeId) : Content :=
  if (doc.commentSlot id).isSome then [] else [.inr id]

def contentFrom (doc : Document) (run : Text) : List NodeId → Content
  | [] => shown run
  | id :: ids =>
    match doc.text? id with
    | some t => doc.contentFrom (run ++ t) ids
    | none => shown run ++ doc.mark id ++ doc.contentFrom [] ids

/-- What the children of an element show, the tags among them. -/
def content (doc : Document) (p : NodeId) : Content := doc.contentFrom [] (doc.children p)

/-- Content without blank characters. -/
def inked (content : Content) : Content :=
  content.filter fun
    | .inl c => !isBlank c
    | .inr _ => true

def headText (doc : Document) : List NodeId → Text
  | [] => []
  | id :: ids =>
    match doc.text? id with
    | some t => t ++ doc.headText ids
    | none => []

def Level (doc : Document) (line : Nat) : List NodeId → Prop
  | [] => True
  | id :: ids =>
    (∀ s ∈ doc.span id, s.startLine = line) ∧
      match doc.text? id with
      | some t => '\n' ∈ t ∨ doc.Level line ids
      | none => True

def Lone (doc : Document) (kept : NodeId → Prop) : List NodeId → Prop
  | [] => False
  | id :: ids =>
    match doc.text? id with
    | some t => layout t = true ∧ doc.Lone kept ids ∨ kept id ∧ layout (doc.headText ids) = true
    | none => False

def anchor (doc : Document) (p : NodeId) (A : List NodeId) : NodeId :=
  match A.getLast? with
  | some b => if doc.kind b = .openingTag then p else b
  | none => p

structure SmoothAt (doc : Document) (kept : NodeId → Prop) (p : NodeId) (A B : List NodeId) :
    Prop where
  margins : Margins (doc.headText B)
  row : OneRow (doc.headText B) ∨ doc.Lone kept B
  front : Flush (doc.headText B) ∨ ∃ s, doc.span (doc.anchor p A) = some s ∧
    doc.Level s.startLine B

def SmoothOn (doc : Document) (kept : NodeId → Prop) (p : NodeId) (ids : List NodeId) : Prop :=
  ∀ A B, ids = A ++ B → (∀ b ∈ A.getLast?, doc.text? b = none) → doc.SmoothAt kept p A B

/-- Nothing is seen of cuts in the texts of an element, if some children are kept whole. -/
def Smooth (doc : Document) (kept : NodeId → Prop) (p : NodeId) : Prop :=
  doc.SmoothOn kept p (doc.children p)

section Test

variable (doc : Document) (kept : NodeId → Prop) [DecidablePred kept] (p : NodeId)

instance decidableLevel (line : Nat) : (ids : List NodeId) → Decidable (doc.Level line ids)
  | [] => .isTrue trivial
  | id :: ids =>
    have := decidableLevel line ids
    decidable_of_iff ((∀ s ∈ doc.span id, s.startLine = line) ∧
        ∀ t ∈ doc.text? id, '\n' ∈ t ∨ doc.Level line ids) (by
      rw [Level]
      cases doc.text? id <;> simp)

instance decidableLone : (ids : List NodeId) → Decidable (doc.Lone kept ids)
  | [] => .isFalse id
  | id :: ids =>
    have := decidableLone ids
    decidable_of_iff ((doc.text? id).isSome = true ∧ ∀ t ∈ doc.text? id,
        layout t = true ∧ doc.Lone kept ids ∨ kept id ∧ layout (doc.headText ids) = true) (by
      rw [Lone]
      cases doc.text? id <;> simp)

instance (A B : List NodeId) : Decidable (doc.SmoothAt kept p A B) :=
  decidable_of_iff (Margins (doc.headText B) ∧ (OneRow (doc.headText B) ∨ doc.Lone kept B) ∧
      (Flush (doc.headText B) ∨ ∃ s ∈ doc.span (doc.anchor p A), doc.Level s.startLine B))
    ⟨fun h => ⟨h.1, h.2.1, h.2.2⟩, fun h => ⟨h.margins, h.row, h.front⟩⟩

instance (ids : List NodeId) : Decidable (doc.SmoothOn kept p ids) :=
  decidable_of_iff (∀ i < ids.length + 1, (∀ b ∈ (ids.take i).getLast?, doc.text? b = none) →
      doc.SmoothAt kept p (ids.take i) (ids.drop i)) (by
    constructor
    · rintro each A B rfl solid
      have here := each A.length (by rw [List.length_append]; omega)
      rw [List.take_left, List.drop_left] at here
      exact here solid
    · intro smooth i _ solid
      exact smooth _ _ (List.take_append_drop i ids).symm solid)

instance : Decidable (doc.Smooth kept p) := inferInstanceAs (Decidable (doc.SmoothOn kept p _))

end Test

section Runs

variable {doc : Document} {kept : NodeId → Prop} {p id : NodeId} {ids A B C D E Z : List NodeId}
variable {line : Nat}

theorem headText_append (texts : ∀ d ∈ D, doc.text? d ≠ none) (B : List NodeId) :
    doc.headText (D ++ B) = doc.headText D ++ doc.headText B := by
  induction D with
  | nil => rfl
  | cons d D ih =>
    obtain ⟨t, value⟩ := Option.ne_none_iff_exists'.mp (texts d (by simp))
    rw [List.cons_append, headText, headText, value]
    dsimp only
    rw [ih fun x hx => texts x (by simp [hx]), List.append_assoc]

theorem headText_solid (solid : ∃ e ∈ E, doc.text? e = none) (B : List NodeId) :
    doc.headText (E ++ B) = doc.headText E := by
  induction E with
  | nil => simp at solid
  | cons e E ih =>
    rw [List.cons_append, headText, headText]
    cases value : doc.text? e with
    | none => rfl
    | some t =>
      dsimp only
      rw [ih (by simpa [value] using solid)]

theorem lone_append (texts : ∀ d ∈ D, doc.text? d ≠ none) : doc.Lone kept (D ++ C) ↔
    layout (doc.headText D) = true ∧ doc.Lone kept C ∨
      doc.Lone kept D ∧ layout (doc.headText C) = true := by
  induction D with
  | nil => simp [headText, layout, Lone]
  | cons d D ih =>
    obtain ⟨t, value⟩ := Option.ne_none_iff_exists'.mp (texts d (by simp))
    have texts' : ∀ x ∈ D, doc.text? x ≠ none := fun x hx => texts x (by simp [hx])
    rw [List.cons_append, Lone, Lone, headText, value]
    dsimp only
    rw [ih texts', headText_append texts', layout_append, layout_append, Bool.and_eq_true,
      Bool.and_eq_true]
    tauto

theorem lone_solid (solid : ∃ e ∈ E, doc.text? e = none) (B : List NodeId) :
    doc.Lone kept (E ++ B) ↔ doc.Lone kept E := by
  induction E with
  | nil => simp at solid
  | cons e E ih =>
    rw [List.cons_append, Lone, Lone]
    cases value : doc.text? e with
    | none => exact Iff.rfl
    | some t =>
      have solid' : ∃ x ∈ E, doc.text? x = none := by simpa [value] using solid
      dsimp only
      rw [ih solid', headText_solid solid']

theorem Lone.mono {kept' : NodeId → Prop} (more : ∀ x, kept x → kept' x) (lone : doc.Lone kept ids) :
    doc.Lone kept' ids := by
  induction ids with
  | nil => exact lone
  | cons x ids ih =>
    rw [Lone] at lone ⊢
    cases value : doc.text? x with
    | none => simp [value] at lone
    | some t =>
      rw [value] at lone
      exact lone.imp (fun h => ⟨h.1, ih h.2⟩) fun h => ⟨more x h.1, h.2⟩

/-- The more is kept, the less is seen. -/
theorem Smooth.mono {kept' : NodeId → Prop} (smooth : doc.Smooth kept p)
    (more : ∀ x, kept x → kept' x) : doc.Smooth kept' p := by
  intro A B split solid
  obtain ⟨margins, row, front⟩ := smooth A B split solid
  exact ⟨margins, row.imp_right (Lone.mono more), front⟩

theorem contentFrom_texts (texts : ∀ d ∈ D, doc.text? d ≠ none) (run : Text) (B : List NodeId) :
    doc.contentFrom run (D ++ B) = doc.contentFrom (run ++ doc.headText D) B := by
  induction D generalizing run with
  | nil =>
    rw [headText, List.append_nil]
    rfl
  | cons d D ih =>
    obtain ⟨t, value⟩ := Option.ne_none_iff_exists'.mp (texts d (by simp))
    rw [List.cons_append, contentFrom, headText, value]
    dsimp only
    rw [ih fun x hx => texts x (by simp [hx]), List.append_assoc]

def contentBehind (doc : Document) : List NodeId → Content
  | [] => []
  | id :: ids =>
    match doc.text? id with
    | some _ => doc.contentBehind ids
    | none => doc.mark id ++ doc.contentFrom [] ids

theorem contentFrom_eq (run : Text) (ids : List NodeId) :
    doc.contentFrom run ids = shown (run ++ doc.headText ids) ++ doc.contentBehind ids := by
  induction ids generalizing run with
  | nil => rw [contentFrom, headText, contentBehind, List.append_nil, List.append_nil]
  | cons id ids ih =>
    rw [contentFrom, headText, contentBehind]
    cases value : doc.text? id with
    | none =>
      dsimp only
      rw [List.append_nil, List.append_assoc]
    | some t =>
      dsimp only
      rw [ih, List.append_assoc]

theorem contentFrom_append (solid : ∀ b ∈ A.getLast?, doc.text? b = none) (run : Text)
    (start : A = [] → run = []) (B : List NodeId) :
    doc.contentFrom run (A ++ B) = doc.contentFrom run A ++ doc.contentFrom [] B := by
  have nil : shown [] = [] := rfl
  induction A generalizing run with
  | nil =>
    rw [start rfl, contentFrom, nil]
    rfl
  | cons a A ih =>
    have solid' : A ≠ [] → ∀ b ∈ A.getLast?, doc.text? b = none := by
      intro ne b hb
      refine solid b ?_
      rw [List.getLast?_cons_of_ne_nil ne]
      exact hb
    rw [List.cons_append, contentFrom, contentFrom]
    cases value : doc.text? a with
    | none =>
      dsimp only
      by_cases ne : A = []
      · subst ne
        rw [List.nil_append, contentFrom, nil, List.append_nil]
      · rw [ih (solid' ne) [] fun _ => rfl, ← List.append_assoc]
    | some t =>
      dsimp only
      by_cases ne : A = []
      · subst ne
        have := solid a rfl
        rw [value] at this
        cases this
      · exact ih (solid' ne) _ fun h => absurd h ne

/-- The siblings fall into those up to the last that is not text, and the texts behind. -/
theorem exists_run (doc : Document) (ids : List NodeId) : ∃ A D, ids = A ++ D ∧
    (∀ b ∈ A.getLast?, doc.text? b = none) ∧ ∀ d ∈ D, doc.text? d ≠ none := by
  induction ids using List.reverseRecOn with
  | nil => exact ⟨[], [], rfl, nofun, nofun⟩
  | append_singleton ids id ih =>
    cases value : doc.text? id with
    | none => exact ⟨ids ++ [id], [], by simp, by simpa using value, nofun⟩
    | some t =>
      obtain ⟨A, D, rfl, solid, texts⟩ := ih
      refine ⟨A, D ++ [id], by simp, solid, fun d hd => ?_⟩
      rcases List.mem_append.mp hd with hd | hd
      · exact texts d hd
      · rw [List.mem_singleton.mp hd, value]
        exact nofun

theorem tailText_reverse (solid : ∀ b ∈ A.getLast?, doc.text? b = none)
    (texts : ∀ d ∈ D, doc.text? d ≠ none) : doc.tailText (A ++ D).reverse = doc.headText D := by
  induction D using List.reverseRecOn with
  | nil =>
    rw [List.append_nil, headText]
    rcases List.eq_nil_or_concat A with rfl | ⟨A, b, rfl⟩
    · rfl
    · rw [List.concat_eq_append] at *
      rw [List.reverse_append, List.reverse_singleton, List.singleton_append, tailText,
        solid b (by simp)]
  | append_singleton D d ih =>
    have texts' : ∀ x ∈ D, doc.text? x ≠ none := fun x hx => texts x (by simp [hx])
    obtain ⟨t, value⟩ := Option.ne_none_iff_exists'.mp (texts d (by simp))
    have one : doc.headText [d] = t := by
      rw [headText, value]
      exact List.append_nil t
    rw [← List.append_assoc, List.reverse_append, List.reverse_singleton, List.singleton_append,
      tailText, value, headText_append texts', one]
    dsimp only
    rw [ih texts']

theorem tailText_concat {f : NodeId} (solid : doc.text? f = none) (ids : List NodeId) :
    doc.tailText (ids ++ [f]) = doc.tailText ids := by
  induction ids with
  | nil => simp [tailText, solid]
  | cons id ids ih => rw [List.cons_append, tailText, tailText, ih]

theorem Level.append (level : doc.Level line (E ++ C)) (next : doc.Level line Z) :
    doc.Level line (E ++ Z) := by
  induction E with
  | nil => exact next
  | cons e E ih =>
    rw [List.cons_append, Level] at level ⊢
    refine ⟨level.1, ?_⟩
    have rest := level.2
    cases value : doc.text? e with
    | none => trivial
    | some t =>
      rw [value] at rest
      exact rest.imp_right ih

/-- Texts without a line feed are passed. -/
theorem Level.behind (level : doc.Level line (D ++ C)) (texts : ∀ d ∈ D, doc.text? d ≠ none)
    (free : '\n' ∉ doc.headText D) : doc.Level line C := by
  induction D with
  | nil => exact level
  | cons d D ih =>
    obtain ⟨t, value⟩ := Option.ne_none_iff_exists'.mp (texts d (by simp))
    rw [headText, value] at free
    rw [List.cons_append, Level, value] at level
    dsimp only at free level
    rw [List.mem_append, not_or] at free
    rcases level.2 with breaks | rest
    · exact absurd breaks free.1
    · exact ih rest (fun x hx => texts x (by simp [hx])) free.2

end Runs

inductive Pieces (doc : Document) : Nat → List Text → List NodeId → Prop where
  | nil {line : Nat} : Pieces doc line [] []
  | cons {line : Nat} {t : Text} {ts : List Text} {n : NodeId} {ns : List NodeId} :
      doc.text? n = some t → (∀ s ∈ doc.span n, s.startLine = line) →
      Pieces doc (line + breaks t) ts ns → Pieces doc line (t :: ts) (n :: ns)

namespace Pieces

variable {doc : Document} {line : Nat} {ts : List Text} {ns : List NodeId}

theorem texts (pieces : doc.Pieces line ts ns) : ∀ n ∈ ns, doc.text? n ≠ none := by
  induction pieces with
  | nil => exact nofun
  | cons value _ _ ih =>
    intro m hm
    rcases List.mem_cons.mp hm with rfl | hm
    · rw [value]
      exact nofun
    · exact ih m hm

theorem headText_eq (pieces : doc.Pieces line ts ns) : doc.headText ns = ts.flatten := by
  induction pieces with
  | nil => rfl
  | cons value _ _ ih =>
    rw [headText, value, List.flatten_cons]
    dsimp only
    rw [ih]

theorem level (pieces : doc.Pieces line ts ns) {C : List NodeId}
    (next : '\n' ∈ ts.flatten ∨ doc.Level line C) : doc.Level line (ns ++ C) := by
  induction pieces with
  | nil => simpa using next
  | @cons line t ts n ns value start _ ih =>
    rw [List.cons_append, Level, value]
    refine ⟨start, ?_⟩
    by_cases mem : '\n' ∈ t
    · exact .inl mem
    · have none : breaks t = 0 := List.count_eq_zero.mpr mem
      rw [none] at ih
      refine .inr (ih ?_)
      simpa [mem] using next

end Pieces

section Cut

variable {doc doc' : Document} {p id : NodeId} {A C ns : List NodeId} {line : Nat} {ts : List Text}

/-- The parts of a cut text stand one behind the other. -/
theorem Recut.pieces {parts : List Text} {s : Span} (recut : doc.Recut doc' p A id C parts)
    (span : doc.span id = some s) :
    doc'.Pieces s.startLine parts (List.range' doc.nodes.size parts.length) := by
  have tail : ∀ rest front : List Text, parts = front ++ rest →
      doc'.Pieces (s.startLine + breaks front.flatten) rest
        (List.range' (doc.nodes.size + front.length) rest.length) := by
    intro rest
    induction rest with
    | nil => exact fun _ _ => .nil
    | cons t rest ih =>
      intro front split
      have node := recut.part front.length t (by simp [split])
      have next := ih (front ++ [t]) (by simp [split])
      have start : breaks (front ++ [t]).flatten = breaks front.flatten + breaks t := by
        simp [breaks]
      rw [start, List.length_append, List.length_singleton, ← Nat.add_assoc,
        ← Nat.add_assoc] at next
      refine .cons (text?_of_node node rfl) (fun u hu => ?_) next
      rw [span_of_node node, span, split, List.take_left] at hu
      cases hu
      rfl
  exact tail parts [] rfl

theorem contentFrom_cut (pieces : doc.Pieces line ts ns) (value : doc.text? id = some ts.flatten)
    (run : Text) (A C : List NodeId) :
    doc.contentFrom run (A ++ ns ++ C) = doc.contentFrom run (A ++ [id] ++ C) := by
  induction A generalizing run with
  | nil =>
    rw [List.nil_append, List.nil_append, contentFrom_texts pieces.texts, pieces.headText_eq,
      List.singleton_append, contentFrom, value]
  | cons a A ih =>
    simp only [List.cons_append, contentFrom, ih]

theorem headText_cut (pieces : doc.Pieces line ts ns) (value : doc.text? id = some ts.flatten)
    (D C : List NodeId) : doc.headText (D ++ ns ++ C) = doc.headText (D ++ [id] ++ C) := by
  induction D with
  | nil =>
    rw [List.nil_append, List.nil_append, headText_append pieces.texts, pieces.headText_eq,
      List.singleton_append, headText, value]
  | cons d D ih => simp only [List.cons_append, headText, ih]

theorem Lone.cut {kept : NodeId → Prop} {D : List NodeId} (pieces : doc.Pieces line ts ns)
    (value : doc.text? id = some ts.flatten) (gone : ¬ kept id)
    (lone : doc.Lone kept (D ++ [id] ++ C)) : doc.Lone kept (D ++ ns ++ C) := by
  induction D with
  | nil =>
    rw [List.nil_append, List.singleton_append, Lone, value] at lone
    rcases lone with ⟨lay, rest⟩ | ⟨whole, -⟩
    · rw [List.nil_append, lone_append pieces.texts, pieces.headText_eq]
      exact .inl ⟨lay, rest⟩
    · exact absurd whole gone
  | cons d D ih =>
    simp only [List.cons_append, Lone] at lone ⊢
    cases text : doc.text? d with
    | none => simp [text] at lone
    | some t =>
      rw [text] at lone
      dsimp only at lone ⊢
      rw [headText_cut pieces value]
      exact lone.imp_left fun h => ⟨h.1, ih h.2⟩

theorem Level.cut {n : Nat} {D : List NodeId} (pieces : doc.Pieces n ts ns)
    (value : doc.text? id = some ts.flatten) (span : ∃ s, doc.span id = some s ∧ s.startLine = n)
    (level : doc.Level line (D ++ [id] ++ C)) : doc.Level line (D ++ ns ++ C) := by
  induction D with
  | nil =>
    rw [List.nil_append, List.singleton_append, Level, value] at level
    obtain ⟨s, hs, rfl⟩ := span
    obtain rfl : s.startLine = line := level.1 s hs
    exact pieces.level level.2
  | cons d D ih =>
    simp only [List.cons_append, Level] at level ⊢
    refine ⟨level.1, ?_⟩
    have rest := level.2
    cases text : doc.text? d with
    | none => trivial
    | some t =>
      rw [text] at rest
      exact rest.imp_right ih

theorem split_around {F B M : List NodeId} (split : A ++ M ++ C = F ++ B)
    (solid : ∀ b ∈ F.getLast?, doc.text? b = none) (texts : ∀ m ∈ M, doc.text? m ≠ none) :
    (∃ D, A = F ++ D ∧ B = D ++ M ++ C) ∨ ∃ E, E ≠ [] ∧ F = A ++ M ++ E ∧ C = E ++ B := by
  have inside : ∀ M', M' <+: M → F = A ++ M' → M' = [] := by
    intro M' front e
    rcases List.eq_nil_or_concat M' with h | ⟨K, m, rfl⟩
    · exact h
    · rw [List.concat_eq_append] at front e
      refine absurd (solid m ?_) (texts m (front.subset (by simp)))
      rw [e, ← List.append_assoc, List.getLast?_concat]
      rfl
  rw [List.append_assoc] at split
  rcases List.append_eq_append_iff.mp split with ⟨K, rfl, behind⟩ | ⟨D, rfl, rfl⟩
  · rcases List.append_eq_append_iff.mp behind with ⟨E, rfl, rfl⟩ | ⟨E, rfl, rfl⟩
    · by_cases none : E = []
      · subst none
        obtain rfl := inside M (List.prefix_refl M) (by simp)
        exact .inl ⟨[], by simp, by simp⟩
      · exact .inr ⟨E, none, by simp, rfl⟩
    · obtain rfl := inside K (List.prefix_append K E) rfl
      exact .inl ⟨[], by simp, by simp⟩
  · exact .inl ⟨D, rfl, by simp⟩

theorem anchor_append {E : List NodeId} (ne : E ≠ []) (A : List NodeId) :
    doc.anchor p (A ++ E) = doc.anchor p E := by
  unfold anchor
  rw [List.getLast?_append_of_ne_nil _ ne]

theorem SmoothOn.cut {kept : NodeId → Prop} (pieces : doc.Pieces line ts ns)
    (value : doc.text? id = some ts.flatten)
    (span : ∃ s, doc.span id = some s ∧ s.startLine = line) (gone : ¬ kept id)
    (smooth : doc.SmoothOn kept p (A ++ [id] ++ C)) : doc.SmoothOn kept p (A ++ ns ++ C) := by
  intro F B split solid
  rcases split_around split solid pieces.texts with ⟨D, rfl, rfl⟩ | ⟨E, ne, rfl, rfl⟩
  · obtain ⟨margins, row, front⟩ := smooth F (D ++ [id] ++ C) (by simp) solid
    have same := headText_cut pieces value D C
    refine ⟨by rwa [same], ?_, ?_⟩
    · rw [same]
      exact row.imp_right fun lone => lone.cut pieces value gone
    · rw [same]
      exact front.imp_right fun ⟨s, hs, level⟩ => ⟨s, hs, level.cut pieces value span⟩
  · have solid' : ∀ b ∈ (A ++ [id] ++ E).getLast?, doc.text? b = none := by
      rw [List.getLast?_append_of_ne_nil _ ne] at solid ⊢
      exact solid
    obtain ⟨margins, row, front⟩ := smooth (A ++ [id] ++ E) B (by simp) solid'
    refine ⟨margins, row, ?_⟩
    rw [anchor_append ne] at front ⊢
    exact front

end Cut

structure NoteAt (doc : Document) (U : List NodeId) (h g : NodeId) (lead gap : Text) : Prop where
  texts : ∀ u ∈ U, doc.text? u ≠ none
  lead : doc.headText U = lead
  free : ∀ u ∈ U ++ [h], doc.span u = none
  hole : doc.text? h = none
  slot : doc.mark h = []
  gap : doc.text? g = some gap

def UnseenBetween (doc : Document) (A C : List NodeId) (lead gap : Text) : Prop :=
  ∀ F D, A = F ++ D → (∀ b ∈ F.getLast?, doc.text? b = none) → (∀ d ∈ D, doc.text? d ≠ none) →
    Unseen (doc.headText D) lead gap (doc.headText C)

section Note

variable {doc : Document} {p h g : NodeId} {A C U : List NodeId} {lead gap : Text} {line : Nat}

theorem NoteAt.headText_eq (note : doc.NoteAt U h g lead gap) (Z : List NodeId) :
    doc.headText (U ++ h :: Z) = lead := by
  rw [headText_append note.texts, note.lead, headText, note.hole]
  exact List.append_nil lead

theorem NoteAt.level (note : doc.NoteAt U h g lead gap) (Z : List NodeId) :
    doc.Level line (U ++ h :: Z) := by
  have free := note.free
  generalize hU : U = V at free
  have texts := note.texts
  rw [hU] at texts
  clear hU
  induction V with
  | nil =>
    rw [List.nil_append, Level, note.hole, free h (by simp)]
    exact ⟨nofun, trivial⟩
  | cons u V ih =>
    obtain ⟨t, value⟩ := Option.ne_none_iff_exists'.mp (texts u (by simp))
    rw [List.cons_append, Level, value, free u (by simp)]
    refine ⟨nofun, .inr (ih (fun x hx => free x ?_) fun x hx => texts x (by simp [hx]))⟩
    exact List.mem_cons_of_mem u hx

theorem NoteAt.content_eq (note : doc.NoteAt U h g lead gap)
    (unseen : doc.UnseenBetween A C lead gap) :
    doc.contentFrom [] (A ++ (U ++ [h, g]) ++ C) = doc.contentFrom [] (A ++ C) := by
  obtain ⟨F, D, rfl, solid, texts⟩ := doc.exists_run A
  have shows := (unseen F D rfl solid texts).shows
  have old : doc.contentFrom [] (D ++ C) =
      shown (doc.headText D ++ doc.headText C) ++ doc.contentBehind C := by
    rw [contentFrom_texts texts, contentFrom_eq, List.nil_append]
  have new : doc.contentFrom [] (D ++ (U ++ [h, g]) ++ C) =
      shown (doc.headText D ++ lead) ++ (shown (gap ++ doc.headText C) ++ doc.contentBehind C) := by
    have whole : D ++ (U ++ [h, g]) ++ C = D ++ (U ++ (h :: g :: C)) := by simp
    rw [whole, contentFrom_texts texts, contentFrom_texts note.texts, note.lead, contentFrom,
      note.hole]
    dsimp only
    rw [note.slot, contentFrom, note.gap]
    dsimp only
    rw [contentFrom_eq, List.nil_append, List.nil_append, List.append_nil]
  have front : ∀ Z, doc.contentFrom [] (F ++ Z) =
      doc.contentFrom [] F ++ doc.contentFrom [] Z := fun Z =>
    contentFrom_append solid [] (fun _ => rfl) Z
  rw [List.append_assoc, List.append_assoc, front, ← List.append_assoc D, new, List.append_assoc,
    front, old, ← List.append_assoc, ← List.append_assoc, ← List.append_assoc]
  congr 1
  rw [List.append_assoc]
  congr 1
  unfold shown
  rw [← List.map_append, shows]

namespace SmoothAt

variable {kept : NodeId → Prop} {F D Z : List NodeId} (place : doc.SmoothAt kept p F (D ++ C))
variable (note : doc.NoteAt U h g lead gap)

include place note

theorem note_behind (solid : ∃ d ∈ D, doc.text? d = none) :
    doc.SmoothAt kept p F (D ++ (U ++ h :: Z)) := by
  obtain ⟨margins, row, front⟩ := place
  rw [headText_solid solid] at margins row front
  rw [lone_solid solid] at row
  refine ⟨by rwa [headText_solid solid], ?_, ?_⟩
  · rw [headText_solid solid, lone_solid solid]
    exact row
  · rw [headText_solid solid]
    exact front.imp_right fun ⟨s, hs, level⟩ => ⟨s, hs, level.append (note.level _)⟩

theorem note_front (texts : ∀ d ∈ D, doc.text? d ≠ none)
    (cut : Unseen (doc.headText D) lead gap (doc.headText C)) :
    doc.SmoothAt kept p F (D ++ (U ++ h :: Z)) := by
  obtain ⟨-, row, front⟩ := place
  rw [headText_append texts] at row front
  have head : doc.headText (D ++ (U ++ h :: Z)) = doc.headText D ++ lead := by
    rw [headText_append texts, note.headText_eq]
  refine ⟨by rw [head]; exact cut.front, ?_, ?_⟩
  · rw [head]
    rcases row with row | lone
    · exact .inl (cut.rows row).1
    · rcases (lone_append texts).mp lone with ⟨lay, -⟩ | ⟨lone, -⟩
      · exact .inl (oneRow_of_layout (by rw [layout_append, lay, cut.layouts.1]; rfl))
      · exact .inr ((lone_append texts).mpr (.inr ⟨lone, by rw [note.headText_eq]; exact cut.layouts.1⟩))
  · rw [head]
    rcases front with flush | ⟨s, hs, level⟩
    · refine .inl fun c hc => flush c ?_
      cases start : doc.headText D with
      | nil =>
        rw [start, cut.led start] at hc
        cases hc
      | cons d ds =>
        rw [start] at hc
        exact hc
    · exact .inr ⟨s, hs, level.append (note.level _)⟩

theorem note_back (texts : ∀ d ∈ D, doc.text? d ≠ none)
    (cut : Unseen (doc.headText D) lead gap (doc.headText C)) (A : List NodeId) :
    doc.SmoothAt kept p A (g :: C) := by
  have row := place.row
  rw [headText_append texts] at row
  have head : doc.headText (g :: C) = gap ++ doc.headText C := by rw [headText, note.gap]
  refine ⟨by rw [head]; exact cut.back, ?_, .inl ?_⟩
  · rw [head]
    rcases row with row | lone
    · exact .inl (cut.rows row).2
    · rcases (lone_append texts).mp lone with ⟨-, lone⟩ | ⟨-, lay⟩
      · right
        rw [Lone, note.gap]
        exact .inl ⟨cut.layouts.2, lone⟩
      · exact .inl (oneRow_of_layout (by rw [layout_append, lay, cut.layouts.2]; rfl))
  · obtain ⟨c, w, e, tab⟩ := cut.starts
    rw [head, e]
    intro d hd
    cases hd
    exact tab

end SmoothAt

theorem SmoothOn.note {kept : NodeId → Prop} (note : doc.NoteAt U h g lead gap)
    (unseen : doc.UnseenBetween A C lead gap) (smooth : doc.SmoothOn kept p (A ++ C)) :
    doc.SmoothOn kept p (A ++ (U ++ [h, g]) ++ C) := by
  intro F B split solid
  have whole : A ++ (U ++ [h, g]) ++ C = A ++ U ++ (h :: g :: C) := by simp
  rw [whole] at split
  rcases split_around split solid note.texts with ⟨D, rfl, rfl⟩ | ⟨E, ne, rfl, behind⟩
  · obtain place := smooth F (D ++ C) (by simp) solid
    rw [List.append_assoc]
    by_cases solid' : ∃ d ∈ D, doc.text? d = none
    · exact place.note_behind note solid'
    · have texts : ∀ d ∈ D, doc.text? d ≠ none := fun d hd none => solid' ⟨d, hd, none⟩
      exact place.note_front note texts (unseen F D rfl solid texts)
  · cases E with
    | nil => exact absurd rfl ne
    | cons e E =>
      rw [List.cons_append] at behind
      obtain ⟨rfl, rest⟩ := List.cons.inj behind
      cases E with
      | nil =>
        -- Behind the comment: the line break that was put in comes first.
        obtain ⟨F', D, rfl, solid', texts⟩ := doc.exists_run A
        obtain rfl : g :: C = B := rest
        exact (smooth F' (D ++ C) (by simp) solid').note_back note texts
          (unseen F' D rfl solid' texts) _
      | cons e E =>
        rw [List.cons_append] at rest
        obtain ⟨rfl, rfl⟩ := List.cons.inj rest
        have later : E ≠ [] := by
          rintro rfl
          have := solid g (by rw [List.getLast?_append_of_ne_nil _ ne]; rfl)
          rw [note.gap] at this
          cases this
        have last : ∀ Z : List NodeId, (Z ++ h :: g :: E).getLast? = E.getLast? := by
          intro Z
          rw [List.getLast?_append_of_ne_nil _ ne, List.getLast?_cons_of_ne_nil (by simp),
            List.getLast?_cons_of_ne_nil later]
        rw [last] at solid
        obtain ⟨margins, row, front⟩ := smooth (A ++ E) B (by simp) (by
          rw [List.getLast?_append_of_ne_nil _ later]
          exact solid)
        refine ⟨margins, row, ?_⟩
        have same : doc.anchor p (A ++ U ++ h :: g :: E) = doc.anchor p (A ++ E) := by
          unfold anchor
          rw [last, List.getLast?_append_of_ne_nil _ later]
        rw [same]
        exact front

end Note

end Quell.Document
