import Quell.Proofs.Annotate.Stands

/-!
Calls in documents of which one follows the other.

What a call comes to is told from the siblings and the markup comments that it looks at. So it comes
to the same under new names, wherever the documents agree on these: `Stands.follow`.
-/
namespace Quell

def Target.map (f : NodeId → NodeId) : Target → Target
  | .node id p => .node (f id) (p.map f)
  | .blockTail block => .blockTail (f block)

namespace Document

open Text Relation

variable {source : Text} {o : AnnotateOptions} {rule : Text} {line : Nat}
variable {f : NodeId → NodeId} {E : NodeId → Prop} {K : NodeId → Slot → Prop}
variable {u u' v v' : Document} {id p first : NodeId}

/-- The same markup comments are directives, at the same places. -/
structure NotesAgree (f : NodeId → NodeId) (E : NodeId → Prop) (u v : Document) : Prop where
  holes : ∀ j, u.kind j = .hole → ¬ E j
  directed : ∀ j, (v.node (f j)).directed .inner = (u.node j).directed .inner

section Follow

variable (h : u.Follows f E K v)
include h

theorem Follows.commentSlot (notes : u.NotesAgree f E v) (j : NodeId) :
    v.commentSlot (f j) = (u.commentSlot j).map f := by
  unfold Document.commentSlot
  rw [h.kind]
  cases kind : u.kind j with
  | hole =>
    rw [h.children j (notes.holes j kind)]
    cases u.children j with
    | nil => rfl
    | cons c cs =>
      change (if v.kind (f c) = .emptyHole then some (f c) else none) = Option.map f _
      rw [h.kind]
      dsimp only
      split_ifs <;> rfl
  | _ => rfl

theorem Follows.nearestSlot (notes : u.NotesAgree f E v) (X : List NodeId) :
    v.nearestSlot (X.map f) = (u.nearestSlot X).map f := by
  unfold Document.nearestSlot
  rw [← List.map_reverse, List.find?_map]
  have same : ((fun x => !v.isBlankText x) ∘ f) = fun x => !u.isBlankText x :=
    funext fun x => congrArg (! ·) (h.isBlankText x)
  rw [same]
  cases X.reverse.find? (!u.isBlankText ·) with
  | none => rfl
  | some x => exact h.commentSlot notes x

theorem Follows.tailText (ids : List NodeId) : v.tailText (ids.map f) = u.tailText ids := by
  induction ids with
  | nil => rfl
  | cons x ids ih => rw [List.map_cons, Document.tailText, Document.tailText, h.text?, ih]

theorem Follows.layout {items closing : List NodeId} (layout : u.Layout p first items closing)
    (free : ¬ E p) : v.Layout (f p) (f first) (items.map f) (closing.map f) where
  split := by
    rw [h.children p free, layout.split, List.map_cons, List.map_append]
  opening := by
    rw [h.kind, h.span]
    exact layout.opening
  closing := by
    rcases layout.closing with rfl | ⟨c, rfl, kind, span⟩
    · exact .inl rfl
    · exact .inr ⟨f c, rfl, by rw [h.kind, kind], by rw [h.span]; exact span⟩
  items := by
    intro y hy
    obtain ⟨x, hx, rfl⟩ := List.mem_map.mp hy
    rw [h.kind]
    exact layout.items x hx

theorem Follows.onLine (x : NodeId) : v.OnLine line (f x) ↔ u.OnLine line x := by
  unfold OnLine
  rw [h.span, h.text?]

theorem Follows.endsAbove (x : NodeId) : v.EndsAbove line (f x) ↔ u.EndsAbove line x := by
  unfold EndsAbove
  rw [h.span, h.text?]

theorem Follows.lineEnd (x : NodeId) : v.LineEnd (f x) ↔ u.LineEnd x := by
  unfold LineEnd
  rw [h.text?]

theorem Follows.group {X₁ X₂ : List NodeId} (group : u.Group line X₁ X₂) :
    v.Group line (X₁.map f) (X₂.map f) := by
  refine ⟨fun y hy => ?_, fun b hb => ?_⟩
  · obtain ⟨x, hx, rfl⟩ := List.mem_map.mp hy
    exact (h.onLine x).mpr (group.on x hx)
  · rw [List.getLast?_map] at hb
    obtain ⟨x, hx, rfl⟩ := Option.map_eq_some_iff.mp hb
    exact (h.endsAbove x).mpr (group.above x hx)

theorem Follows.ownIndent {X₁ : List NodeId} (x : NodeId) (t : Text) :
    v.OwnIndent (X₁.map f) (f x) t ↔ u.OwnIndent X₁ x t := by
  have ends : (∀ b ∈ (X₁.map f).getLast?, v.LineEnd b) ↔ ∀ b ∈ X₁.getLast?, u.LineEnd b := by
    rw [List.getLast?_map]
    constructor
    · exact fun all b hb => (h.lineEnd b).mp (all (f b) (Option.mem_map_of_mem f hb))
    · intro all b hb
      obtain ⟨x, hx, rfl⟩ := Option.map_eq_some_iff.mp hb
      exact (h.lineEnd x).mpr (all x hx)
  unfold OwnIndent
  rw [h.text?, ends]

theorem Follows.no_ownIndent {X₁ X₂ : List NodeId}
    (alien : ∀ x G t, X₂ = x :: G → ¬ u.OwnIndent X₁ x t) :
    ∀ x G t, X₂.map f = x :: G → ¬ v.OwnIndent (X₁.map f) x t := by
  intro y D t shape own
  obtain ⟨x, G, rfl, rfl, rfl⟩ := List.map_eq_cons_iff.mp shape
  exact alien x G t rfl ((h.ownIndent x t).mp own)

theorem Follows.parting {X₁ X₂ Z B G : List NodeId} {front : List Text} {indent : Text}
    (parting : u.Parting X₁ X₂ Z B G front indent) :
    v.Parting (X₁.map f) (X₂.map f) (Z.map f) (B.map f) (G.map f) front indent := by
  cases parting with
  | @own x _ _ shape own =>
    rw [List.map_append, List.map_singleton]
    exact .own (by rw [shape, List.map_cons]) ((h.ownIndent x _).mpr own)
  | @split _ b a run shape alien value ne blank free =>
    rw [List.map_singleton]
    exact .split (by rw [shape, List.map_append, List.map_singleton]) (h.no_ownIndent alien)
      (by rw [h.text?, value]) ne blank free
  | flush alien plain =>
    refine .flush (h.no_ownIndent alien) fun b hb t value => ?_
    rw [List.getLast?_map] at hb
    obtain ⟨x, hx, rfl⟩ := Option.map_eq_some_iff.mp hb
    rw [h.text?] at value
    exact plain x hx t value

theorem Follows.among_iff (notes : u.NotesAgree f E v) : v.Among (f id) (f p) ↔ u.Among id p := by
  have beside : v.Beside (f id) (f p) ↔ u.Beside id p := by
    unfold Beside
    rw [h.kind, h.kind]
  have own : (∀ e, v.commentSlot (f id) = some e → (v.node e).directed .inner = false) ↔
      ∀ e, u.commentSlot id = some e → (u.node e).directed .inner = false := by
    rw [h.commentSlot notes]
    constructor
    · intro own e slot
      rw [← notes.directed]
      exact own (f e) (by rw [slot]; rfl)
    · intro own y hy
      obtain ⟨e, slot, rfl⟩ := Option.map_eq_some_iff.mp hy
      rw [notes.directed]
      exact own e slot
  refine ⟨fun among => ⟨?_, mt beside.mpr among.beside, ?_, own.mp among.own⟩,
    fun among => ⟨?_, mt beside.mp among.beside, ?_, own.mpr among.own⟩⟩
  · rw [← h.kind]
    exact among.last
  · rw [← h.kind]
    exact among.markup
  · rw [h.kind]
    exact among.last
  · rw [h.kind]
    exact among.markup

theorem Follows.bare (notes : u.NotesAgree f E v) {X : List NodeId}
    (bare : ∀ e, u.nearestSlot X = some e → (u.node e).directed .inner = false) :
    ∀ e, v.nearestSlot (X.map f) = some e → (v.node e).directed .inner = false := by
  intro y hy
  rw [h.nearestSlot notes] at hy
  obtain ⟨e, near, rfl⟩ := Option.map_eq_some_iff.mp hy
  rw [notes.directed]
  exact bare e near

end Follow

/-- The call for the target is about the siblings of the target. -/
def Looks (u : Document) (id p : NodeId) : Prop :=
  (u.kind p).hasMarkupChildren = true ∧
    (u.kind id = .closingTag ∨ u.Among id p ∧ u.kind id ≠ .openingTag)

/-- A call comes to the same where what it looks at is the same. -/
theorem Stands.follow {t : Target} {d : Deed} (stands : Stands o line u t d) (h : u.Follows f E K v)
    (notes : u.NotesAgree f E v) (beside : ∀ id p, t = .node id (some p) → u.Looks id p → ¬ E p)
    (inside : ∀ block, t = .blockTail block → ¬ E block) :
    ∃ d', Stands o line v (t.map f) d' ∧ d.Matches u f E d' := by
  have besides : ∀ {id p : NodeId}, v.Beside (f id) (f p) ↔ u.Beside id p := by
    intro id p
    unfold Beside
    rw [h.kind, h.kind]
  cases stands with
  | beside kind place =>
    exact ⟨_, .beside (by rw [h.kind]; exact kind) (besides.mpr place), .serve⟩
  | @behind block last found =>
    refine ⟨_, .behind ?_, .serve⟩
    rw [h.children block (inside block rfl), List.getLast?_map, found]
    rfl
  | @within block empty directed =>
    refine ⟨_, .within ?_ (by rw [notes.directed]; exact directed), .serve⟩
    rw [h.children block (inside block rfl), empty]
    rfl
  | @fill block empty bare =>
    refine ⟨_, .fill ?_ (by rw [notes.directed]; exact bare), .fill⟩
    rw [h.children block (inside block rfl), empty]
    rfl
  | childless place childless =>
    exact ⟨_, .childless (by rw [h.kind, besides]; exact place) (by rw [h.kind]; exact childless),
      .skip⟩
  | @handled id p first e items closing markup layout near directed =>
    have free := beside id p rfl ⟨markup, .inl closing⟩
    refine ⟨_, .handled (by rw [h.kind]; exact closing) (by rw [h.kind]; exact markup)
      (h.layout layout free) ?_ (by rw [notes.directed]; exact directed), .serve⟩
    rw [h.nearestSlot notes, near]
    rfl
  | @last id p first items found closing markup layout bare indent =>
    have free := beside id p rfl ⟨markup, .inl closing⟩
    refine ⟨_, .last (by rw [h.kind]; exact closing) (by rw [h.kind]; exact markup)
      (h.layout layout free) (h.bare notes bare) ?_, .note (fun _ => ⟨rfl, rfl⟩)⟩
    rw [← List.map_reverse, h.tailText, indent]
  | @own id p e ahead alone markup slot directed =>
    refine ⟨_, .own (by rw [h.kind]; exact ahead) (mt besides.mp alone) (by rw [h.kind]; exact markup)
      ?_ (by rw [notes.directed]; exact directed), .serve⟩
    rw [h.commentSlot notes, slot]
    rfl
  | tag among opening =>
    exact ⟨_, .tag ((h.among_iff notes).mpr among) (by rw [h.kind]; exact opening), .skip⟩
  | @near id p first e X₁ X₂ R closing among sits near directed =>
    have plain := (sits.layout.items id (by simp)).1
    have free := beside id p rfl ⟨among.markup, .inr ⟨among, plain⟩⟩
    have layout := h.layout sits.layout free
    rw [List.map_append, List.map_append, List.map_cons] at layout
    refine ⟨_, .near ((h.among_iff notes).mpr among) ⟨layout, h.group sits.group⟩ ?_
      (by rw [notes.directed]; exact directed), .serve⟩
    rw [h.nearestSlot notes, near]
    rfl
  | @room id p first X₁ X₂ R closing Z B G front indent among sits bare parting =>
    have plain := (sits.layout.items id (by simp)).1
    have free := beside id p rfl ⟨among.markup, .inr ⟨among, plain⟩⟩
    have layout := h.layout sits.layout free
    rw [List.map_append, List.map_append, List.map_cons] at layout
    refine ⟨_, .room ((h.among_iff notes).mpr among) ⟨layout, h.group sits.group⟩ (h.bare notes bare)
      (h.parting parting), .note fun _ => ⟨by simp, by simp⟩⟩

section Does

variable {a : Nat} {t : Target} {d : Deed}

theorem Does.kind_of_links (does : u.Does o rule d u') {j : NodeId} (h : d.links u j) :
    u.kind j ≠ .hole ∧ u.kind j ≠ .conditional := by
  have markup : (u.kind j).hasMarkupChildren = true → u.kind j ≠ .hole ∧ u.kind j ≠ .conditional := by
    intro markup
    cases kind : u.kind j with
    | hole | conditional =>
      rw [kind] at markup
      cases markup
    | _ => exact ⟨nofun, nofun⟩
  have text : u.text? j ≠ none → u.kind j ≠ .hole ∧ u.kind j ≠ .conditional := by
    intro text
    unfold text? at text
    cases kind : u.kind j with
    | hole | conditional =>
      rw [kind] at text
      exact absurd rfl text
    | _ => exact ⟨nofun, nofun⟩
  cases does with
  | skip => exact h.elim
  | serve => exact h.elim
  | fill _ kind =>
    rw [h, kind]
    exact ⟨nofun, nofun⟩
  | note _ kind blank =>
    exact h.elim (fun e => markup (e ▸ kind)) fun mem => text (text_of_blank (blank j mem))
  | cut _ kind => exact h.elim (fun e => markup (e ▸ kind)) fun mem => text mem.2

theorem Does.notes (does : u.Does o rule d u') (linked : u.Linked)
    (size : u'.nodes.size = u.nodes.size + a)
    (inner : ∀ id way, d = .serve id way →
      (u'.node id).directed .inner = (u.node id).directed .inner) :
    u.NotesAgree (shift u.nodes.size a) (d.links u) u' := by
  refine ⟨fun j hole held => (does.kind_of_links held).1 hole, fun j => ?_⟩
  rcases Nat.lt_or_ge j u.nodes.size with lt | ge
  · rw [shift_old lt]
    by_cases served : ∃ way, d = .serve j way
    · obtain ⟨way, rfl⟩ := served
      exact inner j way rfl
    · have free : ¬ d.remarks j .inner := by
        cases d with
        | serve id way =>
          rintro ⟨rfl, -⟩
          exact served ⟨way, rfl⟩
        | _ => exact id
      unfold Node.directed
      rw [(does.spares linked).comments j lt .inner free]
  · rw [shift_new ge, node_of_size_le u ge, node_of_size_le u' (by omega)]

theorem Stands.way {id : NodeId} {way : Way} (stands : Stands o line u t (.serve id way)) :
    (∃ p, t = .node id (some p) ∧ way = besideWay o) ∨
    (∃ block, t = .blockTail block ∧ (u.children block).getLast? = some id ∧ way = behindWay o) ∨
    way = withinWay o ∧ (u.node id).directed .inner = true := by
  cases stands with
  | beside => exact .inl ⟨_, rfl, rfl⟩
  | behind last => exact .inr (.inl ⟨_, rfl, last, rfl⟩)
  | within _ directed => exact .inr (.inr ⟨rfl, directed⟩)
  | handled _ _ _ _ directed => exact .inr (.inr ⟨rfl, directed⟩)
  | own _ _ _ _ directed => exact .inr (.inr ⟨rfl, directed⟩)
  | near _ _ _ directed => exact .inr (.inr ⟨rfl, directed⟩)

theorem Stands.fair {id : NodeId} {way : Way} (stands : Stands o line u t (.serve id way)) :
    way.Fair o := by
  rcases stands.way with ⟨p, -, rfl⟩ | ⟨block, -, -, rfl⟩ | ⟨rfl, -⟩
  · exact besideWay_fair o
  · exact behindWay_fair o
  · exact withinWay_fair o

/-- A call makes no directive of a comment in a node. -/
theorem Stands.inner {id : NodeId} {way : Way} (stands : Stands o line u t (.serve id way))
    (rule : Text) :
    ((u.node id).serve way rule).1.directed .inner = (u.node id).directed .inner := by
  have outside : .inner ∉ way.slots →
      ((u.node id).serve way rule).1.directed .inner = (u.node id).directed .inner := by
    intro free
    obtain ⟨slot, mem, cs, res, served⟩ := Node.serve_local stands.fair (u.node id) rule
    have ne : ¬ Slot.inner = slot := by
      rintro rfl
      exact free mem
    rw [served _ fun _ _ => rfl]
    unfold Node.directed
    rw [Node.comments_setComments, if_neg ne]
  rcases stands.way with ⟨p, -, rfl⟩ | ⟨block, -, -, rfl⟩ | ⟨rfl, directed⟩
  · exact outside (by change Slot.inner ∉ [Slot.leading, .trailing]; decide)
  · exact outside (by change Slot.inner ∉ [Slot.trailing]; decide)
  · have found : (withinWay o).slots.find? (u.node id).directed = some .inner := by
      change List.find? _ [Slot.inner] = _
      rw [List.find?_cons_of_pos directed]
    obtain ⟨cs, c, -, parses, served⟩ := Node.serve_directed found
    rw [served, directed, Node.directed_setComments _ _ _ (Node.merge_isSome parses rule)]
    simp

theorem Stands.notes (stands : Stands o line u t d) (does : u.Does o rule d u') (linked : u.Linked)
    (size : u'.nodes.size = u.nodes.size + a) :
    u.NotesAgree (shift u.nodes.size a) (d.links u) u' := by
  refine does.notes linked size ?_
  rintro id way rfl
  cases does with
  | serve valid =>
    rw [node_serveAt valid, if_pos rfl]
    exact stands.inner rule

end Does

theorem Suits.map_eq {t : Target} (suits : u.Suits line t) (sound : u.Sound source)
    (fixed : ∀ j < u.nodes.size, f j = j) : t.map f = t := by
  cases t with
  | node id q =>
    obtain ⟨p, rfl, seated⟩ := suits
    rw [Target.map, Option.map_some, fixed id (sound.linked.child_lt seated.hold),
      fixed p (sound.reaches_lt seated.above)]
  | blockTail block => rw [Target.map, fixed block (sound.reaches_lt suits.1)]

end Document
end Quell
