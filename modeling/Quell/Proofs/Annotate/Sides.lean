import Quell.Proofs.Annotate.Carry

/-!
Two calls for children of one element.

What a call comes to is told from the siblings on the way back from its target to the next one that
is no text. So the comment for one child moves the place of a comment for another child, and changes
nothing else about it: `Stands.slide`, `Stands.slide_closing`.
-/
namespace Quell.Document

open Text Relation

variable {source : Text} {o : AnnotateOptions} {rule : Text} {line : Nat}
variable {f : NodeId → NodeId} {E : NodeId → Prop} {K : NodeId → Slot → Prop}
variable {u u' : Document} {id p first k : NodeId}
variable {X₁ X₁' X₂ R R' closing closing' Z B G W W' M : List NodeId} {front : List Text}
variable {indent : Text}

section Back

theorem last_front (W W' M : List NodeId) (k : NodeId) :
    (W ++ k :: M).getLast? = (W' ++ k :: M).getLast? := by
  simp [List.getLast?_append, List.getLast?_cons]

theorem nearestSlot_front (solid : u.text? k = none) (W W' M : List NodeId) :
    u.nearestSlot (W ++ k :: M) = u.nearestSlot (W' ++ k :: M) := by
  have each : ∀ W : List NodeId, (W ++ k :: M).reverse.find? (!u.isBlankText ·) =
      (M.reverse ++ [k]).find? (!u.isBlankText ·) := by
    intro W
    rw [List.reverse_append, List.reverse_cons, List.find?_append]
    cases found : (M.reverse ++ [k]).find? (!u.isBlankText ·) with
    | some x => rfl
    | none =>
      have here := List.find?_eq_none.mp found k (by simp)
      unfold isBlankText at here
      rw [solid] at here
      exact absurd rfl here
  unfold nearestSlot
  rw [each W, each W']

theorem tailText_front (solid : u.text? k = none) (W W' M : List NodeId) :
    u.tailText (W ++ k :: M).reverse = u.tailText (W' ++ k :: M).reverse := by
  have each : ∀ (ys zs : List NodeId), u.tailText (ys ++ k :: zs) = u.tailText (ys ++ [k]) := by
    intro ys zs
    induction ys with
    | nil => rw [List.nil_append, List.nil_append, tailText, tailText, solid]
    | cons y ys ih => rw [List.cons_append, List.cons_append, tailText, tailText, ih]
  have shape : ∀ W : List NodeId, (W ++ k :: M).reverse = M.reverse ++ k :: W.reverse := by simp
  rw [shape, shape, each, each M.reverse W'.reverse]

theorem Parting.parts (parting : u.Parting X₁ X₂ Z B G front indent) : X₁ ++ X₂ = Z ++ B ++ G := by
  cases parting with
  | own shape => simp [shape]
  | split shape => simp [shape]
  | flush => simp

theorem Parting.slide (parting : u.Parting (W ++ k :: M) X₂ Z B G front indent)
    (solid : u.text? k = none) (W' : List NodeId) :
    ∃ M₁, Z = W ++ k :: M₁ ∧ u.Parting (W' ++ k :: M) X₂ (W' ++ k :: M₁) B G front indent := by
  have own : ∀ (x : NodeId) (t : Text),
      u.OwnIndent (W' ++ k :: M) x t ↔ u.OwnIndent (W ++ k :: M) x t := by
    intro x t
    unfold OwnIndent
    rw [last_front W' W]
  cases parting with
  | @own x _ _ shape indent =>
    refine ⟨M ++ [x], by simp, ?_⟩
    have made := Parting.own shape ((own x _).mpr indent)
    rwa [List.append_assoc, List.cons_append] at made
  | @split _ b a run shape alien value ne blank free =>
    rcases List.eq_nil_or_concat M with rfl | ⟨M₁, c, rfl⟩
    · obtain ⟨-, rfl⟩ := List.append_inj' shape rfl |>.imp_right List.singleton_inj.mp
      cases solid.symm.trans value
    · have shape' : (W ++ k :: M₁) ++ [c] = Z ++ [b] := by simpa using shape
      obtain ⟨rfl, same⟩ := List.append_inj' shape' rfl
      obtain rfl := List.singleton_inj.mp same
      exact ⟨M₁, rfl, .split (by simp) (fun x G t e => mt (own x t).mp (alien x G t e)) value ne blank
        free⟩
  | flush alien plain =>
    refine ⟨M, rfl, .flush (fun x G t e => mt (own x t).mp (alien x G t e)) ?_⟩
    rw [last_front W' W]
    exact plain

end Back

theorem Sits.unique {first' : NodeId} {Y₁ Y₂ S : List NodeId} (linked : u.Linked)
    (sits : u.Sits line p id first X₁ X₂ R closing)
    (sits' : u.Sits line p id first' Y₁ Y₂ S closing') :
    first' = first ∧ Y₁ = X₁ ∧ Y₂ = X₂ ∧ S = R ∧ closing' = closing := by
  obtain ⟨rfl, items, rfl⟩ := sits.layout.unique sits'.layout
  have nodup := linked.nodup p
  rw [sits.layout.split] at nodup
  have inner := (List.nodup_append.mp (List.nodup_cons.mp nodup).2).1
  obtain ⟨same, rfl⟩ := split_unique inner items.symm
  obtain ⟨rfl, rfl⟩ := sits.group.unique sits'.group same
  exact ⟨rfl, rfl, rfl, rfl, rfl⟩

theorem Seated.not_onLine {l : Nat} (seated : u.Seated l id p) (solid : u.text? id = none)
    (ne : l ≠ line) : ¬ u.OnLine line id := by
  rintro ⟨-, ⟨t, value, -⟩ | ⟨-, s, span, start⟩⟩
  · rw [solid] at value
    cases value
  · obtain ⟨s', span', start'⟩ := seated.start
    cases span.symm.trans span'
    exact ne (start'.symm.trans start)

/-- Of two targets in one element each stands above the line of the other, or is above. -/
theorem Sits.order {l : Nat} {first' : NodeId} {Y₁ Y₂ S : List NodeId}
    (sits : u.Sits line p id first X₁ X₂ R closing)
    (sits' : u.Sits l p k first' Y₁ Y₂ S closing') (ne : id ≠ k) (off : ¬ u.OnLine line k)
    (off' : ¬ u.OnLine l id) :
    (∃ M, Y₁ = X₁ ++ X₂ ++ id :: M) ∨ ∃ M, X₁ = Y₁ ++ Y₂ ++ k :: M := by
  obtain ⟨-, items, -⟩ := sits.layout.unique sits'.layout
  -- One of the targets comes first, and is in front of the group of the other.
  have front : ∀ {l : Nat} {a : NodeId} {T U V : List NodeId}, u.Group l U V → ¬ u.OnLine l a →
      ∀ {M : List NodeId}, U ++ V = T ++ a :: M → ∃ M, U = T ++ a :: M := by
    intro l a T U V group off M same
    rcases List.append_eq_append_iff.mp same with ⟨W, -, shape⟩ | ⟨W, shape, rest⟩
    · exact absurd (group.on a (by simp [shape])) off
    · cases W with
      | nil => exact absurd (group.on a (by rw [← List.nil_append V, ← rest]; simp)) off
      | cons w W =>
        obtain ⟨rfl, -⟩ := List.cons.inj rest
        exact ⟨W, shape⟩
  rcases List.append_eq_append_iff.mp items with ⟨W, shape, rest⟩ | ⟨W, shape, rest⟩
  · cases W with
    | nil => exact absurd (List.cons.inj rest).1.symm ne
    | cons w W =>
      obtain ⟨rfl, -⟩ := List.cons.inj rest
      exact .inr (front sits.group off shape)
  · cases W with
    | nil => exact absurd (List.cons.inj rest).1 ne
    | cons w W =>
      obtain ⟨rfl, -⟩ := List.cons.inj rest
      exact .inl (front sits'.group off' shape)

/-- Items of an element in another document, with tags where they were. -/
theorem Layout.renew {items items' : List NodeId} (layout : u.Layout p first items closing)
    (same : ∀ j ∈ u.children p, u'.kind j = u.kind j ∧ u'.span j = u.span j)
    (split : u'.children p = first :: (items' ++ closing))
    (plain : ∀ x ∈ items', x ∈ items ∨ u'.kind x ≠ .openingTag ∧ u'.kind x ≠ .closingTag) :
    u'.Layout p first items' closing := by
  have held : ∀ {j : NodeId}, j ∈ first :: (items ++ closing) → j ∈ u.children p := fun hj => by
    rw [layout.split]
    exact hj
  refine ⟨split, ?_, ?_, fun x hx => ?_⟩
  · obtain ⟨kind, span⟩ := same first (held (by simp))
    rw [kind, span]
    exact layout.opening
  · rcases layout.closing with rfl | ⟨c, rfl, kind, span⟩
    · exact .inl rfl
    · obtain ⟨kind', span'⟩ := same c (held (by simp))
      exact .inr ⟨c, rfl, kind'.trans kind, by rw [span']; exact span⟩
  · rcases plain x hx with mem | plain
    · rw [(same x (held (by simp [mem]))).1]
      exact layout.items x mem
    · exact plain

section Slide

variable {e : Deed} (h : u.Follows f E K u') (notes : u.NotesAgree f E u')
variable (fixed : ∀ j, j = p ∨ j ∈ u.children p → f j = j)
include h notes fixed

omit h notes in
theorem map_fixed {xs : List NodeId} (sub : ∀ x ∈ xs, x ∈ u.children p) : xs.map f = xs :=
  (List.map_congr_left fun x hx => fixed x (.inr (sub x hx))).trans (List.map_id xs)

theorem Follows.nearestSlot_fixed {X : List NodeId} (sub : ∀ x ∈ X, x ∈ u.children p) :
    u'.nearestSlot X = (u.nearestSlot X).map f := by
  rw [← h.nearestSlot notes, map_fixed fixed sub]

omit notes in
theorem Follows.parting_fixed (sub : ∀ x ∈ X₁ ++ X₂, x ∈ u.children p)
    (parting : u.Parting X₁ X₂ Z B G front indent) : u'.Parting X₁ X₂ Z B G front indent := by
  have parts := parting.parts
  have moved := h.parting parting
  have some : ∀ xs : List NodeId, (∀ x ∈ xs, x ∈ X₁ ++ X₂) → xs.map f = xs := fun xs within =>
    map_fixed fixed fun x hx => sub x (within x hx)
  rwa [some X₁ (by simp +contextual), some X₂ (by simp +contextual),
    some Z (by rw [parts]; simp +contextual), some B (by rw [parts]; simp +contextual),
    some G (by rw [parts]; simp +contextual)] at moved

theorem Follows.among_fixed (hold : u.Holds p id) (among : u.Among id p) : u'.Among id p := by
  have moved := (h.among_iff notes).mpr among
  rwa [fixed id (.inr hold), fixed p (.inl rfl)] at moved

/-- What a call for a child comes to, where siblings behind the child have changed. -/
theorem Stands.stay (stands : Stands o line u (.node id (some p)) e) (among : u.Among id p)
    (held : E p) (linked : u.Linked) (sits : u.Sits line p id first X₁ X₂ R closing)
    (sits' : u'.Sits line p id first X₁ X₂ R' closing') :
    ∃ e', Stands o line u' (.node id (some p)) e' ∧ e.Matches u f E e' ∧
      ∀ A B C, e.At p A B C → ∃ Z G, A = first :: Z ∧ X₁ ++ X₂ = Z ++ B ++ G ∧
        C = G ++ id :: R ++ closing ∧ e'.At p A B (G ++ id :: R' ++ closing') := by
  have split := sits.layout.split
  have hold : u.Holds p id := sits.layout.mem_children (by simp)
  have among' := h.among_fixed notes fixed hold among
  have sub : ∀ x ∈ X₁ ++ X₂, x ∈ u.children p := fun x hx => by
    rw [split]
    simp only [List.mem_append] at hx
    simp only [List.mem_cons, List.mem_append]
    tauto
  have near := h.nearestSlot_fixed notes fixed (X := X₁) fun x hx => sub x (by simp [hx])
  cases stands with
  | beside _ beside => exact absurd beside among.beside
  | childless _ childless => exact absurd among.markup (by rw [childless]; exact nofun)
  | handled kind => exact absurd kind among.last
  | last kind => exact absurd kind among.last
  | own _ _ _ slot directed => exact absurd (among.own _ slot) (by rw [directed]; exact nofun)
  | tag _ opening => exact absurd opening (sits.layout.items id (by simp)).1
  | @near _ _ _ e _ _ _ _ _ sits₀ found directed =>
    obtain ⟨rfl, rfl, rfl, rfl, rfl⟩ := sits₀.unique linked sits
    refine ⟨_, .near among' sits' ?_ (by rw [notes.directed]; exact directed), .serve, nofun⟩
    rw [near, found]
    rfl
  | @room _ _ _ _ _ _ _ Z B G front indent _ sits₀ bare parting =>
    obtain ⟨rfl, rfl, rfl, rfl, rfl⟩ := sits₀.unique linked sits
    have parts := parting.parts
    have whole : B.map f = B := map_fixed fixed fun x hx => sub x (by rw [parts]; simp [hx])
    have matched : (Deed.note p (first :: Z) B (G ++ id :: R ++ closing) front none indent).Matches u f E
        (.note (f p) (first :: Z) (B.map f) (G ++ id :: R' ++ closing') front none indent) :=
      .note fun free => absurd held free
    rw [whole, fixed p (.inl rfl)] at matched
    refine ⟨_, .room among' sits' ?_ (h.parting_fixed fixed sub parting), matched, ?_⟩
    · intro e near'
      rw [near] at near'
      obtain ⟨e, found, rfl⟩ := Option.map_eq_some_iff.mp near'
      rw [notes.directed]
      exact bare e found
    · intro A B C at_
      cases at_
      exact ⟨Z, G, rfl, parts, rfl, .note⟩

/-- What it comes to, where siblings in front of one have changed that is no text. -/
theorem Stands.slide (stands : Stands o line u (.node id (some p)) e) (among : u.Among id p)
    (held : E p) (linked : u.Linked) (solid : u.text? k = none)
    (sits : u.Sits line p id first (W ++ k :: M) X₂ R closing)
    (sits' : u'.Sits line p id first (W' ++ k :: M) X₂ R closing) :
    ∃ e', Stands o line u' (.node id (some p)) e' ∧ e.Matches u f E e' ∧
      ∀ A B C, e.At p A B C → ∃ M A', A = first :: W ++ k :: M ∧ e'.At p A' B C := by
  have split := sits.layout.split
  have hold : u.Holds p id := sits.layout.mem_children (by simp)
  have among' := h.among_fixed notes fixed hold among
  have sub : ∀ x ∈ (W ++ k :: M) ++ X₂, x ∈ u.children p := fun x hx => by
    rw [split]
    simp only [List.mem_append, List.mem_cons] at hx
    simp only [List.mem_cons, List.mem_append]
    tauto
  have solid' : u'.text? k = none := by
    rw [← fixed k (.inr (sub k (by simp))), h.text?]
    exact solid
  have near : u'.nearestSlot (W' ++ k :: M) = (u.nearestSlot (W ++ k :: M)).map f := by
    rw [nearestSlot_front solid' W' W,
      h.nearestSlot_fixed notes fixed fun x hx => sub x (List.mem_append_left _ hx)]
  cases stands with
  | beside _ beside => exact absurd beside among.beside
  | childless _ childless => exact absurd among.markup (by rw [childless]; exact nofun)
  | handled kind => exact absurd kind among.last
  | last kind => exact absurd kind among.last
  | own _ _ _ slot directed => exact absurd (among.own _ slot) (by rw [directed]; exact nofun)
  | tag _ opening => exact absurd opening (sits.layout.items id (by simp)).1
  | @near _ _ _ e _ _ _ _ _ sits₀ found directed =>
    obtain ⟨rfl, rfl, rfl, rfl, rfl⟩ := sits₀.unique linked sits
    refine ⟨_, .near among' sits' ?_ (by rw [notes.directed]; exact directed), .serve, nofun⟩
    rw [near, found]
    rfl
  | @room _ _ _ _ _ _ _ Z B G front indent _ sits₀ bare parting =>
    obtain ⟨rfl, rfl, rfl, rfl, rfl⟩ := sits₀.unique linked sits
    have parts := parting.parts
    have whole : B.map f = B := map_fixed fixed fun x hx => sub x (by rw [parts]; simp [hx])
    obtain ⟨M₁, shape, slid⟩ := (h.parting_fixed fixed sub parting).slide solid' W'
    have matched : (Deed.note p (first :: Z) B (G ++ id :: R ++ closing) front none indent).Matches u f E
        (.note (f p) (first :: (W' ++ k :: M₁)) (B.map f) (G ++ id :: R ++ closing) front none indent) :=
      .note fun free => absurd held free
    rw [whole, fixed p (.inl rfl)] at matched
    refine ⟨_, .room among' sits' ?_ slid, matched, ?_⟩
    · intro e near'
      rw [near] at near'
      obtain ⟨e, found, rfl⟩ := Option.map_eq_some_iff.mp near'
      rw [notes.directed]
      exact bare e found
    · intro A B C at_
      cases at_
      exact ⟨M₁, _, by rw [shape]; simp, .note⟩

/-- What a call for a closing tag comes to, where the markup comment and the blanks in front of it
are still the same. -/
theorem Stands.slide_closing {items items' : List NodeId}
    (stands : Stands o line u (.node id (some p)) e) (kind : u.kind id = .closingTag)
    (markup : (u.kind p).hasMarkupChildren = true) (held : E p)
    (layout : u.Layout p first items [id]) (layout' : u'.Layout p first items' [id])
    (near : u'.nearestSlot items' = (u.nearestSlot items).map f)
    (tail : u'.tailText items'.reverse = u.tailText items.reverse) :
    ∃ e', Stands o line u' (.node id (some p)) e' ∧ e.Matches u f E e' ∧
      ∀ A B C, e.At p A B C → A = first :: items ∧ B = [] ∧ C = [id] ∧
        e'.At p (first :: items') [] [id] := by
  have hold : u.Holds p id := by
    unfold Holds
    rw [layout.split]
    simp
  have fixed_p := fixed p (.inl rfl)
  have fixed_id := fixed id (.inr hold)
  have kind' : u'.kind id = .closingTag := by
    rw [← fixed_id, h.kind]
    exact kind
  have markup' : (u'.kind p).hasMarkupChildren = true := by
    rw [← fixed_p, h.kind]
    exact markup
  cases stands with
  | beside other => exact absurd kind other
  | childless _ childless => exact absurd markup (by rw [childless]; exact nofun)
  | @handled _ _ _ e _ _ _ layout₀ found directed =>
    obtain ⟨rfl, rfl, -⟩ := layout₀.unique layout
    refine ⟨_, .handled kind' markup' layout' ?_ (by rw [notes.directed]; exact directed), .serve,
      nofun⟩
    rw [near, found]
    rfl
  | @last _ _ _ _ found _ _ layout₀ bare indent =>
    obtain ⟨rfl, rfl, -⟩ := layout₀.unique layout
    have matched : (Deed.note p (first :: items) [] [id] [] (found.map Press.indentUnit)
        (found.getD [])).Matches u f E (.note (f p) (first :: items') ([].map f) [id] []
          (found.map Press.indentUnit) (found.getD [])) := .note fun free => absurd held free
    rw [fixed_p] at matched
    refine ⟨_, .last kind' markup' layout' ?_ (by rw [tail, indent]), matched, ?_⟩
    · intro e near'
      rw [near] at near'
      obtain ⟨e, slot, rfl⟩ := Option.map_eq_some_iff.mp near'
      rw [notes.directed]
      exact bare e slot
    · intro A B C at_
      cases at_
      exact ⟨rfl, rfl, rfl, .note⟩
  | own other => exact absurd kind other
  | tag among => exact absurd kind among.last
  | near among => exact absurd kind among.last
  | room among => exact absurd kind among.last

end Slide

section Cut

variable {q x : NodeId} {A C D N Xs Y : List NodeId} {parts : List Text}

theorem nearestSlot_append (u : Document) (X D : List NodeId) :
    u.nearestSlot (X ++ D) = match D.reverse.find? (!u.isBlankText ·) with
      | some h => u.commentSlot h
      | none => u.nearestSlot X := by
  unfold nearestSlot
  rw [List.reverse_append, List.find?_append]
  cases D.reverse.find? (!u.isBlankText ·) <;> rfl

theorem nearestSlot_append_congr {X X' : List NodeId} (text : ∀ y ∈ D, u'.text? y = u.text? y)
    (slot : ∀ y ∈ D, u'.commentSlot y = u.commentSlot y)
    (near : u'.nearestSlot X' = u.nearestSlot X) :
    u'.nearestSlot (X' ++ D) = u.nearestSlot (X ++ D) := by
  induction D using List.reverseRecOn with
  | nil => simpa using near
  | append_singleton D d ih =>
    have here : u'.isBlankText d = u.isBlankText d := by
      unfold isBlankText
      rw [text d (by simp)]
    have rest := ih (fun y hy => text y (by simp [hy])) fun y hy => slot y (by simp [hy])
    have look : ∀ (v : Document) (Z : List NodeId), v.nearestSlot (Z ++ [d]) =
        if v.isBlankText d then v.nearestSlot Z else v.commentSlot d := by
      intro v Z
      rw [nearestSlot_append]
      cases blank : v.isBlankText d <;> simp [blank]
    rw [← List.append_assoc, ← List.append_assoc, look, look, here, rest, slot d (by simp)]

theorem commentSlot_text {h : NodeId} (text : u.text? h ≠ none) : u.commentSlot h = none := by
  unfold commentSlot
  unfold text? at text
  cases kind : u.kind h with
  | hole =>
    rw [kind] at text
    exact absurd rfl text
  | _ => rfl

/-- Behind texts there is no markup comment, unless they are blank. -/
theorem nearestSlot_texts {ts : List Text}
    (texts : List.Forall₂ (fun y t => u.text? y = some t) Y ts) (X : List NodeId) :
    u.nearestSlot (X ++ Y) = if allBlank ts.flatten then u.nearestSlot X else none := by
  have each : (∀ y ∈ Y, u.text? y ≠ none) ∧
      ((∀ y ∈ Y, u.isBlankText y = true) ↔ allBlank ts.flatten = true) := by
    induction texts with
    | nil => exact ⟨List.forall_mem_nil _, by simp [allBlank]⟩
    | @cons y t _ _ value _ ih =>
      have blank : u.isBlankText y = allBlank t := by
        unfold isBlankText
        rw [value]
      refine ⟨List.forall_mem_cons.mpr ⟨?_, ih.1⟩, ?_⟩
      · rw [value]
        exact Option.some_ne_none t
      · rw [List.forall_mem_cons, blank, ih.2, List.flatten_cons, allBlank_append, Bool.and_eq_true]
  rw [nearestSlot_append]
  cases found : Y.reverse.find? (!u.isBlankText ·) with
  | none =>
    have blank := List.find?_eq_none.mp found
    rw [if_pos (each.2.mp fun y hy => by simpa using blank y (List.mem_reverse.mpr hy))]
  | some h =>
    have mem := List.mem_reverse.mp (List.mem_of_find?_eq_some found)
    have solid := List.find?_some found
    rw [if_neg fun all => by simp [each.2.mpr all h mem] at solid]
    exact commentSlot_text (each.1 h mem)

theorem tailText_texts {ts : List Text} (texts : List.Forall₂ (fun y t => u.text? y = some t) Y ts)
    (zs : List NodeId) : u.tailText (Y.reverse ++ zs) = u.tailText zs ++ ts.flatten := by
  induction texts generalizing zs with
  | nil => simp
  | cons value _ ih =>
    rw [List.reverse_cons, List.append_assoc, List.singleton_append, ih, tailText, value]
    simp

theorem tailText_append {ys zs zs' : List NodeId} (same : ∀ y ∈ ys, u'.text? y = u.text? y)
    (tail : u'.tailText zs' = u.tailText zs) : u'.tailText (ys ++ zs') = u.tailText (ys ++ zs) := by
  induction ys with
  | nil => exact tail
  | cons y ys ih =>
    rw [List.cons_append, List.cons_append, tailText, tailText, same y (by simp),
      ih fun x hx => same x (by simp [hx])]

theorem Recut.texts (recut : u.Recut u' q A x C parts) :
    List.Forall₂ (fun y t => u'.text? y = some t) (List.range' u.nodes.size parts.length) parts := by
  refine List.forall₂_iff_get.mpr ⟨by simp, fun i lt lt' => ?_⟩
  have node := recut.part i parts[i] (List.getElem?_eq_getElem lt')
  simp only [List.get_eq_getElem, List.getElem_range', Nat.one_mul]
  exact text?_of_node node rfl

/-- A cut shows neither in the nearest markup comment nor in the blanks at the end. -/
theorem Cuts.behind (cuts : u.Cuts q (A ++ Xs) x C u' N) (linked : u.Linked)
    (split : u.children q = A ++ Xs ++ [x] ++ C) (sub : ∀ d ∈ D, d ∈ C) :
    u'.nearestSlot (Xs ++ (N ++ D)) = u.nearestSlot (Xs ++ ([x] ++ D)) ∧
      u'.tailText (Xs ++ (N ++ D)).reverse = u.tailText (Xs ++ ([x] ++ D)).reverse := by
  cases cuts with
  | whole => exact ⟨rfl, rfl⟩
  | @parts _ t loose recut =>
    have held : ∀ y ∈ Xs ++ D, u.Holds q y := fun y hy => by
      unfold Holds
      rw [split]
      rcases List.mem_append.mp hy with h | h
      · simp [h]
      · simp [sub y h]
    have lt : ∀ y ∈ Xs ++ D, y < u.nodes.size := fun y hy => linked.child_lt (held y hy)
    have nodup := linked.nodup q
    rw [split] at nodup
    have apart : ∀ y ∈ Xs ++ D, y ∉ [x] := by
      intro y hy mem
      obtain rfl := List.mem_singleton.mp mem
      rcases List.mem_append.mp hy with h | h
      · exact List.disjoint_of_nodup_append (List.nodup_append.mp nodup).1
          (List.mem_append_right A h) (by simp)
      · exact List.disjoint_of_nodup_append nodup (a := y) (by simp) (sub y h)
    have text : ∀ y ∈ Xs ++ D, u'.text? y = u.text? y := fun y hy => by
      unfold text?
      rw [(recut.splice.content (lt y hy)).1]
    have slot : ∀ y ∈ Xs ++ D, u'.commentSlot y = u.commentSlot y := fun y hy => by
      refine commentSlot_congr (recut.splice.content (lt y hy)).1
        (recut.splice.children_rest (lt y hy) ?_) fun c hc =>
          (recut.splice.content (linked.child_lt hc)).1
      rintro rfl
      exact linked.not_below_of_holds (held y hy) ReflTransGen.refl
    have value := recut.value
    have pieces := recut.texts
    rw [segments_flatten] at value
    have old : List.Forall₂ (fun y t => u.text? y = some t) [x] [t] := .cons value .nil
    have flat : t.segments.flatten = [t].flatten := by simp [segments_flatten]
    refine ⟨?_, ?_⟩
    · have near : u'.nearestSlot Xs = u.nearestSlot Xs :=
        nearestSlot_congr (fun y hy => text y (by simp [hy])) fun y hy => slot y (by simp [hy])
      have same : u'.nearestSlot (Xs ++ List.range' u.nodes.size t.segments.length) =
          u.nearestSlot (Xs ++ [x]) := by
        rw [nearestSlot_texts pieces, nearestSlot_texts old, near, flat]
      rw [← List.append_assoc, ← List.append_assoc]
      exact nearestSlot_append_congr (fun y hy => text y (by simp [hy]))
        (fun y hy => slot y (by simp [hy])) same
    · have tail : u'.tailText Xs.reverse = u.tailText Xs.reverse :=
        tailText_congr fun y hy => text y (by simp [List.mem_reverse.mp hy])
      simp only [List.reverse_append, List.append_assoc]
      refine tailText_append (fun y hy => text y (by simp [List.mem_reverse.mp hy])) ?_
      rw [tailText_texts pieces, tailText_texts old, tail, flat]

/-- The same for the cut of many. -/
theorem segmentAll_behind (linked : u.Linked) (split : u.children q = A ++ Xs ++ C)
    (leaf : ∀ x ∈ Xs, u.text? x ≠ none → u.children x = [])
    (result : u.segmentAll Xs.reverse = .ok u') :
    ∃ N, u'.children q = A ++ N ++ C ∧ (∀ x ∈ N, x ∈ Xs ∨ u'.text? x ≠ none) ∧
      ∀ D, (∀ d ∈ D, d ∈ C) → u'.nearestSlot (N ++ D) = u.nearestSlot (Xs ++ D) ∧
        u'.tailText (N ++ D).reverse = u.tailText (Xs ++ D).reverse := by
  induction Xs using List.reverseRecOn generalizing u C with
  | nil =>
    cases result
    exact ⟨[], split, nofun, fun D _ => ⟨rfl, rfl⟩⟩
  | append_singleton Xs x ih =>
    rw [← List.append_assoc] at split
    obtain ⟨cut, N, first, cuts⟩ := segmentText_cuts linked split (leaf x (by simp))
    rw [segmentAll_concat, first] at result
    have rest := fun y mem => cuts.rest linked split (List.mem_append_right A mem) (y := y)
    have here := cuts.children_here split
    rw [List.append_assoc] at here
    have leaf' : ∀ y ∈ Xs, cut.text? y ≠ none → cut.children y = [] := fun y mem text => by
      rw [(rest y mem).2]
      exact leaf y (by simp [mem]) (by rw [← (rest y mem).1]; exact text)
    obtain ⟨M, last, kinds, behind⟩ := ih (cuts.linked linked) here leaf' result
    refine ⟨M ++ N, by rw [last]; simp, fun y hy => ?_, fun D sub => ?_⟩
    · rcases List.mem_append.mp hy with mem | mem
      · exact (kinds y mem).imp_left fun h => by simp [h]
      · cases cuts with
        | whole => exact .inl (by simp [List.mem_singleton.mp mem])
        | @parts _ t _ recut =>
          have hold : cut.Holds q y := by
            unfold Holds
            rw [here]
            exact List.mem_append_right _ (List.mem_append_left _ mem)
          have lt := (recut.splice.linked' linked).child_lt hold
          obtain ⟨i, t, -, -, node⟩ := recut.mem_part mem
          have spares := (segmentAll_spares (recut.splice.linked' linked) here leaf' result).1
          refine .inr ?_
          unfold text?
          rw [spares.kind y lt]
          unfold Document.kind
          rw [node]
          exact nofun
    · have one := cuts.behind (D := D) linked split sub
      have two := behind (N ++ D) fun d hd => by
        rcases List.mem_append.mp hd with h | h
        · simp [h]
        · simp [sub d h]
      simp only [List.append_assoc] at one two ⊢
      exact ⟨two.1.trans one.1, two.2.trans one.2⟩

end Cut

section Noted

variable {N A C D Q : List NodeId} {fr : List Text} {lead : Option Text} {body gap ind : Text}

theorem Inserts.plain (inserts : u.Inserts p A C lead body gap B fr u' N) :
    ∀ x ∈ N, u'.kind x ≠ .openingTag ∧ u'.kind x ≠ .closingTag := by
  cases inserts with
  | beside noted => exact fun x hx => noted.plain hx
  | parted recut noted =>
    intro x hx
    rcases List.mem_append.mp hx with hx | hx
    · obtain ⟨i, t, -, -, node⟩ := recut.mem_part hx
      have lt := (List.mem_range'_1.mp hx).2
      rw [← recut.size] at lt
      rw [(noted.splice.content lt).1]
      exact plain_of_text (text?_of_node node rfl)
    · exact noted.plain hx

/-- A markup comment comes in behind a line break. -/
theorem Inserts.last (inserts : u.Inserts p A C lead body gap B fr u' N) :
    ∃ Y b, N = Y ++ [b] ∧ u'.text? b = some gap := by
  have ids : ∀ n : NodeId, ∃ Y, noteIds n lead = Y ++ [n + 2 + lead.toList.length] := by
    intro n
    cases lead with
    | none => exact ⟨[n], rfl⟩
    | some t => exact ⟨[n + 2, n], rfl⟩
  cases inserts with
  | beside noted =>
    obtain ⟨Y, shape⟩ := ids u.nodes.size
    exact ⟨Y, _, shape, text?_of_node noted.behind rfl⟩
  | @parted _ _ room _ recut noted =>
    obtain ⟨Y, shape⟩ := ids room.nodes.size
    exact ⟨_ ++ Y, _, by rw [shape, List.append_assoc], text?_of_node noted.behind rfl⟩

theorem Does.note_window (does : u.Does o rule (.note p A B C fr lead ind) u') (line : Nat) :
    u.children p = A ++ B ++ C ∧ ∃ N, u'.children p = A ++ N ++ C ∧
      (∀ x ∈ N, u'.kind x ≠ .openingTag ∧ u'.kind x ≠ .closingTag) ∧
      ∀ b ∈ N.getLast?, u'.EndsAbove line b := by
  cases does with
  | note _ _ _ inserts =>
    obtain ⟨before, after⟩ := inserts.split
    refine ⟨before, _, after, inserts.plain, fun b hb => ?_⟩
    obtain ⟨Y, c, rfl, value⟩ := inserts.last
    rw [List.getLast?_concat] at hb
    cases hb
    exact .inl ⟨_, value, by cases u.eol <;> simp [LineEnding.text]⟩

theorem Does.kept (does : u.Does o rule (.note p A B C fr lead ind) u') (linked : u.Linked) :
    ∀ j ∈ u.children p, u'.kind j = u.kind j ∧ u'.span j = u.span j := fun _ hold =>
  have lt := linked.child_lt hold
  ⟨(does.spares linked).kind _ lt, (does.spares linked).span _ lt⟩

/-- The place of a target among other siblings. -/
theorem Sits.renew {Y₁ Y₂ S : List NodeId} (sits : u.Sits line p id first X₁ X₂ R closing)
    (same : ∀ j ∈ u.children p, u'.kind j = u.kind j ∧ u'.span j = u.span j)
    (split : u'.children p = first :: (Y₁ ++ Y₂ ++ id :: S ++ closing))
    (plain : ∀ x ∈ Y₁ ++ Y₂ ++ id :: S, x ∈ X₁ ++ X₂ ++ id :: R ∨
      u'.kind x ≠ .openingTag ∧ u'.kind x ≠ .closingTag)
    (on : ∀ x ∈ Y₂, x ∈ X₂)
    (above : ∀ b ∈ Y₁.getLast?, b ∈ X₁.getLast? ∨ u'.EndsAbove line b) :
    u'.Sits line p id first Y₁ Y₂ S closing := by
  have held : ∀ {x : NodeId}, x ∈ X₁ ++ X₂ → x ∈ u.children p := fun hx => by
    rw [sits.layout.split]
    simp only [List.mem_append] at hx
    simp only [List.mem_cons, List.mem_append]
    tauto
  have text : ∀ {x : NodeId}, x ∈ X₁ ++ X₂ → u'.text? x = u.text? x := fun hx => by
    unfold text?
    rw [(same _ (held hx)).1]
  refine ⟨sits.layout.renew same split plain, fun x hx => ?_, fun b hb => ?_⟩
  · have mem := List.mem_append_right X₁ (on x hx)
    have old := sits.group.on x (on x hx)
    unfold OnLine at old ⊢
    rw [text mem, (same x (held mem)).2]
    exact old
  · refine (above b hb).elim (fun last => ?_) fun h => h
    have mem := List.mem_append_left X₂ (List.mem_of_getLast? last)
    have old := sits.group.above b last
    unfold EndsAbove at old ⊢
    rw [text mem, (same b (held mem)).2]
    exact old

/-- A comment behind a target moves nothing in front of it. -/
theorem Sits.noted_behind (sits : u.Sits line p id first X₁ X₂ R closing)
    (does : u.Does o rule
      (.note p (first :: (X₁ ++ X₂ ++ id :: Q)) B (D ++ closing) fr lead ind) u')
    (linked : u.Linked) : ∃ S, u'.Sits line p id first X₁ X₂ S closing := by
  obtain ⟨before, N, after, plain, -⟩ := does.note_window line
  have rest : R = Q ++ B ++ D := by
    have same := sits.layout.split.symm.trans before
    simp only [← List.append_assoc, List.cons_append, List.cons.injEq, true_and] at same
    simpa using List.append_cancel_right same
  refine ⟨Q ++ N ++ D, sits.renew (does.kept linked) (by rw [after]; simp) (fun x hx => ?_)
    (fun _ h => h) fun _ h => .inl h⟩
  rw [rest]
  simp only [List.mem_append, List.mem_cons] at hx ⊢
  rcases hx with (h | h) | h | (h | h) | h
  · exact .inl (.inl (.inl h))
  · exact .inl (.inl (.inr h))
  · exact .inl (.inr (.inl h))
  · exact .inl (.inr (.inr (.inl (.inl h))))
  · exact .inr (plain x h)
  · exact .inl (.inr (.inr (.inr h)))

/-- A comment in front of a sibling leaves alone what stands behind the sibling. -/
theorem Sits.noted_front (sits : u.Sits line p id first (Z ++ B ++ G ++ k :: M) X₂ R closing)
    (does : u.Does o rule (.note p (first :: Z) B (G ++ k :: D) fr lead ind) u')
    (linked : u.Linked) : ∃ W, u'.Sits line p id first (W ++ k :: M) X₂ R closing := by
  obtain ⟨before, N, after, plain, -⟩ := does.note_window line
  have rest : D = M ++ X₂ ++ id :: R ++ closing := by
    have same := sits.layout.split.symm.trans before
    simpa using same.symm
  refine ⟨Z ++ N ++ G, sits.renew (does.kept linked) (by rw [after, rest]; simp) (fun x hx => ?_)
    (fun _ h => h) fun b h => .inl ?_⟩
  · simp only [List.mem_append, List.mem_cons] at hx ⊢
    rcases hx with (((((h | h) | h) | h | h) | h) | h | h)
    · exact .inl (.inl (.inl (.inl (.inl (.inl h)))))
    · exact .inr (plain x h)
    · exact .inl (.inl (.inl (.inl (.inr h))))
    · exact .inl (.inl (.inl (.inr (.inl h))))
    · exact .inl (.inl (.inl (.inr (.inr h))))
    · exact .inl (.inl (.inr h))
    · exact .inl (.inr (.inl h))
    · exact .inl (.inr (.inr h))
  · rw [last_front _ (Z ++ N ++ G)]
    exact h

/-- A comment for the target itself comes in between the lines above and the group. -/
theorem Sits.noted_own (sits : u.Sits line p id first X₁ X₂ R closing)
    (parting : u.Parting X₁ X₂ Z B G fr ind)
    (does : u.Does o rule (.note p (first :: Z) B (G ++ id :: R ++ closing) fr lead ind) u')
    (linked : u.Linked) : ∃ N, u'.children p = first :: Z ++ N ++ (G ++ id :: R ++ closing) ∧
      u'.Sits line p id first (Z ++ N) G R closing := by
  obtain ⟨-, N, after, plain, above⟩ := does.note_window line
  have parts := parting.parts
  have within : ∀ x ∈ G, x ∈ X₂ := by
    cases parting with
    | own shape => exact fun x hx => by simp [shape, hx]
    | split => exact fun _ h => h
    | flush => exact fun _ h => h
  refine ⟨N, after, sits.renew (does.kept linked) (by rw [after]; simp) (fun x hx => ?_) within
    fun b hb => .inr (above b ?_)⟩
  · rw [parts]
    simp only [List.mem_append, List.mem_cons] at hx ⊢
    rcases hx with ((h | h) | h) | h | h
    · exact .inl (.inl (.inl (.inl h)))
    · exact .inr (plain x h)
    · exact .inl (.inl (.inr h))
    · exact .inl (.inr (.inl h))
    · exact .inl (.inr (.inr h))
  · cases does with
    | note _ _ _ inserts =>
      have same := inserts.split.2.symm.trans after
      obtain ⟨Y, c, shape, -⟩ := inserts.last
      obtain rfl : _ = N := List.append_cancel_left (List.append_cancel_right same)
      rw [shape, List.getLast?_concat]
      rw [shape, ← List.append_assoc, List.getLast?_concat] at hb
      exact hb

/-- A comment for one child of an element comes in behind another child, or in front of one. -/
theorem Stands.sides {l : Nat} (stands : Stands o l u (.node k (some p)) (.note p A B C fr lead ind))
    (sits : u.Sits line p id first X₁ X₂ R closing) (ne : id ≠ k) (solid : u.text? id = none)
    (off : ¬ u.OnLine line k) (off' : ¬ u.OnLine l id) :
    (∃ Q D, A = first :: (X₁ ++ X₂ ++ id :: Q) ∧ C = D ++ closing) ∨
      ∃ Z G D M, A = first :: Z ∧ C = G ++ k :: D ∧ X₁ = Z ++ B ++ G ++ k :: M := by
  cases stands with
  | last _ _ layout =>
    obtain ⟨rfl, rfl, rfl⟩ := sits.layout.unique layout
    exact .inl ⟨R, [], rfl, rfl⟩
  | @room _ _ _ _ _ S rest Z _ G _ _ _ sits' _ parting =>
    obtain ⟨rfl, -, rfl⟩ := sits.layout.unique sits'.layout
    rcases sits.order sits' ne off off' with ⟨M, rfl⟩ | ⟨M, rfl⟩
    · obtain ⟨M₁, rfl, -⟩ := parting.slide solid []
      exact .inl ⟨M₁, _, rfl, rfl⟩
    · exact .inr ⟨Z, G, S ++ rest, M, rfl, by simp, by rw [parting.parts]⟩

end Noted

end Quell.Document
