import Quell.Proofs.Annotate.Swap

/-!
Cuts in any order.

Documents that are alike come to the same calls and cuts (`Alike.call`, `Alike.cut`). And a cut of the
texts of an element may come behind the deed of a call instead of before it, as long as the call is
not for a child of the element: `Stands.cut_far`, `Stands.cut_closing`.
-/
namespace Quell.Document

open Text Relation

variable {source : Text} {o : AnnotateOptions} {first : Nat} {f : NodeId → NodeId}
variable {l l' : Nat} {t t' : Target} {r q rule : Text} {d d' e e' : Deed}
variable {u u' v v' z w y w' y' : Document} {p head : NodeId} {X closing : List NodeId} {a : Nat}

section Akin

theorem Alike.follows (alike : Alike first f u v) :
    u.Follows f (fun _ => False) (fun _ _ => False) v where
  eol := alike.eol
  inj := alike.inj
  far i := by rw [alike.far _ (Nat.le_add_right _ _), alike.size]
  kind j := (alike.node j).kind
  span j := (alike.node j).span
  parent j _ := (alike.node j).parent
  children j _ := (alike.node j).children
  comments j slot _ := (alike.node j).comments slot

theorem Follows.alike (h : u.Follows f (fun _ => False) (fun _ _ => False) v)
    (size : v.nodes.size = u.nodes.size) (old : ∀ j < first, f j = j) : Alike first f u v where
  eol := h.eol
  size := size
  old := old
  far j ge := by
    obtain ⟨i, rfl⟩ := Nat.exists_eq_add_of_le ge
    rw [h.far, size]
  inj := h.inj
  node j := ⟨h.kind j, h.span j, h.parent j id, h.children j id, fun slot => h.comments j slot id⟩

/-- Documents that are alike do a deed alike. -/
theorem Alike.does (alike : Alike first f u v) (linked : u.Linked) (linked' : v.Linked)
    (one : u.Does o rule d u') (two : v.Does o rule d' v')
    (same : d.Matches u f (fun _ => False) d') (name : RuleName rule) :
    Alike first f u' v' ∧ d'.answer v rule = d.answer u rule := by
  have before := alike.follows
  obtain ⟨after, answer⟩ := one.follows two before linked linked' same (fun _ _ h => h.elim)
    (fun _ _ _ _ => id) name
  obtain ⟨a, size⟩ := Nat.exists_eq_add_of_le (one.spares linked).grows
  refine ⟨after.alike ?_ alike.old, answer⟩
  rw [before.width after size, alike.size, size]

/-- A call for an old target comes to the same in documents that are alike. -/
theorem Alike.call (alike : Alike first f u v) (here : Poised source u l t)
    (there : Poised source v l t) (fixed : t.map f = t) (name : RuleName rule) (o : AnnotateOptions) :
    ∃ u' v' a, u.annotateAt o t l rule = .ok (u', a) ∧ v.annotateAt o t l rule = .ok (v', a) ∧
      Alike first f u' v' := by
  have notes : u.NotesAgree f (fun _ => False) v :=
    ⟨fun _ _ => id, fun j => (alike.node j).directed_eq .inner⟩
  obtain ⟨d, stands⟩ := here.sound.stands here.suits here.prepared o
  obtain ⟨d', stands', same⟩ := stands.follow alike.follows notes (fun _ _ _ _ => id) fun _ _ => id
  rw [fixed] at stands'
  obtain ⟨u', called, does⟩ := stands.call here.sound here.suits here.prepared rule
  obtain ⟨v', called', does'⟩ := stands'.call there.sound there.suits there.prepared rule
  obtain ⟨next, answer⟩ := alike.does here.sound.linked there.sound.linked does does' same name
  rw [answer] at called'
  exact ⟨u', v', _, called, called', next⟩

theorem Alike.cut (alike : Alike first f u v) (sound : u.Sound source) (sound' : v.Sound source)
    (above : u.Reaches p) (above' : v.Reaches p) (markup : (u.kind p).hasMarkupChildren = true)
    (old : p < first) (done : u.segmentChildren p p = .ok u') (done' : v.segmentChildren p p = .ok v') :
    Alike first f u' v' := by
  have fixed := alike.old p old
  have far := alike.follows
  have markup' : (v.kind p).hasMarkupChildren = true := by
    rwa [← fixed, far.kind]
  obtain ⟨head, body, tail, closing, layout, -⟩ := (sound.each p above).arranged markup
  rw [← List.append_nil (body ++ tail)] at layout
  have layout' := far.layout layout id
  rw [fixed, List.map_append] at layout'
  rw [Trims.segmentAll_eq layout nofun sound above markup (sound.reaches_lt above)
    (text?_of_markup markup)] at done
  rw [Trims.segmentAll_eq layout' nofun sound' above' markup' (sound'.reaches_lt above')
    (text?_of_markup markup')] at done'
  rw [List.append_nil] at layout
  have split : u.children p = [head] ++ (body ++ tail) ++ closing := layout.split
  have split' : v.children (f p) = [f head] ++ (body ++ tail).map f ++ closing.map f := by
    rw [far.children p id, layout.split]
    simp
  have leaf := layout.leaf sound above
  obtain ⟨_, _, N, result, result', after, -, -⟩ := far.segmentAll sound.linked sound'.linked split split'
    leaf (fun _ _ _ => id) fun _ => ⟨rfl, rfl⟩
  cases done.symm.trans result
  cases done'.symm.trans result'
  obtain ⟨a, size⟩ := Nat.exists_eq_add_of_le
    (segmentAll_spares sound.linked split leaf done).1.grows
  refine after.alike ?_ alike.old
  rw [far.width after size, alike.size, size]

end Akin

section Cut

theorem Layout.trims (layout : z.Layout p head X closing) : z.Trims p (.cut p [head] X closing) :=
  .mk (C := []) (by rwa [List.append_nil]) nofun

/-- A cut names old nodes only, so it is the same behind any other deed that leaves its texts alone. -/
theorem Layout.cut_same (layout : z.Layout p head X closing) (linked : z.Linked) {E : NodeId → Prop}
    (texts : ∀ x ∈ X, z.text? x ≠ none → ¬ E x) (b : Nat) {closing' : List NodeId}
    (around : ¬ E p → closing' = closing) :
    (Deed.cut p [head] X closing).Matches z (shift z.nodes.size b) E (.cut p [head] X closing') := by
  have held : ∀ x ∈ head :: (X ++ closing), z.Holds p x := fun x hx => by
    unfold Holds
    rw [layout.split]
    exact hx
  have lists : ∀ xs : List NodeId, (∀ x ∈ xs, x ∈ head :: (X ++ closing)) →
      xs.map (shift z.nodes.size b) = xs := fun xs sub =>
    map_shift fun x hx => linked.child_lt (held x (sub x hx))
  have moved : (Deed.cut p [head] X closing).Matches z (shift z.nodes.size b) E
      (.cut (shift z.nodes.size b p) [head] (X.map (shift z.nodes.size b)) closing') :=
    .cut (fun out => ⟨(lists [head] (by simp)).symm,
      (around out).trans (lists closing (by simp +contextual)).symm⟩) texts
  rwa [shift_old (held head (by simp)).parent_lt, lists X (by simp +contextual)] at moved

/-- A cut and a deed elsewhere may come in either order. -/
theorem Layout.cut_swap (layout : z.Layout p head X closing) (sound : z.Sound source)
    (above : z.Reaches p) (markup : (z.kind p).hasMarkupChildren = true)
    (done : z.segmentChildren p p = .ok w) (two : z.Does o q e y) (sound' : y.Sound source)
    (above' : y.Reaches p) (done' : y.segmentChildren p p = .ok y') (old : first ≤ z.nodes.size)
    (free : ¬ e.links z p) (texts : ∀ j, e.links z j → z.text? j ≠ none → ¬ z.Holds p j)
    (size : w.nodes.size = z.nodes.size + a)
    (same' : e.Matches z (shift z.nodes.size a) ((Deed.cut p [head] X closing).links z) e')
    (next : w.Does o q e' w') (name : RuleName q) :
    Akin first w' y' ∧ e'.answer w q = e.answer z q := by
  have linked := sound.linked
  have spares := two.spares linked
  obtain ⟨b, size'⟩ := Nat.exists_eq_add_of_le spares.grows
  have layout' := spares.layout linked layout free
  have markup' : (y.kind p).hasMarkupChildren = true := by
    rwa [spares.kind p (sound.reaches_lt above)]
  have one := layout.trims.does sound above markup done o q
  have next' := layout'.trims.does sound' above' markup' done' o q
  have hold : ∀ x ∈ X, z.Holds p x := fun x => layout.mem_children
  have same := layout.cut_same linked (fun x hx text h => texts x h text (hold x hx)) b fun _ => rfl
  have swapped : Alike first _ w' y' ∧ e'.answer w q = e.answer z q ∧ _ :=
    swap_deeds linked old size size' one two next next' same same' nofun (fun j h h' => ?_) name name
  · exact ⟨⟨_, swapped.1⟩, swapped.2.1⟩
  · rcases h' with rfl | ⟨mem, text⟩
    · exact absurd h free
    · exact absurd (hold j mem) (texts j h text)

variable {k : NodeId}

theorem old_of_mem_noteIds {n x : Nat} {lead : Option Text} (mem : x ∈ noteIds n lead) : n ≤ x := by
  unfold noteIds at mem
  cases lead <;> simp at mem <;> omega

/-- A cut and the call for the closing tag of the same element. -/
theorem Stands.cut_closing (stands : Stands o l z (.node k (some p)) e)
    (tag : z.kind k = .closingTag) (markup : (z.kind p).hasMarkupChildren = true)
    (sound : z.Sound source) (suits : z.Suits l (.node k (some p)))
    (done : z.segmentChildren p p = .ok w) (two : z.Does o q e y) (edits : Edits o q z y)
    (done' : y.segmentChildren p p = .ok y') (old : first ≤ z.nodes.size) (name : RuleName q) :
    ∃ e', Stands o l w (.node k (some p)) e' ∧
      ∀ w', w.Does o q e' w' → Akin first w' y' ∧ e'.answer w q = e.answer z q := by
  have linked := sound.linked
  obtain ⟨_, eq, seated⟩ := suits
  cases eq
  have above := seated.above
  have sound' := Edits.sound edits sound
  have above' : y.Reaches p := (Edits.frame edits sound).kept p (sound.reaches_lt above) above
    (text?_of_markup markup)
  obtain ⟨head, body, tail, closing, layout, -⟩ := (sound.each p above).arranged markup
  obtain rfl := layout.closing_eq seated.hold tag
  generalize body ++ tail = items at layout
  have one := layout.trims.does sound above markup done o q
  have spares := one.spares linked
  obtain ⟨a, size⟩ := Nat.exists_eq_add_of_le spares.grows
  have notes := one.notes linked size nofun
  have fixed : ∀ j, j = p ∨ j ∈ z.children p → shift z.nodes.size a j = j := by
    rintro j (rfl | mem)
    · exact shift_old (sound.reaches_lt above)
    · exact shift_old (linked.child_lt mem)
  -- What stands in front of the tag when the texts are cut.
  obtain ⟨N, here, plain, front⟩ : ∃ N, w.children p = [head] ++ N ++ [k] ∧
      (∀ x ∈ N, x ∈ items ∨ w.text? x ≠ none) ∧
      ∀ D, (∀ d ∈ D, d ∈ [k]) → w.nearestSlot (N ++ D) = z.nearestSlot (items ++ D) ∧
        w.tailText (N ++ D).reverse = z.tailText (items ++ D).reverse := by
    cases one with
    | cut _ _ split leaf result => exact segmentAll_behind linked split leaf result
  obtain ⟨near, run⟩ := front [] nofun
  rw [List.append_nil, List.append_nil] at near run
  have layout' : w.Layout p head N [k] :=
    layout.renew (fun j hj => ⟨spares.kind j (linked.child_lt hj), spares.span j (linked.child_lt hj)⟩)
      here fun x hx => (plain x hx).imp_right fun text => by
        obtain ⟨t, value⟩ := Option.ne_none_iff_exists'.mp text
        exact plain_of_text value
  have slot : w.nearestSlot N = (z.nearestSlot items).map (shift z.nodes.size a) := by
    rw [near]
    cases found : z.nearestSlot items with
    | none => rfl
    | some x =>
      obtain ⟨j, -, hold, -⟩ := nearestSlot_holds found
      exact congrArg some (shift_old (linked.child_lt hold)).symm
  obtain ⟨e', there, same', at_⟩ := stands.slide_closing (spares.follows linked size) notes fixed tag
    markup (.inl rfl) layout layout' slot run
  refine ⟨e', there, fun w' next => ?_⟩
  by_cases held : e.links z p
  · obtain ⟨_, A, B, C, parts, lead, indent, -, rfl⟩ := stands.note_of_links two markup held
    obtain ⟨rfl, rfl, rfl, place⟩ := at_ _ _ _ .note
    obtain ⟨b, size'⟩ := Nat.exists_eq_add_of_le (two.spares linked).grows
    have noted : z.Noted y p (head :: items) [k] lead (directiveText o .nextLine q .block)
        (z.eol.text ++ indent) := by
      cases two with
      | note _ _ _ inserts =>
        cases inserts with
        | beside noted => exact noted
    have hold : ∀ x ∈ noteIds z.nodes.size lead, y.Holds p x := fun x mem => by
      unfold Holds
      rw [noted.splice.children_here]
      simp [mem]
    have layout₂ : y.Layout p head (items ++ noteIds z.nodes.size lead) [k] :=
      layout.renew (two.kept linked) (by rw [noted.splice.children_here]; simp) fun x hx =>
        (List.mem_append.mp hx).imp_right noted.plain
    have markup' : (y.kind p).hasMarkupChildren = true := by
      rwa [(two.spares linked).kind p (sound.reaches_lt above)]
    have next' := (Trims.mk layout₂ fun x mem =>
      Edits.new_whole edits sound (above'.child (hold x mem)) (old_of_mem_noteIds mem)).does sound'
        above' markup' done' o q
    have same : (Deed.cut p [head] items [k]).Matches z (shift z.nodes.size b)
        ((Deed.note p (head :: items) [] [k] parts lead indent).links z)
        (.cut p [head] items (noteIds z.nodes.size lead ++ [k])) := by
      refine layout.cut_same linked (fun x _ text => ?_) b fun out => absurd held out
      rintro (rfl | mem)
      · exact text (text?_of_markup markup)
      · cases mem
    have swapped := swap_beside (M := []) linked old size size' one two next next' same same' .cut
      (by rw [List.append_nil]; exact .note) .cut place name name
    exact ⟨⟨_, swapped.1⟩, swapped.2.1⟩
  · exact layout.cut_swap sound above markup done two sound' above' done' old held
      (fun j h => absurd h (stands.links_none held j)) size same' next name

/-- A cut and a call that does not look at the element. -/
theorem Stands.cut_far (stands : Stands o l z t e) (sound : z.Sound source) (suits : z.Suits l t)
    (above : z.Reaches p) (markup : (z.kind p).hasMarkupChildren = true)
    (away : ∀ id, t = .node id (some p) → ¬ z.Looks id p) (done : z.segmentChildren p p = .ok w)
    (two : z.Does o q e y) (edits : Edits o q z y) (done' : y.segmentChildren p p = .ok y')
    (old : first ≤ z.nodes.size) (name : RuleName q) :
    ∃ e', Stands o l w t e' ∧
      ∀ w', w.Does o q e' w' → Akin first w' y' ∧ e'.answer w q = e.answer z q := by
  have linked := sound.linked
  have solid := text?_of_markup markup
  have above' := (Edits.frame edits sound).kept p (sound.reaches_lt above) above solid
  obtain ⟨head, body, tail, closing, layout, -⟩ := (sound.each p above).arranged markup
  generalize body ++ tail = items at layout
  have one := layout.trims.does sound above markup done o q
  obtain ⟨a, size⟩ := Nat.exists_eq_add_of_le (one.spares linked).grows
  obtain ⟨e', there, same'⟩ := stands.carry suits sound one size (one.notes linked size nofun) <| by
    rintro j (rfl | ⟨-, text⟩)
    · refine ⟨fun id p eq looks => ?_, fun block eq => ?_⟩
      · rintro rfl
        exact away id eq looks
      · rintro rfl
        rw [eq] at suits
        exact not_block_of_markup markup suits.2
    · refine ⟨fun id p _ looks => ?_, fun block eq => ?_⟩
      · rintro rfl
        exact text (text?_of_markup looks.1)
      · rintro rfl
        rw [eq] at suits
        exact not_block_of_text text suits.2
  refine ⟨e', there, fun w' next => layout.cut_swap sound above markup done two
    (Edits.sound edits sound) above' done' old ?_ ?_ size same' next name⟩
  · intro held
    rcases stands.cases_of_links two held with ⟨id, _, eq, looks, rfl | ⟨text, -⟩⟩ | ⟨-, kind⟩
    · exact away id eq looks
    · exact text solid
    · exact not_block_of_markup markup kind
  · intro j held text hold
    rcases stands.cases_of_links two held with ⟨id, p', eq, looks, rfl | ⟨-, hold'⟩⟩ | ⟨-, kind⟩
    · exact text (text?_of_markup looks.1)
    · obtain rfl : p = p' := Option.some.inj
        (((linked.agree p j).mp hold).symm.trans ((linked.agree p' j).mp hold'))
      exact away id eq looks
    · exact not_block_of_text text kind

/-- Texts of two elements may be cut in either order. -/
theorem Sound.cut_cut {p' : NodeId} {z' : Document} (sound : z.Sound source) (above : z.Reaches p)
    (markup : (z.kind p).hasMarkupChildren = true) (above' : z.Reaches p')
    (markup' : (z.kind p').hasMarkupChildren = true) (ne : p ≠ p') (old : first ≤ z.nodes.size)
    (done : z.segmentChildren p p = .ok w) (done' : z.segmentChildren p' p' = .ok z')
    (next : w.segmentChildren p' p' = .ok w') (next' : z'.segmentChildren p p = .ok y')
    (name : RuleName q) : Akin first w' y' := by
  have linked := sound.linked
  obtain ⟨head, body, tail, closing, layout, -⟩ := (sound.each p above).arranged markup
  obtain ⟨head', body', tail', closing', layout', -⟩ := (sound.each p' above').arranged markup'
  generalize body ++ tail = X at layout
  generalize body' ++ tail' = X' at layout'
  have one := layout.trims.does sound above markup done {} q
  have two := layout'.trims.does sound above' markup' done' {} q
  have free : ¬ (Deed.cut p [head] X closing).links z p' := by
    rintro (e | ⟨-, text⟩)
    · exact ne e.symm
    · exact text (text?_of_markup markup')
  have free' : ¬ (Deed.cut p' [head'] X' closing').links z p := by
    rintro (e | ⟨-, text⟩)
    · exact ne e
    · exact text (text?_of_markup markup)
  have apart : ∀ x ∈ X', ¬ z.Holds p x := fun x mem hold => ne <| Option.some.inj
    (((linked.agree p x).mp hold).symm.trans ((linked.agree p' x).mp (layout'.mem_children mem)))
  obtain ⟨a, size⟩ := Nat.exists_eq_add_of_le (one.spares linked).grows
  obtain ⟨_, again, slits, -⟩ := sound.cut above markup
  cases done.symm.trans again
  obtain ⟨_, again', slits', -⟩ := sound.cut above' markup'
  cases done'.symm.trans again'
  have sound' := (Slits.spec slits sound above markup).1
  have sound'' := (Slits.spec slits' sound above' markup').1
  have kept := fun {j} (reached : z.Reaches j) (kind : (z.kind j).hasMarkupChildren = true) =>
    fun {u : Document} (edits : Edits {} [] z u) => (Edits.frame edits sound).kept j
      (sound.reaches_lt reached) reached (text?_of_markup kind)
  have stays : (w.kind p').hasMarkupChildren = true := by
    rwa [(one.spares linked).kind p' (sound.reaches_lt above')]
  have cut' := ((one.spares linked).layout linked layout' free).trims.does sound'
    (kept above' markup' (Slits.edits slits sound above markup)) stays next {} q
  refine (layout.cut_swap sound above markup done two sound''
    (kept above markup (Slits.edits slits' sound above' markup')) next' old free' ?_ size
    (layout'.cut_same linked ?_ a fun _ => rfl) cut' name).1
  · rintro j (rfl | ⟨mem, -⟩) text
    · exact absurd (text?_of_markup markup') text
    · exact apart j mem
  · rintro x mem text (rfl | ⟨mem', -⟩)
    · exact text (text?_of_markup markup)
    · exact apart x mem (layout.mem_children mem')

end Cut

end Quell.Document
