import Quell.Proofs.Annotate.Sides

/-!
Lines whose calls come to the same all along a run.

When the texts of an element are cut for one line, another line may get a new first node: the words
with which a text runs on into it. If these stand beside the target of that line, the call for them
comes to what the call for the target came to (`Guides.annotateOne_eq`). If not, it comes to something
else, and so they are excluded (`Steady`).
-/
namespace Quell.Document

open Text Relation

variable {source : Text} {o : AnnotateOptions} {rule : Text} {line : Nat}
variable {u v w : Document} {id p q first : NodeId} {X₁ X₂ R closing : List NodeId}
variable {t : Target} {t? : Option Target}

/-- A text of the element runs on into the line with a word. -/
def RunsOn (u : Document) (line : Nat) (q : NodeId) : Prop :=
  ∃ x t s a c b, u.Holds q x ∧ u.text? x = some t ∧ u.span x = some s ∧ t = a ++ c :: b ∧
    isBlank c = false ∧ s.startLine + breaks a = line ∧ breaks a ≠ 0

/-- The target is no text. If texts of the element run on into the line with words, the target is a
child of the element, and the comment for it goes in front of the words. -/
structure Steady (doc : Document) (line : Nat) : Prop where
  code : ∀ id p, doc.locate line = some (.node id p) → doc.text? id = none
  words : ∀ q, doc.Reaches q → doc.RunsOn line q →
    ∃ id, doc.locate line = some (.node id (some q)) ∧ doc.Among id q ∧ doc.kind id ≠ .openingTag

/-- The call for the line is a call for the target: the target is the first node, or the first node
is a text in front of it on the line. -/
inductive Guides (u : Document) (line : Nat) : Target → Prop where
  | here {t : Target} : u.locate line = some t → Guides u line t
  | word {id p x first : NodeId} {X₁ X₂ R closing : List NodeId} :
      u.locate line = some (.node x (some p)) → u.text? x ≠ none → x ∈ X₂ →
      u.Sits line p id first X₁ X₂ R closing → u.Among id p → u.Seated line id p →
      (∀ y, u.Holds p y → u.Whole y) → Guides u line (.node id (some p))

def Solid (u : Document) : Target → Prop
  | .node id _ => u.text? id = none
  | .blockTail _ => True

def Runs (u : Document) (line : Nat) (t? : Option Target) : Prop :=
  ∀ q, u.Reaches q → u.RunsOn line q →
    ∃ id, t? = some (.node id (some q)) ∧ u.Among id q ∧ u.kind id ≠ .openingTag

/-- What stays true of a steady line and its target. -/
structure Upholds (u : Document) (line : Nat) (t? : Option Target) : Prop where
  runs : u.Runs line t?
  missed : t? = none → u.locate line = none
  guides : ∀ t ∈ t?, u.Guides line t ∧ u.Solid t

theorem Steady.upholds (steady : u.Steady line) : u.Upholds line (u.locate line) := by
  refine ⟨steady.words, fun h => h, fun t ht => ⟨.here ht, ?_⟩⟩
  cases t with
  | node id p => exact steady.code id p ht
  | blockTail => trivial

theorem Guides.suits (guides : u.Guides line t) (sound : u.Sound source) : u.Suits line t := by
  cases guides with
  | here found => exact sound.suits found
  | word _ _ _ _ _ seated => exact ⟨_, rfl, seated⟩

section Word

theorem Sound.first_of_locate (sound : u.Sound source) {q : Option NodeId}
    (found : u.locate line = some (.node id q)) : ∃ rest, u.startingOn line = id :: rest := by
  rw [sound.locate_eq] at found
  obtain ⟨h, first, aim⟩ := Option.map_eq_some_iff.mp found
  obtain ⟨rest, start⟩ := List.head?_eq_some_iff.mp first
  obtain ⟨-, -, p, link, -⟩ := sound.first_spec start
  rcases aim_node link with e | ⟨block, e⟩
  · rw [e] at aim
    cases aim
    exact ⟨rest, start⟩
  · rw [e] at aim
    cases aim

theorem Sound.ink_of_locate (sound : u.Sound source) {q : Option NodeId}
    (found : u.locate line = some (.node id q)) : u.isBlankText id = false := by
  obtain ⟨rest, first⟩ := sound.first_of_locate found
  exact (sound.first_spec first).2.1.2.1

theorem Sound.locate_of_first (sound : u.Sound source) {rest : List NodeId}
    (first : u.startingOn line = id :: rest) (hold : u.Holds p id)
    (markup : (u.kind p).hasMarkupChildren = true) : u.locate line = some (.node id (some p)) := by
  rw [sound.locate_eq, first, List.head?_cons, Option.map_some,
    aim_of_markup sound.linked hold markup]

theorem Among.annotateAt (among : u.Among id p) (whole : ∀ y, u.Holds p y → u.Whole y)
    (o : AnnotateOptions) (line : Nat) (rule : Text) :
    u.annotateAt o (.node id (some p)) line rule = u.placeAmong o p id line rule := by
  rw [Document.annotateAt, annotateNode_eq, if_neg among.last, if_neg among.beside,
    among.attach whole]

/-- Room is made at the same place for a target and for a word in front of it. -/
theorem indentBefore_word {G₁ G₂ : List NodeId} {x : NodeId} (solid : u.isBlankText x = false)
    (layout : u.Layout p first (X₁ ++ (G₁ ++ x :: G₂) ++ id :: R) closing) :
    u.indentBefore (u.children p) 1 (1 + X₁.length) (1 + (X₁ ++ G₁).length) =
      u.indentBefore (u.children p) 1 (1 + X₁.length) (1 + (X₁ ++ (G₁ ++ x :: G₂)).length) := by
  have layout' : u.Layout p first (X₁ ++ G₁ ++ x :: (G₂ ++ id :: R)) closing := by
    have shape : X₁ ++ G₁ ++ x :: (G₂ ++ id :: R) = X₁ ++ (G₁ ++ x :: G₂) ++ id :: R := by simp
    rw [shape]
    exact layout
  have same : u.ownIndent? (u.children p) 1 (1 + X₁.length) (1 + (X₁ ++ G₁).length) =
      u.ownIndent? (u.children p) 1 (1 + X₁.length) (1 + (X₁ ++ (G₁ ++ x :: G₂)).length) := by
    refine Option.ext fun t => (ownIndent?_iff layout' t).trans (Iff.trans ?_
      (ownIndent?_iff layout t).symm)
    constructor
    · rintro ⟨y, G, rfl, own⟩
      exact ⟨y, G ++ x :: G₂, rfl, own⟩
    · rintro ⟨y, G, shape, own⟩
      cases G₁ with
      | nil =>
        -- The word is not blank.
        obtain rfl : x = y := by simpa using congrArg List.head? shape
        unfold isBlankText at solid
        rw [own.1] at solid
        exact absurd own.2.2.1 (by
          have : allBlank t = false := solid
          rw [this]
          exact nofun)
      | cons z G₁ =>
        obtain rfl : z = y := by simpa using congrArg List.head? shape
        exact ⟨z, G₁, rfl, own⟩
  rw [indentBefore_eq, indentBefore_eq, same]

theorem Guides.annotateOne_eq (guides : u.Guides line t) (sound : u.Sound source) (o : AnnotateOptions)
    (rule : Text) : u.annotateOne o line rule = u.annotateAt o t line rule := by
  cases guides with
  | here found => exact annotateOne_of_locate found o rule
  | @word id p x first X₁ X₂ R closing found text mem sits among seated whole =>
    obtain ⟨G₁, G₂, rfl⟩ := List.append_of_mem mem
    have shape : X₁ ++ G₁ ++ x :: (G₂ ++ id :: R) = X₁ ++ (G₁ ++ x :: G₂) ++ id :: R := by simp
    have sits' : u.Sits line p x first X₁ G₁ (G₂ ++ id :: R) closing :=
      ⟨by rw [shape]; exact sits.layout, fun y hy => sits.group.on y (by simp [hy]), sits.group.above⟩
    obtain ⟨_, same, seated'⟩ := sound.seated found
    cases same
    obtain ⟨t, value⟩ := Option.ne_none_iff_exists'.mp text
    have plain := plain_of_text value
    have kind : u.kind x ≠ .attribute := by
      intro h
      unfold text? at value
      rw [h] at value
      cases value
    have among' : u.Among x p := ⟨plain.2, not_beside_of_markup among.markup kind, among.markup,
      fun e slot => by
        rw [commentSlot_text text] at slot
        cases slot⟩
    have solid := sound.ink_of_locate found
    obtain ⟨spot, index, start⟩ := sits.spot sound seated among.markup
      (sits.layout.items id (by simp)) whole
    obtain ⟨spot', index', start'⟩ := sits'.spot sound seated' among.markup plain whole
    have layout : u.Layout p first (X₁ ++ (G₁ ++ x :: G₂ ++ id :: R)) closing := by
      rw [← List.append_assoc]
      exact sits.layout
    rw [annotateOne_of_locate found, among'.annotateAt whole, among.annotateAt whole,
      spot.placeAmong_eq among.markup index start, spot'.placeAmong_eq among.markup index' start']
    rcases mergeBefore_cases layout among.markup spot.rows rule with ⟨e, r, -, settled, merged⟩ | ⟨merged, -⟩
    · rw [merged, settled]
    · rw [merged]
      dsimp only [Resolution.ofMerge]
      rw [indentBefore_word solid sits.layout]

end Word

section Edits

theorem Edit.parent_back (edit : Edit o rule u v) (sound : u.Sound source) {x : NodeId}
    (lt : x < u.nodes.size) (link : v.parent x = some q) : u.parent x = some q := by
  have splice : ∀ {p : NodeId} {A B N C : List NodeId}, u.Splice v p A B N C →
      u.parent x = some q := by
    intro p A B N C splice
    by_cases gone : x ∈ B
    · rw [splice.parent_gone gone] at link
      cases link
    · rwa [splice.parent_rest lt gone] at link
  cases edit with
  | extend => exact (tree_setComments x).2.2.2.symm.trans link
  | beside => exact (tree_setComments x).2.2.2.symm.trans (appendComment_eq .. ▸ link)
  | behind => exact (tree_setComments x).2.2.2.symm.trans (appendComment_eq .. ▸ link)
  | fill reached => exact splice (addPlaceholder_spec (sound.reaches_lt reached)).1
  | cut _ _ _ _ recut => exact splice recut.splice
  | among _ _ _ _ _ _ _ _ noted => exact splice noted.splice
  | last _ _ _ _ _ noted => exact splice noted.splice

variable (edits : Edits o rule u v) (sound : u.Sound source)
include edits sound

theorem Edits.parent_back {x : NodeId} (lt : x < u.nodes.size) (link : v.parent x = some q) :
    u.parent x = some q := by
  induction edits with
  | refl => exact link
  | tail before edit ih =>
    exact ih (edit.parent_back (Edits.sound before sound)
      (Nat.lt_of_lt_of_le lt (Edits.frame before sound).grows) link)

theorem Edits.new_whole {x : NodeId} (reached : v.Reaches x) (new : u.nodes.size ≤ x) :
    v.Whole x := by
  induction edits with
  | refl => exact absurd (sound.reaches_lt reached) (Nat.not_lt_of_le new)
  | @tail mid v before edit ih =>
    have sound' := Edits.sound before sound
    rcases Nat.lt_or_ge x mid.nodes.size with lt | ge
    · have frame := (edit.frame sound').1
      intro t value
      rw [frame.text?_eq lt] at value
      exact ih (frame.back x reached lt) t value
    · exact edit.new_whole sound' reached ge

theorem Edits.whole (whole : ∀ y, u.Holds p y → u.Whole y)
    (above' : v.Reaches p) : ∀ y, v.Holds p y → v.Whole y := by
  intro y hold t value
  rcases Nat.lt_or_ge y u.nodes.size with lt | ge
  · have link := Edits.parent_back edits sound lt (((Edits.sound edits sound).linked.agree p y).mp hold)
    rw [(Edits.frame edits sound).text?_eq lt] at value
    exact whole y ((sound.linked.agree p y).mpr link) t value
  · exact Edits.new_whole edits sound (above'.child hold) ge t value

/-- No text comes to run on into a line. -/
theorem RunsOn.back (run : v.RunsOn line q) (reached : v.Reaches q) :
    u.Reaches q ∧ u.RunsOn line q := by
  obtain ⟨x, t, s, a, c, b, hold, value, span, rfl, ink, start, ne⟩ := run
  have frame := Edits.frame edits sound
  rcases Nat.lt_or_ge x u.nodes.size with lt | ge
  · have link := Edits.parent_back edits sound lt (((Edits.sound edits sound).linked.agree q x).mp hold)
    rw [frame.text?_eq lt] at value
    rw [(frame.same x lt).2] at span
    exact ⟨frame.back q reached (sound.linked.parent_lt link),
      x, _, s, a, c, b, (sound.linked.agree q x).mpr link, value, span, rfl, ink, start, ne⟩
  · have settled := Edits.new_whole edits sound (reached.child hold) ge _ value
    have mem : '\n' ∈ a := List.count_pos_iff.mp (Nat.pos_of_ne_zero ne)
    have blank := settled.blank_of_break (List.mem_append_left _ mem)
    rw [allBlank_iff] at blank
    exact absurd (blank c (by simp)) (by rw [ink]; exact nofun)

theorem Edits.seated (seated : u.Seated line id p) (same : v.parent id = u.parent id) :
    v.Seated line id p := by
  have frame := Edits.frame edits sound
  have lt := sound.linked.child_lt seated.hold
  have solid : u.text? p = none := by
    cases value : u.text? p with
    | none => rfl
    | some t =>
      have hold := seated.hold
      unfold Holds at hold
      rw [((sound.each p seated.above).text t value).1] at hold
      cases hold
  obtain ⟨s, span, start⟩ := seated.start
  refine ⟨frame.kept p (sound.reaches_lt seated.above) seated.above solid, ?_, s, ?_, start⟩
  · exact ((Edits.sound edits sound).linked.agree p id).mpr
      (same.trans ((sound.linked.agree p id).mp seated.hold))
  · rw [(frame.same id lt).2, span]

end Edits

section Locate

variable {d : Deed} {u' : Document}

/-- Where the links of no conditional change, lines aim as before. -/
theorem Spares.aim_eq {E : NodeId → Prop} {K : NodeId → Slot → Prop} (spares : u.Spares E K v)
    (linked : u.Linked) (plain : ∀ j, E j → u.kind j ≠ .conditional) {x : NodeId}
    (parent : v.parent x = u.parent x) : v.aim x = u.aim x := by
  cases link : u.parent x with
  | none =>
    unfold aim
    rw [parent, link]
  | some q =>
    have lt := linked.parent_lt link
    by_cases held : E q
    · have none : ∀ {w : Document}, w.kind q ≠ .conditional → w.branches q = none := by
        intro w other
        unfold branches
        split
        · exact absurd ‹_› other
        · rfl
      have here := none (plain q held)
      have there := none (w := v) (by rw [spares.kind q lt]; exact plain q held)
      unfold aim
      rw [parent, link]
      dsimp only
      rw [here, there]
    · refine aim_congr parent fun q' link' => ?_
      cases link.symm.trans link'
      exact ⟨spares.kind q lt, spares.children q lt held, fun c hc =>
        spares.kind c (linked.child_lt hc)⟩

theorem Stands.not_cut (stands : Stands o line u t d) : ∀ q A X C, d ≠ .cut q A X C := by
  cases stands <;> exact nofun

theorem Stands.startingOn_eq {l : Nat} (stands : Stands o l u t d) (does : u.Does o rule d u')
    (sound : u.Sound source) (suits : u.Suits l t) (line : Nat) :
    u'.startingOn line = u.startingOn line := by
  have serve : ∀ {w : Document} (_ : w.Linked) (_ : root < w.nodes.size) (id : NodeId) {way : Way}
      (_ : way.Fair o), (w.serveAt id way rule).1.startingOn line = w.startingOn line := by
    intro w linked root_lt id way fair
    obtain ⟨slot, -, cs, same⟩ := serveAt_eq fair w id rule
    rw [same, startingOn_setComments linked root_lt]
  have note : ∀ {id p : NodeId} {A B C : List NodeId} {front : List Text} {lead : Option Text}
      {ind : Text}, t = .node id (some p) → u.Does o rule (.note p A B C front lead ind) u' →
      u'.startingOn line = u.startingOn line := by
    rintro id p A B C front lead ind rfl does
    obtain ⟨_, same, seated⟩ := suits
    cases same
    cases does with
    | note _ _ blank inserts =>
      cases inserts with
      | beside noted => exact noted.startingOn_eq sound seated.above
      | @parted b _ room _ recut noted =>
        have blank := blank b (by simp)
        unfold isBlankText at blank
        rw [recut.value] at blank
        have ne : p ∉ [b] := by
          rw [List.mem_singleton]
          rintro rfl
          exact sound.linked.not_below_of_holds (recut.splice.holds_of_mem (by simp))
            ReflTransGen.refl
        rw [noted.splice.startingOn_eq (recut.splice.linked' sound.linked)
          (Nat.lt_of_lt_of_le sound.root_lt recut.splice.grows)
          (recut.splice.reaches_kept sound.linked seated.above ne) nofun
          fun _ new => starts?_of_spanless (noted.spanless_new new) line]
        exact recut.startingOn_blank sound seated.above blank
  cases stands with
  | childless | tag => cases does; rfl
  | beside | behind | within | handled | own | near =>
    cases does with
    | serve _ fair => exact serve sound.linked sound.root_lt _ fair
  | fill =>
    cases does with
    | fill valid =>
      have splice := (addPlaceholder_spec valid).1
      rw [serve (splice.linked' sound.linked) (Nat.lt_of_lt_of_le sound.root_lt splice.grows) _
        (behindWay_fair o)]
      exact startingOn_addPlaceholder sound suits.1
  | last => exact note rfl does
  | room => exact note rfl does

theorem Stands.locate_eq {l : Nat} (stands : Stands o l u t d) (does : u.Does o rule d u')
    (sound : u.Sound source) (sound' : u'.Sound source) (suits : u.Suits l t) (line : Nat) :
    u'.locate line = u.locate line := by
  rw [sound.locate_eq, sound'.locate_eq, stands.startingOn_eq does sound suits]
  cases first : u.startingOn line with
  | nil => rfl
  | cons h rest =>
    obtain ⟨reached, starts, -⟩ := sound.first_spec first
    refine congrArg some ((does.spares sound.linked).aim_eq sound.linked
      (fun j held => (does.kind_of_links held).2) ?_)
    exact does.parent_stays sound.linked (sound.reaches_lt reached)
      (.inr ⟨starts.2.1, stands.not_cut⟩)

end Locate

section Upholds

variable {d : Deed} {u' : Document} {l : Nat}

/-- The children of an element are changed by comments for children of it. -/
theorem Stands.note_of_links (stands : Stands o l u t d) (does : u.Does o rule d u')
    (markup : (u.kind p).hasMarkupChildren = true) (held : d.links u p) :
    ∃ k A B C front lead indent, t = .node k (some p) ∧ d = .note p A B C front lead indent := by
  have here : ∀ {p' : NodeId} {A B C : List NodeId} {front : List Text} {lead : Option Text}
      {indent : Text}, u.Does o rule (.note p' A B C front lead indent) u' → p = p' ∨ p ∈ B →
      p = p' := by
    intro p' A B C front lead indent does held
    refine held.resolve_right fun mem => ?_
    cases does with
    | note _ _ blank => exact text_of_blank (blank p mem) (text?_of_markup markup)
  cases stands with
  | childless | tag | beside | behind | within | handled | own | near => exact held.elim
  | fill =>
    cases does with
    | fill _ kind =>
      obtain rfl : p = _ := held
      rw [kind] at markup
      cases markup
  | last =>
    obtain rfl := here does held
    exact ⟨_, _, _, _, _, _, _, rfl, rfl⟩
  | room =>
    obtain rfl := here does held
    exact ⟨_, _, _, _, _, _, _, rfl, rfl⟩

theorem Spares.layout {E : NodeId → Prop} {K : NodeId → Slot → Prop} {items : List NodeId}
    (spares : u.Spares E K v) (linked : u.Linked) (layout : u.Layout p first items closing)
    (free : ¬ E p) : v.Layout p first items closing := by
  have split := layout.split
  have held : ∀ x ∈ first :: (items ++ closing), u.Holds p x := fun x hx => by
    unfold Holds
    rw [split]
    exact hx
  exact layout.renew (fun j hj => ⟨spares.kind j (linked.child_lt hj), spares.span j (linked.child_lt hj)⟩)
    ((spares.children p (held first (by simp)).parent_lt free).trans split) fun x hx => .inl hx

theorem Spares.sits {E : NodeId → Prop} {K : NodeId → Slot → Prop} (spares : u.Spares E K v)
    (linked : u.Linked) (sits : u.Sits line p id first X₁ X₂ R closing) (free : ¬ E p) :
    v.Sits line p id first X₁ X₂ R closing :=
  sits.renew (fun j hj => ⟨spares.kind j (linked.child_lt hj), spares.span j (linked.child_lt hj)⟩)
    (spares.layout linked sits.layout free).split (fun _ hx => .inl hx) (fun _ h => h) fun _ h => .inl h

/-- After a call a word in front of a target on its line still stands there. -/
theorem Sits.kept (sits : u.Sits line p id first X₁ X₂ R closing) (stands : Stands o l u t d)
    (does : u.Does o rule d u') (linked : u.Linked) (among : u.Among id p) (solid : u.text? id = none)
    (other : ∀ k, t = .node k (some p) → k = id ∧ l = line ∨
      id ≠ k ∧ ¬ u.OnLine line k ∧ ¬ u.OnLine l id) :
    ∃ Y₁ Y₂ S rest, u'.Sits line p id first Y₁ Y₂ S rest ∧
      ∀ x ∈ X₂, u.isBlankText x = false → x ∈ Y₂ := by
  by_cases held : d.links u p
  · obtain ⟨k, A, B, C, front, lead, indent, rfl, rfl⟩ := stands.note_of_links does among.markup held
    rcases other k rfl with ⟨rfl, rfl⟩ | ⟨ne, off, off'⟩
    · cases stands with
      | last kind => exact absurd kind among.last
      | room _ sits₀ _ parting =>
        obtain ⟨rfl, rfl, rfl, rfl, rfl⟩ := sits₀.unique linked sits
        obtain ⟨N, -, sits'⟩ := sits.noted_own parting does linked
        refine ⟨_, _, _, _, sits', fun x mem ink => ?_⟩
        cases parting with
        | split | flush => exact mem
        | own shape own =>
          rw [shape] at mem
          refine (List.mem_cons.mp mem).resolve_left ?_
          rintro rfl
          unfold isBlankText at ink
          rw [own.1] at ink
          exact absurd own.2.2.1 (by
            change allBlank _ = false at ink
            rw [ink]
            exact nofun)
    · rcases stands.sides sits ne solid off off' with ⟨Q, D, rfl, rfl⟩ | ⟨Z, G, D, M, rfl, rfl, rfl⟩
      · obtain ⟨S, sits'⟩ := sits.noted_behind does linked
        exact ⟨_, _, _, _, sits', fun x mem _ => mem⟩
      · obtain ⟨W, sits'⟩ := sits.noted_front does linked
        exact ⟨_, _, _, _, sits', fun x mem _ => mem⟩
  · exact ⟨_, _, _, _, (does.spares linked).sits linked sits held, fun x mem _ => mem⟩

theorem Upholds.suits (upholds : u.Upholds line t?) (sound : u.Sound source) (aim : t? = some t) :
    u.Suits line t := (upholds.guides t aim).1.suits sound

theorem Does.among_iff (does : u.Does o rule d u') (linked : u.Linked)
    (notes : ∀ a, u'.nodes.size = u.nodes.size + a →
      u.NotesAgree (shift u.nodes.size a) (d.links u) u') (hold : u.Holds p id) :
    u'.Among id p ↔ u.Among id p := by
  have spares := does.spares linked
  obtain ⟨a, size⟩ := Nat.exists_eq_add_of_le spares.grows
  have moved : u'.Among (shift u.nodes.size a id) (shift u.nodes.size a p) ↔ u.Among id p :=
    (spares.follows linked size).among_iff (notes a size)
  rwa [shift_old (linked.child_lt hold), shift_old hold.parent_lt] at moved

/-- A call leaves lines as they are. -/
theorem Upholds.deed (upholds : u.Upholds line t?) (stands : Stands o l u t d) (does : u.Does o rule d u')
    (edits : Edits o rule u u') (sound : u.Sound source) (suits : u.Suits l t) (solid : u.Solid t)
    (same : l = line → t? = some t) : u'.Upholds line t? := by
  have sound' := Edits.sound edits sound
  have frame := Edits.frame edits sound
  have locate := stands.locate_eq does sound sound' suits line
  have notes := fun a => stands.notes (a := a) does sound.linked
  refine ⟨fun q reached run => ?_, fun none => locate.trans (upholds.missed none), fun t₂ aim => ?_⟩
  · obtain ⟨before, run'⟩ := RunsOn.back edits sound run reached
    obtain ⟨id, rfl, among, plain⟩ := upholds.runs q before run'
    obtain ⟨_, e, seated⟩ := upholds.suits sound rfl
    cases e
    have lt := sound.linked.child_lt seated.hold
    exact ⟨id, rfl, (does.among_iff sound.linked notes seated.hold).mpr among, by
      rwa [(frame.same id lt).1]⟩
  · obtain ⟨guides, solid₂⟩ := upholds.guides t₂ aim
    have suits₂ := guides.suits sound
    refine ⟨?_, ?_⟩
    · cases guides with
      | here found => exact .here (locate.trans found)
      | @word id p x first X₁ X₂ R closing found text mem sits among seated whole =>
        have lt := sound.linked.child_lt seated.hold
        have x_hold : u.Holds p x := sits.layout.mem_children (by simp [mem])
        have x_lt := sound.linked.child_lt x_hold
        have ink := sound.ink_of_locate found
        have seated' := Edits.seated edits sound seated
          (does.parent_stays sound.linked lt (.inl solid₂))
        obtain ⟨Y₁, Y₂, S, rest, sits', kept⟩ :=
          sits.kept stands does sound.linked among solid₂ fun k e => by
            subst e
            obtain ⟨_, e, seated₀⟩ := suits
            cases e
            by_cases here : k = id
            · subst here
              obtain ⟨s, span, start⟩ := seated.start
              obtain ⟨s', span', start'⟩ := seated₀.start
              cases span.symm.trans span'
              exact .inl ⟨rfl, start'.symm.trans start⟩
            · have apart : l ≠ line := fun e => by
                have := (same e).symm.trans aim
                cases this
                exact here rfl
              exact .inr ⟨Ne.symm here, seated₀.not_onLine solid apart,
                seated.not_onLine solid₂ (Ne.symm apart)⟩
        refine .word (locate.trans found) ?_ (kept x mem ink) sits'
          ((does.among_iff sound.linked notes seated.hold).mpr among) seated'
          (Edits.whole edits sound whole seated'.above)
        rw [frame.text?_eq x_lt]
        exact text
    · cases t₂ with
      | blockTail => trivial
      | node id p =>
        obtain ⟨_, e, seated⟩ := suits₂
        exact (frame.text?_eq (sound.linked.child_lt seated.hold)).trans solid₂

end Upholds

section Cut

variable {keep : NodeId}

/-- A cut leaves the first node of a line alone, if no text runs on into the line and the node is
none of the texts. -/
theorem Slit.head_eq (slit : Slit p keep u v) (sound : u.Sound source) (above : u.Reaches p)
    (quiet : ¬ u.RunsOn line p)
    (clear : ∀ h ∈ (u.startingOn line).head?, u.Holds p h → u.text? h = none) :
    (v.startingOn line).head? = (u.startingOn line).head? := by
  obtain ⟨A, id, C, t, s, ne, span, value, loose, recut⟩ := slit
  have hold : u.Holds p id := recut.splice.holds_of_mem (by simp)
  obtain ⟨U, V, old, now, -⟩ :=
    recut.splice.startingOn_around sound.linked sound.root_lt above line
  cases U with
  | cons h U => rw [old, now]; rfl
  | nil =>
    have still : u.starts? line id = false := by
      by_contra starts
      rw [Bool.not_eq_false] at starts
      rw [List.filter_cons_of_pos starts] at old
      have text := clear id (by rw [old]; rfl) hold
      rw [value] at text
      cases text
    have none : (List.flatMap (v.gather inOrder)
        (List.range' u.nodes.size t.segments.length)).filter (v.starts? line) = [] := by
      refine List.filter_eq_nil_iff.mpr fun f inside starts => ?_
      obtain ⟨i, part, -, found, node⟩ := recut.mem_part (recut.leaf_parts sound.linked inside)
      obtain ⟨-, ink, s', span', start⟩ := starts?_iff.mp starts
      rw [span_of_node node, span] at span'
      cases span'
      unfold isBlankText at ink
      rw [text?_of_node node rfl] at ink
      have fragment := fragment_of_mem_segments (List.mem_of_getElem? found)
      obtain ⟨c, mem, solid⟩ : ∃ c ∈ part, isBlank c = false := by
        by_contra blank
        push Not at blank
        have : allBlank part = true := allBlank_iff.mpr fun c hc => by simpa using blank c hc
        change allBlank part = false at ink
        rw [this] at ink
        cases ink
      obtain ⟨a, b, rfl⟩ := List.append_of_mem mem
      have free := fragment.free_of_not_blank ink
      have around := flatten_around found
      rw [segments_flatten] at around
      have row : breaks ((t.segments.take i).flatten ++ a) = breaks (t.segments.take i).flatten := by
        have : breaks a = 0 := List.count_eq_zero.mpr fun h => free (by simp [h])
        unfold breaks at this ⊢
        rw [List.count_append, this, Nat.add_zero]
      by_cases first : breaks (t.segments.take i).flatten = 0
      · -- The first row of the text starts where the text starts.
        rw [starts?_iff.mpr ⟨?_, ?_, s, span, ?_⟩] at still
        · cases still
        · rintro rfl
          exact sound.linked.ne_root_of_holds above hold rfl
        · unfold isBlankText
          rw [value, around]
          change allBlank _ = false
          rw [allBlank_append, allBlank_append]
          change allBlank (a ++ c :: b) = false at ink
          rw [ink, Bool.and_false, Bool.false_and]
        · rw [← start]
          change _ = s.startLine + _
          rw [first, Nat.add_zero]
      · refine quiet ⟨id, t, s, (t.segments.take i).flatten ++ a, c,
          b ++ (t.segments.drop (i + 1)).flatten, hold, value, span, ?_, solid, ?_, ?_⟩
        · exact around.trans (by simp)
        · rw [row]
          exact start
        · rw [row]
          exact first
    rw [old, now, none, List.filter_cons_of_neg (by rw [still]; exact nofun)]
    rfl

theorem Slits.head_eq (slits : Slits p keep u v) (sound : u.Sound source) (above : u.Reaches p)
    (markup : (u.kind p).hasMarkupChildren = true) (quiet : ¬ u.RunsOn line p)
    (clear : ∀ h ∈ (u.startingOn line).head?, u.Holds p h → u.text? h = none) :
    (v.startingOn line).head? = (u.startingOn line).head? := by
  induction slits with
  | refl => rfl
  | @tail mid v before slit ih =>
    obtain ⟨sound', above', kind', -⟩ := Slits.spec before sound above markup
    have edits : Edits {} [] u mid := Slits.edits before sound above markup
    refine (slit.head_eq sound' above' (fun run => ?_) fun h first hold => ?_).trans ih
    · exact quiet (RunsOn.back edits sound run above').2
    · rw [ih] at first
      have lt := sound.reaches_lt (sound.mem_startingOn.mp (List.mem_of_mem_head? first)).1
      have link := Edits.parent_back edits sound lt ((sound'.linked.agree p h).mp hold)
      rw [(Edits.frame edits sound).text?_eq lt]
      exact clear h first ((sound.linked.agree p h).mpr link)

theorem Sound.trims (sound : u.Sound source) (above : u.Reaches p)
    (markup : (u.kind p).hasMarkupChildren = true) : ∃ c, u.Trims p c := by
  obtain ⟨first, body, tail, closing, layout, -⟩ := (sound.each p above).arranged markup
  rw [← List.append_nil (body ++ tail)] at layout
  exact ⟨_, layout, nofun⟩

/-- Cutting the texts of an element leaves lines as they are, but for words that come to be the first
node of the line of a target behind them. -/
theorem Upholds.cut (upholds : u.Upholds line t?) (sound : u.Sound source) (above : u.Reaches p)
    (markup : (u.kind p).hasMarkupChildren = true) (done : u.segmentChildren p p = .ok w) :
    w.Upholds line t? := by
  obtain ⟨_, done', slits, whole, keeps⟩ := sound.cut above markup
  cases done.symm.trans done'
  obtain ⟨c, trims⟩ := sound.trims above markup
  have does := trims.does sound above markup done {} []
  have edits : Edits {} [] u w := Slits.edits slits sound above markup
  have sound' := Edits.sound edits sound
  have frame := Edits.frame edits sound
  have notes := fun a size => does.notes (a := a) sound.linked size (by
    rintro id way rfl
    cases trims)
  have seat : ∀ {id q : NodeId}, t? = some (.node id (some q)) → u.Seated line id q ∧
      u.text? id = none ∧ w.Seated line id q := by
    intro id q aim
    obtain ⟨_, e, seated⟩ := upholds.suits sound aim
    cases e
    have solid : u.text? id = none := (upholds.guides _ aim).2
    exact ⟨seated, solid, Edits.seated edits sound seated
      (does.parent_stays sound.linked (sound.linked.child_lt seated.hold) (.inl solid))⟩
  have runs : w.Runs line t? := by
    intro q reached run
    obtain ⟨before, run'⟩ := RunsOn.back edits sound run reached
    obtain ⟨id, aim, among, plain⟩ := upholds.runs q before run'
    obtain ⟨seated, -, -⟩ := seat aim
    exact ⟨id, aim, (does.among_iff sound.linked notes seated.hold).mpr among, by
      rwa [(frame.same id (sound.linked.child_lt seated.hold)).1]⟩
  have solid' : ∀ t ∈ t?, w.Solid t := by
    intro t aim
    cases t with
    | blockTail => trivial
    | node id q =>
      obtain ⟨_, rfl, seated⟩ := upholds.suits sound aim
      exact (frame.text?_eq (sound.linked.child_lt seated.hold)).trans (upholds.guides _ aim).2
  by_cases own : ∃ id, t? = some (.node id (some p)) ∧ u.Among id p ∧ u.kind id ≠ .openingTag
  · obtain ⟨id, rfl, among, plain⟩ := own
    obtain ⟨seated, solid, seated'⟩ := seat rfl
    have lt := sound.linked.child_lt seated.hold
    refine ⟨runs, nofun, fun t aim => ⟨?_, solid' t aim⟩⟩
    cases aim
    rcases (upholds.guides _ rfl).1 with found | ⟨found, text, mem, sits, among, seated, whole⟩
    · obtain ⟨_, again, slits', -⟩ := segmentChildren_ok id sound above markup
      cases (keeps id lt solid).symm.trans again
      obtain ⟨rest, first⟩ := sound.first_of_locate found
      have heads : u.Heads line p id := ⟨id, rest, first, .inl rfl⟩
      have markup' : (w.kind p).hasMarkupChildren = true := by
        rwa [(frame.same p (sound.reaches_lt above)).1]
      obtain ⟨x, rest', first', rfl | fore⟩ := Heads.slits slits' heads sound above markup seated.hold
        (starts?_iff.mpr (sound.first_spec first).2.1) among.last
      · exact .here (sound'.locate_of_first first' seated'.hold markup')
      · have starts : w.Starts line id := by
          refine ⟨sound'.linked.ne_root_of_holds seated'.above seated'.hold, ?_, seated'.start⟩
          unfold isBlankText
          rw [frame.text?_eq lt, solid]
        have hold : w.Holds p x := fore.before.subset (by simp)
        have plain' : w.kind id ≠ .openingTag ∧ w.kind id ≠ .closingTag := by
          rw [(frame.same id lt).1]
          exact ⟨plain, among.last⟩
        obtain ⟨o, X₁, X₂, R, closing, spot, -, -⟩ := sound'.spot seated'.above markup' seated'.hold
          seated'.spanned plain' (fun x hx => .inr (whole x hx)) line
        obtain ⟨t, value, -⟩ := fore.value
        exact .word (sound'.locate_of_first first' hold markup') (by rw [value]; exact nofun)
          (spot.head sound' seated'.above fore (sound'.first_spec first').2.1 starts)
          ⟨spot.layout, spot.group⟩ ((does.among_iff sound.linked notes seated.hold).mpr among) seated' whole
    · cases (segmentChildren_of_whole fun y hy => .inr (whole y hy)).symm.trans done
      exact .word found text mem sits among seated whole
  · have quiet : ¬ u.RunsOn line p := fun run => by
      obtain ⟨id, aim, among, plain⟩ := upholds.runs p above run
      exact own ⟨id, aim, among, plain⟩
    have clear : ∀ h ∈ (u.startingOn line).head?, u.Holds p h → u.text? h = none := by
      intro h head hold
      obtain ⟨rest, first⟩ := List.head?_eq_some_iff.mp head
      have found := sound.locate_of_first first hold markup
      cases t? with
      | none => cases found.symm.trans (upholds.missed rfl)
      | some t =>
        obtain ⟨guides, solid⟩ := upholds.guides t rfl
        cases guides with
        | here found' =>
          cases found.symm.trans found'
          exact solid
        | @word id _ _ _ _ _ _ _ found' _ _ sits among =>
          cases found.symm.trans found'
          exact absurd ⟨id, rfl, among, (sits.layout.items id (by simp)).1⟩ own
    have locate : w.locate line = u.locate line := by
      rw [sound.locate_eq, sound'.locate_eq, Slits.head_eq slits sound above markup quiet clear]
      cases first : u.startingOn line with
      | nil => rfl
      | cons h rest =>
        rw [first] at clear
        refine congrArg some ((does.spares sound.linked).aim_eq sound.linked
          (fun j held => (does.kind_of_links held).2) ?_)
        have lt := sound.reaches_lt (sound.first_spec first).1
        by_cases held : c.links u h
        · refine does.parent_stays sound.linked lt (.inl ?_)
          obtain ⟨layout, -⟩ := trims
          rcases held with rfl | ⟨mem, -⟩
          · exact text?_of_markup markup
          · exact clear h rfl (layout.mem_children (by simp [mem]))
        · exact (does.spares sound.linked).parent h lt held
    refine ⟨runs, fun none => locate.trans (upholds.missed none), fun t aim => ⟨?_, solid' t aim⟩⟩
    cases (upholds.guides t aim).1 with
    | here found => exact .here (locate.trans found)
    | @word id q x first X₁ X₂ R closing found text mem sits among seated whole =>
      have other : q ≠ p := by
        rintro rfl
        exact own ⟨id, aim, among, (sits.layout.items id (by simp)).1⟩
      obtain ⟨-, -, seated'⟩ := seat aim
      have free : ¬ c.links u q := by
        obtain ⟨layout, -⟩ := trims
        exact fun held => held.elim other fun held => held.2 (text?_of_markup among.markup)
      have x_lt := sound.linked.child_lt (p := q) (c := x) (sits.layout.mem_children (by simp [mem]))
      refine .word (locate.trans found) ?_ mem ((does.spares sound.linked).sits sound.linked sits free)
        ((does.among_iff sound.linked notes seated.hold).mpr among) seated'
        (Edits.whole edits sound whole seated'.above)
      rw [frame.text?_eq x_lt]
      exact text

end Cut

end Quell.Document
