import Quell.Proofs.Annotate.Trims

/-!
A run on steady lines.

In each document of the run the calls for these lines come to deeds for the targets that the lines
had at the start (`Stage`). It makes no difference whether the texts of an element are cut before a
call or behind it: `Stage.cut_call`. So a run may be told from one that starts where all texts are cut
already, and there two calls may come in either order: `Trimmed.swap`.
-/
namespace Quell.Document

open Text Relation

variable {source : Text} {o : AnnotateOptions} {first : Nat}
variable {l l' line : Nat} {t t' : Target} {r q rule : Text} {d e : Deed}
variable {base u u' v v' z w y : Document} {id p : NodeId}

section Prepare

/-- What a call cuts before it does its deed. -/
inductive Prepares (u : Document) : Target → Document → Prop where
  | idle {t : Target} : (∀ id p, t = .node id (some p) → ¬ u.Among id p) → Prepares u t u
  | cut {id p : NodeId} {w : Document} : u.Among id p → u.segmentChildren p p = .ok w →
      Prepares u (.node id (some p)) w

theorem Among.annotateAt_cut (among : u.Among id p) (sound : u.Sound source) (above : u.Reaches p)
    (hold : u.Holds p id) (solid : u.text? id = none) (done : u.segmentChildren p p = .ok w)
    (o : AnnotateOptions) (line : Nat) (rule : Text) :
    u.annotateAt o (.node id (some p)) line rule = w.placeAmong o p id line rule := by
  obtain ⟨_, again, -, -, keeps⟩ := sound.cut above among.markup
  cases done.symm.trans again
  rw [Document.annotateAt, annotateNode_eq, if_neg among.last, if_neg among.beside]
  rcases attachAmong_cases o u p id line rule with
    ⟨childless, -⟩ | ⟨-, ⟨e, r, slot, settled, -⟩ | ⟨-, onward⟩⟩
  · exact absurd among.markup (by rw [childless]; exact Bool.false_ne_true)
  · exact absurd (directed_of_settled settled) (by rw [among.own e slot]; exact Bool.false_ne_true)
  · rw [onward, keeps id (sound.linked.child_lt hold) solid]
    rfl

theorem Trims.notes (trims : u.Trims p d) (does : u.Does o rule d w) (linked : u.Linked) :
    ∀ a, w.nodes.size = u.nodes.size + a → u.NotesAgree (shift u.nodes.size a) (d.links u) w := by
  refine fun a size => does.notes linked size ?_
  rintro id way rfl
  cases trims

end Prepare

/-- A document of a run over some lines. -/
structure Stage (source : Text) (base : Document) (lines : Nat → Prop) (u : Document) : Prop where
  sound : u.Sound source
  frame : base.Frame u
  upholds : ∀ l, lines l → u.Upholds l (base.locate l)
  among : ∀ l id p, lines l → base.locate l = some (.node id (some p)) →
    (u.Among id p ↔ base.Among id p)
  apart : ∀ l l' t t', lines l → lines l' → base.locate l = some t → base.locate l' = some t' →
    u.Apart t t'

variable {lines : Nat → Prop}

section Stage

theorem Stage.start (sound : base.Sound source) (steady : ∀ l, lines l → base.Steady l)
    (apart : ∀ l l' t t', lines l → lines l' → base.locate l = some t → base.locate l' = some t' →
      base.Apart t t') : Stage source base lines base :=
  ⟨sound, .refl base, fun l h => (steady l h).upholds, fun _ _ _ _ _ => .rfl, apart⟩

theorem Stage.suits (stage : Stage source base lines u) (here : lines l)
    (found : base.locate l = some t) : u.Suits l t ∧ u.Solid t := by
  obtain ⟨guides, solid⟩ := (stage.upholds l here).guides t found
  exact ⟨guides.suits stage.sound, solid⟩

theorem Stage.above (stage : Stage source base lines u) (sound : base.Sound source)
    (above : base.Reaches p) (markup : (base.kind p).hasMarkupChildren = true) :
    u.Reaches p ∧ (u.kind p).hasMarkupChildren = true := by
  have lt := sound.reaches_lt above
  refine ⟨stage.frame.kept p lt above (text?_of_markup markup), ?_⟩
  rwa [(stage.frame.same p lt).1]

/-- No old node comes to be the last one of a block. -/
theorem Does.last_stays {block : NodeId} (does : u.Does o rule d v) (linked : u.Linked)
    (lt : block < u.nodes.size) (kind : u.kind block = .block) (old : id < u.nodes.size)
    (apart : (u.children block).getLast? ≠ some id) : (v.children block).getLast? ≠ some id := by
  have spares := does.spares linked
  by_cases held : d.links u block
  · cases does with
    | skip => exact held.elim
    | serve => exact held.elim
    | fill valid _ empty =>
      obtain rfl : block = _ := held
      have new : u.nodes.size < (u.addPlaceholder block).1.nodes.size := by
        rw [size_addPlaceholder valid]
        exact Nat.lt_succ_self _
      rw [(spares_serveAt (behindWay_fair o) new rule).children block (Nat.lt_trans valid new) not_false,
        addPlaceholder_children valid empty]
      intro same
      exact absurd (Option.some.inj same) (Nat.ne_of_gt old)
    | note _ markup blank =>
      rcases held with rfl | mem
      · exact absurd kind (not_block_of_markup markup)
      · exact absurd kind (not_block_of_text (text_of_blank (blank block mem)))
    | cut _ markup =>
      rcases held with rfl | ⟨-, text⟩
      · exact absurd kind (not_block_of_markup markup)
      · exact absurd kind (not_block_of_text text)
  · rwa [spares.children block lt held]

theorem Apart.does (apart : u.Apart t t') (does : u.Does o rule d v) (sound : u.Sound source)
    (suits : u.Suits l t) (suits' : u.Suits l' t') : v.Apart t t' := by
  cases t with
  | node id p =>
    cases t' with
    | node => trivial
    | blockTail block =>
      obtain ⟨_, -, seated⟩ := suits
      exact does.last_stays sound.linked (sound.reaches_lt suits'.1) suits'.2
        (sound.linked.child_lt seated.hold) apart
  | blockTail block =>
    cases t' with
    | node id p =>
      obtain ⟨_, -, seated⟩ := suits'
      exact does.last_stays sound.linked (sound.reaches_lt suits.1) suits.2
        (sound.linked.child_lt seated.hold) apart
    | blockTail => trivial

/-- A deed that leaves the lines as they are guides to a document of the run. -/
theorem Stage.next (stage : Stage source base lines u) (does : u.Does o rule d v)
    (edits : Edits o rule u v)
    (notes : ∀ a, v.nodes.size = u.nodes.size + a →
      u.NotesAgree (shift u.nodes.size a) (d.links u) v)
    (upholds : ∀ l, lines l → v.Upholds l (base.locate l)) : Stage source base lines v where
  sound := Edits.sound edits stage.sound
  frame := stage.frame.trans (Edits.frame edits stage.sound)
  upholds := upholds
  among l id p here found := by
    obtain ⟨_, e, seated⟩ := (stage.suits here found).1
    cases e
    exact (does.among_iff stage.sound.linked notes seated.hold).trans (stage.among l id p here found)
  apart l l' t t' here here' found found' :=
    (stage.apart l l' t t' here here' found found').does does stage.sound (stage.suits here found).1
      (stage.suits here' found').1

theorem Stage.cut (stage : Stage source base lines u) (above : u.Reaches p)
    (markup : (u.kind p).hasMarkupChildren = true) :
    ∃ w, u.segmentChildren p p = .ok w ∧ Stage source base lines w ∧ ∀ x, w.Holds p x → w.Whole x := by
  have sound := stage.sound
  obtain ⟨w, done, slits, whole, -⟩ := sound.cut above markup
  obtain ⟨_, trims⟩ := sound.trims above markup
  have does := trims.does sound above markup done {} []
  have edits : Edits {} [] u w := Slits.edits slits sound above markup
  exact ⟨w, done, stage.next does edits (trims.notes does sound.linked) fun l here =>
    (stage.upholds l here).cut sound above markup done, whole⟩

/-- The call for the target of a line, where the texts that it cuts are cut. -/
theorem Stage.deed (stage : Stage source base lines u) (here : lines l) (found : base.locate l = some t)
    (prepared : u.Prepared t) (stands : Stands o l u t d) (rule : Text) :
    ∃ v, u.annotateAt o t l rule = .ok (v, d.answer u rule) ∧ u.Does o rule d v ∧ Edits o rule u v ∧
      Stage source base lines v := by
  have sound := stage.sound
  obtain ⟨suits, solid⟩ := stage.suits here found
  obtain ⟨v, called, does⟩ := stands.call sound suits prepared rule
  have guides := ((stage.upholds l here).guides t found).1
  obtain ⟨_, _, result, call⟩ := annotateOne_ok sound o l rule
  rw [guides.annotateOne_eq sound, called] at result
  cases result
  have edits := (call.settles sound).edits
  exact ⟨v, called, does, edits, stage.next does edits (fun a => stands.notes does sound.linked)
    fun l' here' => (stage.upholds l' here').deed stands does edits sound suits solid fun same =>
      same ▸ found⟩

theorem Stage.prepare (stage : Stage source base lines u) (here : lines l)
    (found : base.locate l = some t) :
    ∃ z, u.Prepares t z ∧ Stage source base lines z ∧ z.Prepared t ∧
      ∀ o rule, u.annotateAt o t l rule = z.annotateAt o t l rule := by
  have sound := stage.sound
  have linked := sound.linked
  obtain ⟨suits, solid⟩ := stage.suits here found
  by_cases among : ∃ id p, t = .node id (some p) ∧ u.Among id p
  · obtain ⟨id, p, rfl, among⟩ := among
    obtain ⟨_, e, seated⟩ := suits
    cases e
    obtain ⟨w, done, next, whole⟩ := stage.cut seated.above among.markup
    refine ⟨w, .cut among done, next, fun _ => whole, fun o rule => ?_⟩
    obtain ⟨_, trims⟩ := sound.trims seated.above among.markup
    have does := trims.does sound seated.above among.markup done {} []
    have among' := (does.among_iff linked (trims.notes does linked) seated.hold).mpr among
    rw [among.annotateAt_cut sound seated.above seated.hold solid done, among'.annotateAt whole]
  · have away : ∀ id p, t = .node id (some p) → ¬ u.Among id p := fun id p e h => among ⟨id, p, e, h⟩
    refine ⟨u, .idle away, stage, ?_, fun _ _ => rfl⟩
    cases t with
    | blockTail => trivial
    | node id q =>
      obtain ⟨p, rfl, -⟩ := suits
      exact fun h => absurd h (away id p rfl)

/-- The call for the target of a line. -/
theorem Stage.call (stage : Stage source base lines u) (here : lines l) (found : base.locate l = some t)
    (o : AnnotateOptions) (rule : Text) :
    ∃ v a, u.annotateAt o t l rule = .ok (v, a) ∧ u.annotateOne o l rule = .ok (v, a) ∧
      Stage source base lines v := by
  obtain ⟨z, -, ready, prepared, same⟩ := stage.prepare here found
  obtain ⟨d, stands⟩ := ready.sound.stands (ready.suits here found).1 prepared o
  obtain ⟨v, called, -, -, next⟩ := ready.deed here found prepared stands rule
  rw [← same] at called
  refine ⟨v, _, called, ?_, next⟩
  rw [((stage.upholds l here).guides t found).1.annotateOne_eq stage.sound, called]

theorem Stage.poised (stage : Stage source base lines u) (here : lines l)
    (found : base.locate l = some t) (prepared : u.Prepared t) : Poised source u l t :=
  have ⟨suits, solid⟩ := stage.suits here found
  ⟨stage.sound, suits, solid, prepared⟩

/-- Where a call has cut the texts, it finds them cut. -/
theorem Prepared.does (prepared : u.Prepared t) (does : u.Does o rule d v) (edits : Edits o rule u v)
    (sound : u.Sound source) (suits : u.Suits l t)
    (notes : ∀ a, v.nodes.size = u.nodes.size + a →
      u.NotesAgree (shift u.nodes.size a) (d.links u) v) : v.Prepared t := by
  cases t with
  | blockTail => trivial
  | node id q =>
    obtain ⟨p, rfl, seated⟩ := suits
    intro among
    have before := (does.among_iff sound.linked notes seated.hold).mp among
    refine Edits.whole edits sound (prepared before) ?_
    exact (Edits.frame edits sound).kept p (sound.reaches_lt seated.above) seated.above
      (text?_of_markup before.markup)

end Stage

section Tile

/-- Where the texts for a call are cut, a cut of any element may come behind the call. -/
theorem Stage.cut_deed (stage : Stage source base lines z) (here : lines l)
    (found : base.locate l = some t) (prepared : z.Prepared t) (above : z.Reaches p)
    (markup : (z.kind p).hasMarkupChildren = true) (done : z.segmentChildren p p = .ok w)
    (name : RuleName rule) (o : AnnotateOptions) :
    w.Prepared t ∧ ∃ v y w' a, z.annotateAt o t l rule = .ok (v, a) ∧
      v.segmentChildren p p = .ok y ∧ w.annotateAt o t l rule = .ok (w', a) ∧
      Akin base.nodes.size w' y := by
  have sound := stage.sound
  have old := stage.frame.grows
  obtain ⟨suits, solid⟩ := stage.suits here found
  obtain ⟨d, stands⟩ := sound.stands suits prepared o
  obtain ⟨v, called, does, edits, next⟩ := stage.deed here found prepared stands rule
  have frame := Edits.frame edits sound
  have above' := frame.kept p (sound.reaches_lt above) above (text?_of_markup markup)
  have markup' : (v.kind p).hasMarkupChildren = true := by
    rwa [(frame.same p (sound.reaches_lt above)).1]
  obtain ⟨y, done', -⟩ := next.cut above' markup'
  obtain ⟨_, again, stage', -⟩ := stage.cut above markup
  cases done.symm.trans again
  obtain ⟨_, trims⟩ := sound.trims above markup
  have cut := trims.does sound above markup done {} []
  obtain ⟨_, again, slits, -⟩ := sound.cut above markup
  cases done.symm.trans again
  have prepared' : w.Prepared t := prepared.does cut (Slits.edits slits sound above markup) sound suits
    (trims.notes cut sound.linked)
  refine ⟨prepared', v, y, ?_⟩
  by_cases own : ∃ id, t = .node id (some p) ∧ z.Among id p
  · -- The texts of the element are the ones that are cut.
    obtain ⟨id, rfl, among⟩ := own
    have whole := prepared among
    cases done.symm.trans (segmentChildren_of_whole fun x hx => .inr (whole x hx))
    cases done'.symm.trans (segmentChildren_of_whole fun x hx =>
      .inr (Edits.whole edits sound whole above' x hx))
    exact ⟨v, _, called, done', called, .refl _ v⟩
  · obtain ⟨e, there, swap⟩ : ∃ e, Stands o l w t e ∧ ∀ w', w.Does o rule e w' →
        Akin base.nodes.size w' y ∧ e.answer w rule = d.answer z rule := by
      by_cases tag : ∃ k, t = .node k (some p) ∧ z.kind k = .closingTag
      · obtain ⟨k, rfl, kind⟩ := tag
        exact stands.cut_closing kind markup sound suits done does edits done' old name
      · refine stands.cut_far sound suits above markup (fun id eq looks => ?_) done does edits done' old
          name
        rcases looks.2 with kind | ⟨among, -⟩
        · exact tag ⟨id, eq, kind⟩
        · exact own ⟨id, eq, among⟩
    obtain ⟨w', called', does', -, -⟩ := stage'.deed here found prepared' there rule
    obtain ⟨akin, answer⟩ := swap w' does'
    rw [answer] at called'
    exact ⟨w', _, called, done', called', akin⟩

/-- A cut may come behind a call instead of before it. -/
theorem Stage.cut_call (stage : Stage source base lines u) (root : base.Sound source) (here : lines l)
    (found : base.locate l = some t) (above : base.Reaches p)
    (markup : (base.kind p).hasMarkupChildren = true) (done : u.segmentChildren p p = .ok w)
    (name : RuleName rule) (o : AnnotateOptions) :
    ∃ v y w' a, u.annotateAt o t l rule = .ok (v, a) ∧ v.segmentChildren p p = .ok y ∧
      w.annotateAt o t l rule = .ok (w', a) ∧ Akin base.nodes.size w' y := by
  have sound := stage.sound
  obtain ⟨above₁, markup₁⟩ := stage.above root above markup
  obtain ⟨_, again, stage', whole⟩ := stage.cut above₁ markup₁
  cases done.symm.trans again
  have same_among : ∀ {id q : NodeId}, t = .node id (some q) → (w.Among id q ↔ u.Among id q) := by
    rintro id q rfl
    exact (stage'.among l id q here found).trans (stage.among l id q here found).symm
  obtain ⟨z, prepares, ready, prepared, same⟩ := stage.prepare here found
  obtain ⟨z', prepares', ready', prepared', same'⟩ := stage'.prepare here found
  obtain ⟨above₂, markup₂⟩ := ready.above root above markup
  obtain ⟨zp, cut, readyp, -⟩ := ready.cut above₂ markup₂
  obtain ⟨preparedp, v, y, v', a, called, done', calledp, akin⟩ :=
    ready.cut_deed here found prepared above₂ markup₂ cut name o
  have alike : Akin base.nodes.size zp z' := by
    cases prepares with
    | idle away =>
      cases done.symm.trans cut
      cases prepares' with
      | idle => exact .refl _ w
      | cut among => exact absurd ((same_among rfl).mp among) (away _ _ rfl)
    | @cut id q _ among first =>
      cases prepares' with
      | idle away => exact absurd ((same_among rfl).mpr among) (away _ _ rfl)
      | cut _ second =>
        obtain ⟨_, e, seated⟩ := (stage.suits here found).1
        cases e
        by_cases eq : p = q
        · subst eq
          cases done.symm.trans first
          have still : w.segmentChildren p p = .ok w :=
            segmentChildren_of_whole fun x hx => .inr (whole x hx)
          cases cut.symm.trans still
          cases second.symm.trans still
          exact .refl _ w
        · exact (sound.cut_cut above₁ markup₁ seated.above among.markup eq stage.frame.grows done first
            second cut name).symm
  obtain ⟨f, alike⟩ := alike
  have fixed := (root.suits found).map_eq root alike.old
  obtain ⟨v₁, w', a', called₁, called', alike'⟩ :=
    alike.call (readyp.poised here found preparedp) (ready'.poised here found prepared') fixed name o
  cases calledp.symm.trans called₁
  rw [← same] at called
  rw [← same'] at called'
  exact ⟨v, y, w', _, called, done', called', (Akin.symm ⟨f, alike'⟩).trans akin⟩

/-- The call for the target of a line comes to the same in documents that are alike. -/
theorem Stage.akin_call (left : Stage source base lines u) (right : Stage source base lines v)
    (root : base.Sound source) (akin : Akin base.nodes.size u v) (here : lines l)
    (found : base.locate l = some t) (name : RuleName rule) (o : AnnotateOptions) :
    ∃ u' v' a, u.annotateAt o t l rule = .ok (u', a) ∧ v.annotateAt o t l rule = .ok (v', a) ∧
      Akin base.nodes.size u' v' := by
  obtain ⟨z, prepares, ready, prepared, same⟩ := left.prepare here found
  obtain ⟨z', prepares', ready', prepared', same'⟩ := right.prepare here found
  have among : ∀ {id p : NodeId}, t = .node id (some p) → (v.Among id p ↔ u.Among id p) := by
    rintro id p rfl
    exact (right.among l id p here found).trans (left.among l id p here found).symm
  obtain ⟨f, alike⟩ := akin
  have alike' : Alike base.nodes.size f z z' := by
    cases prepares with
    | idle away =>
      cases prepares' with
      | idle => exact alike
      | cut there => exact absurd ((among rfl).mp there) (away _ _ rfl)
    | cut here' first =>
      cases prepares' with
      | idle away => exact absurd ((among rfl).mpr here') (away _ _ rfl)
      | cut _ second =>
        obtain ⟨_, e, seated⟩ := (left.suits here found).1
        cases e
        obtain ⟨_, e, seated'⟩ := (right.suits here found).1
        cases e
        obtain ⟨_, e, old⟩ := root.suits found
        cases e
        exact alike.cut left.sound right.sound seated.above seated'.above here'.markup
          (root.reaches_lt old.above) first second
  obtain ⟨u', v', a, called, called', next⟩ := alike'.call (ready.poised here found prepared)
    (ready'.poised here found prepared') ((root.suits found).map_eq root alike.old) name o
  rw [← same] at called
  rw [← same'] at called'
  exact ⟨u', v', a, called, called', _, next⟩

end Tile

section Trimmed

/-- No call for one of the lines cuts texts any more. -/
structure Trimmed (source : Text) (base : Document) (lines : Nat → Prop) (u : Document) : Prop extends
    Stage source base lines u where
  prepared : ∀ l t, lines l → base.locate l = some t → u.Prepared t

theorem Trimmed.deed (ready : Trimmed source base lines u) (here : lines l) (found : base.locate l = some t)
    (stands : Stands o l u t d) (rule : Text) :
    ∃ v, u.annotateAt o t l rule = .ok (v, d.answer u rule) ∧ u.Does o rule d v ∧
      Trimmed source base lines v := by
  have sound := ready.sound
  obtain ⟨v, called, does, edits, next⟩ :=
    ready.toStage.deed here found (ready.prepared l t here found) stands rule
  refine ⟨v, called, does, next, fun l' t' here' found' => ?_⟩
  exact (ready.prepared l' t' here' found').does does edits sound (ready.suits here' found').1
    fun a => stands.notes does sound.linked

/-- No two lines have the same target. -/
theorem Sound.locate_inj (sound : base.Sound source) (found : base.locate l = some t)
    (found' : base.locate l' = some t) : l = l' := by
  cases t with
  | node id q =>
    obtain ⟨_, -, seated⟩ := sound.seated found
    obtain ⟨_, -, seated'⟩ := sound.seated found'
    obtain ⟨s, span, start⟩ := seated.start
    obtain ⟨s', span', start'⟩ := seated'.start
    cases span.symm.trans span'
    exact start.symm.trans start'
  | blockTail block =>
    have first : ∀ {line : Nat}, base.locate line = some (.blockTail block) →
        ∃ n, base.Starts line n ∧ base.Alternates block n := by
      intro line found
      rw [sound.locate_eq] at found
      obtain ⟨n, head, aim⟩ := Option.map_eq_some_iff.mp found
      obtain ⟨rest, starting⟩ := List.head?_eq_some_iff.mp head
      exact ⟨n, (sound.first_spec starting).2.1, aim_eq_blockTail.mp aim⟩
    obtain ⟨n, starts, p, test, rest, -, -, kids, -⟩ := first found
    obtain ⟨n', starts', p', test', rest', -, -, kids', -⟩ := first found'
    have held : ∀ {q : NodeId} {A B : List NodeId} {n : NodeId}, base.children q = A ++ block :: n :: B →
        base.parent block = some q := fun kids => (sound.linked.agree _ block).mp (by simp [kids])
    obtain rfl : p = p' := Option.some.inj
      ((held (A := [test]) kids).symm.trans (held (A := [test']) kids'))
    rw [kids] at kids'
    cases kids'
    obtain ⟨s, span, start⟩ := starts.2.2
    obtain ⟨s', span', start'⟩ := starts'.2.2
    cases span.symm.trans span'
    exact start.symm.trans start'

/-- The calls for two lines may come in either order. -/
theorem Trimmed.swap (ready : Trimmed source base lines u) (root : base.Sound source) (here : lines l)
    (here' : lines l') (found : base.locate l = some t) (found' : base.locate l' = some t')
    (name : RuleName r) (name' : RuleName q) (o : AnnotateOptions) :
    ∃ left right a b', u.annotateAt o t l r = .ok (left, a) ∧ u.annotateAt o t' l' q = .ok (right, b') ∧
      Swapped o base.nodes.size l l' t t' r q left right a b' := by
  have poised := ready.poised here found (ready.prepared l t here found)
  have poised' := ready.poised here' found' (ready.prepared l' t' here' found')
  obtain ⟨d, stands⟩ := ready.sound.stands poised.suits poised.prepared o
  obtain ⟨left, called, one, next⟩ := ready.deed here found stands r
  have nextp := next.poised here' found' (next.prepared l' t' here' found')
  by_cases lines_eq : l = l'
  · subst lines_eq
    cases found.symm.trans found'
    obtain ⟨right, called', two, next'⟩ := ready.deed here found stands q
    exact ⟨left, right, _, _, called, called', poised.swap_same nextp
      (next'.poised here found (next'.prepared l t here found)) one two name name' stands⟩
  · obtain ⟨e, stands'⟩ := ready.sound.stands poised'.suits poised'.prepared o
    obtain ⟨right, called', two, next'⟩ := ready.deed here' found' stands' q
    have ne : t ≠ t' := by
      rintro rfl
      exact lines_eq (root.locate_inj found found')
    exact ⟨left, right, _, _, called, called', poised.swap poised' nextp
      (next'.poised here found (next'.prepared l t here found)) stands stands' one two
      ready.frame.grows name name' ne lines_eq (ready.apart l l' t t' here here' found found')⟩

end Trimmed

end Quell.Document
