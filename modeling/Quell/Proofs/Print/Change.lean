import Quell.Proofs.Annotate.Above
import Quell.Proofs.Annotate.Flag
import Quell.Proofs.Annotate.Posts
import Quell.Proofs.Print.Fresh
import Quell.Proofs.Print.Renewed
import Quell.Proofs.Source.Reading

/-!
The flag of a summary tells the truth about the text.

Strokes put something in only where no comment lies across and no revised line comment ends
(`Annotated.stands_inside`, `Annotated.stands_gather`), and every comment that was put in has a stroke
that writes it (`Sound.loud_of_seat`). So a document with a comment that was put in or revised prints
another text, and one without prints its source: `annotate_changed_iff`.
-/
namespace Quell.Document

open Text Relation Grammar

variable {source : Text} {doc doc' : Document} {o : AnnotateOptions} {rule : Text}

def Uncrossed (doc : Document) (n : Nat) : Prop := ∀ r, doc.RemarkAt r → r.hi ≤ n ∨ n ≤ r.lo

structure Closes (source : Text) (doc : Document) (n : Nat) : Prop where
  line : ∀ rest ∈ slice? n (bytes source) source, ∀ c ∈ rest.head?, isLineEnd c = true
  starts : ∀ id s, doc.Reaches id → doc.span id = some s → s.lo ≠ n
  ends : ∀ id s, doc.Reaches id → id ≠ root → doc.span id = some s → s.hi ≠ n

/-- The comments of a document as they are read. Each one has a place of its own: no node starts or ends
inside of it, it lies in no text, and it does not begin with the opening brace of a block. A line
comment ends where its line does. -/
structure Commented (source : Text) (doc : Document) : Prop where
  sole : doc.Bears fun _ c => Comment.Holds c.kind c.text
  single : ∀ i slot j slot' r, doc.RemarkIn i slot r → doc.RemarkIn j slot' r → i = j ∧ slot = slot'
  texts : doc.Clear
  nodes : ∀ id s, doc.Reaches id → doc.span id = some s → doc.Uncrossed s.lo ∧ doc.Uncrossed s.hi
  braces : ∀ id s, doc.Reaches id → doc.kind id = .block → doc.span id = some s →
    doc.Uncrossed (s.lo + 1)
  lines : doc.Bears fun _ c => c.kind = .line → ∀ s ∈ c.span, doc.Closes source s.hi

structure Descends (doc doc' : Document) : Prop where
  frame : doc.Frame doc'
  spans : ∀ id s, doc'.Reaches id → doc'.span id = some s →
    doc.Reaches id ∧ doc.span id = some s ∨ id ≠ root ∧ doc.InText s
  remarks : ∀ id slot r, doc'.RemarkIn id slot r → doc.RemarkIn id slot r

theorem Descends.refl (doc : Document) : doc.Descends doc :=
  ⟨.refl doc, fun _ _ reached span => .inl ⟨reached, span⟩, fun _ _ _ h => h⟩

theorem Descends.edit {mid : Document} (descends : doc.Descends mid) (root_lt : root < doc.nodes.size)
    (sound : mid.Sound source) (edit : Edit o rule mid doc') : doc.Descends doc' := by
  obtain ⟨frame, -⟩ := edit.frame sound
  have inside : ∀ {s}, mid.InText s → doc.InText s := by
    rintro s ⟨j, u, r, reached, value, span, low, high⟩
    rcases descends.spans j r reached span with ⟨reached', span'⟩ | ⟨-, i, v, t, hi, text, span', low', high'⟩
    · rw [descends.frame.text?_eq (lt_of_span span')] at value
      exact ⟨j, u, r, reached', value, span', low, high⟩
    · exact ⟨i, v, t, hi, text, span', Nat.le_trans low' low, Nat.le_trans high high'⟩
  refine ⟨descends.frame.trans frame, fun id s reached span => ?_, fun id slot r h =>
    descends.remarks id slot r (edit.remarkIn sound h)⟩
  rcases Nat.lt_or_ge id mid.nodes.size with lt | ge
  · rw [(frame.same id lt).2] at span
    exact (descends.spans id s (frame.back id reached lt) span).imp_right fun h => ⟨h.1, h.2⟩
  · refine .inr ⟨?_, inside (edit.new_spanned sound ge span).2.1⟩
    rintro rfl
    exact Nat.not_lt_of_le ge (Nat.lt_of_lt_of_le root_lt descends.frame.grows)

namespace Descends

variable (descends : doc.Descends doc')

include descends

theorem remarkAt {r : Span} (h : doc'.RemarkAt r) : doc.RemarkAt r := by
  obtain ⟨id, slot, c, reached, mem, span⟩ := h
  obtain ⟨reached, d, mem, span⟩ := descends.remarks id slot r ⟨reached, c, mem, span⟩
  exact ⟨id, slot, d, reached, mem, span⟩

variable (commented : doc.Commented source)

include commented

theorem uncrossed {id : NodeId} {s : Span} (reached : doc'.Reaches id) (span : doc'.span id = some s)
    (le : s.lo ≤ s.hi) : doc'.Uncrossed s.lo ∧ doc'.Uncrossed s.hi := by
  have back : ∀ r, doc'.RemarkAt r → doc.RemarkAt r := fun _ => descends.remarkAt
  rcases descends.spans id s reached span with ⟨was, old⟩ | ⟨-, j, u, t, was, value, old, low, high⟩
  · obtain ⟨lo, hi⟩ := commented.nodes id s was old
    exact ⟨fun r h => lo r (back r h), fun r h => hi r (back r h)⟩
  · have apart := fun r h => commented.texts r j u t (back r h) was value old
    refine ⟨fun r h => ?_, fun r h => ?_⟩
    · have := apart r h
      omega
    · have := apart r h
      omega

/-- Behind a line comment no node starts, and none but the root ends. -/
theorem closes {r : Span} (remark : doc.RemarkAt r) (wide : r.lo < r.hi)
    (closes : doc.Closes source r.hi) {id : NodeId} {s : Span} (reached : doc'.Reaches id)
    (span : doc'.span id = some s) (le : s.lo ≤ s.hi) : s.lo ≠ r.hi ∧ (id ≠ root → s.hi ≠ r.hi) := by
  rcases descends.spans id s reached span with ⟨was, old⟩ | ⟨-, j, u, t, was, value, old, low, high⟩
  · exact ⟨closes.starts id s was old, fun proper => closes.ends id s was proper old⟩
  · have apart := commented.texts r j u t remark was value old
    have start := closes.starts j t was old
    refine ⟨?_, fun _ => ?_⟩ <;> omega

end Descends

structure Annotated (source : Text) (doc doc' : Document) : Prop where
  sound : doc'.Sound source
  descends : doc.Descends doc'
  posted : doc'.Posted
  stems : doc'.Bears fun _ c => c.Stems source
  lines : doc'.Bears fun _ c => c.kind = .line → ∀ s ∈ c.span, doc.Closes source s.hi

section Annotated

variable (annotated : doc.Annotated source doc')

include annotated

/-- The revised comments that the root reaches. -/
theorem Annotated.origin {r : Revision} (mem : r ∈ (Press.of doc' source).revisions) :
    ∃ id slot c s, doc'.Reaches id ∧ c ∈ (doc'.node id).comments slot ∧ c.revised = true ∧
      c.span = some s ∧ r = c.revision s := by
  obtain ⟨-, -, -, id, reached, c, held, revised, render, s, span, lo, hi⟩ :=
    (Press.fair_of_sound annotated.sound).each r mem
  obtain ⟨slot, held⟩ := mem_allComments.mp held
  refine ⟨id, slot, c, s, reached, held, revised, span, ?_⟩
  cases r
  simp_all [Comment.revision]

theorem Annotated.renewed : ∀ r ∈ (Press.of doc' source).revisions, r.Renewed source := by
  intro r mem
  obtain ⟨id, slot, c, s, reached, held, revised, span, rfl⟩ := annotated.origin mem
  refine (annotated.stems id reached slot c held).renewed span revised ?_
  rintro line a b rfl stop e first
  have closes := annotated.lines id reached slot c held line s span
  refine closes.line b ?_ e first
  exact slice?_eq_some.mpr ⟨a, [], by simp, stop, by rw [bytes_append, stop]⟩

/-- Strokes may stop where no comment lies across and no revised line comment ends. -/
theorem Annotated.stands {n : Nat} (uncrossed : doc'.Uncrossed n)
    (block : ∀ id slot c s, doc'.Reaches id → c ∈ (doc'.node id).comments slot → c.revised = true →
      c.span = some s → s.hi = n → c.kind = .block) : (Press.of doc' source).Stands n := by
  intro r mem
  obtain ⟨id, slot, c, s, reached, held, revised, span, rfl⟩ := annotated.origin mem
  refine ⟨uncrossed s ⟨id, slot, c, reached, held, span⟩, fun stop => ?_⟩
  exact (annotated.stems id reached slot c held).tight span revised
    (block id slot c s reached held revised span stop)

theorem Annotated.stands_comment (commented : doc.Commented source) {id : NodeId} {k : Comment}
    {t : Span} (reached : doc'.Reaches id) (slot : Slot) (mem : k ∈ (doc'.node id).comments slot)
    (span : k.span = some t)
    (still : ∀ c ∈ (doc'.node id).comments slot, c.span ≠ none → c.revised = false) :
    (Press.of doc' source).Stands t.hi := by
  have here : doc'.RemarkAt t := ⟨id, slot, k, reached, mem, span⟩
  have wide := (annotated.stems id reached slot k mem).wide span
  refine annotated.stands (fun r remark => ?_) fun j slot' c s reached' held revised own stop => ?_
  · rcases annotated.sound.apart t r here remark with rfl | le | le
    · exact .inl (Nat.le_refl _)
    · exact .inr le
    · exact .inl (by omega)
  · -- the comment that ends there is this one, and it was not revised
    exfalso
    have wide' := (annotated.stems j reached' slot' c held).wide own
    rcases annotated.sound.apart s t ⟨j, slot', c, reached', held, own⟩ here with rfl | le | le
    · have old := annotated.descends.remarks j slot' s ⟨reached', c, held, own⟩
      have old' := annotated.descends.remarks id slot s ⟨reached, k, mem, span⟩
      obtain ⟨rfl, rfl⟩ := commented.single _ _ _ _ _ old old'
      rw [still c held (by rw [own]; exact nofun)] at revised
      cases revised
    · omega
    · omega

theorem Annotated.stands_node (commented : doc.Commented source) {id : NodeId} {s : Span}
    (reached : doc'.Reaches id) (span : doc'.span id = some s) :
    (Press.of doc' source).Stands s.lo ∧ (id ≠ root → (Press.of doc' source).Stands s.hi) := by
  have le := (annotated.sound.fits reached span).le
  obtain ⟨lo, hi⟩ := annotated.descends.uncrossed commented reached span le
  have closed : ∀ j slot c t, doc'.Reaches j → c ∈ (doc'.node j).comments slot → c.span = some t →
      c.kind = .line → s.lo ≠ t.hi ∧ (id ≠ root → s.hi ≠ t.hi) := by
    intro j slot c t there held own line
    have wide := (annotated.stems j there slot c held).wide own
    have remark := annotated.descends.remarkAt ⟨j, slot, c, there, held, own⟩
    exact annotated.descends.closes commented remark (by omega)
      (annotated.lines j there slot c held line t own) reached span le
  have block : ∀ {c : Comment}, c.kind ≠ .line → c.kind = .block := by
    intro c other
    cases kind : c.kind with
    | line => exact absurd kind other
    | block => rfl
  refine ⟨annotated.stands lo fun j slot c t there held _ own stop => block fun line => ?_,
    fun proper => annotated.stands hi fun j slot c t there held _ own stop => block fun line => ?_⟩
  · exact (closed j slot c t there held own line).1 stop.symm
  · exact (closed j slot c t there held own line).2 proper stop.symm

theorem Annotated.stands_brace (commented : doc.Commented source) {id : NodeId} {s : Span}
    (reached : doc'.Reaches id) (kind : doc'.kind id = .block) (span : doc'.span id = some s) :
    (Press.of doc' source).Stands (s.lo + 1) := by
  obtain ⟨was, block, same⟩ := annotated.descends.frame.block reached kind
  have uncrossed := commented.braces id s was block (same ▸ span)
  refine annotated.stands (fun r remark => uncrossed r (annotated.descends.remarkAt remark)) ?_
  intro j slot c t there held _ own stop
  -- a comment that ends there would begin in front of the block
  exfalso
  have wide := (annotated.stems j there slot c held).wide own
  have start := (annotated.descends.uncrossed commented reached span
    (annotated.sound.fits reached span).le).1 t ⟨j, slot, c, there, held, own⟩
  omega

theorem Annotated.stands_inside (commented : doc.Commented source) {x : NodeId}
    (reached : doc'.Reaches x) {ks : List (NodeId × List Stroke)}
    (each : ∀ k ∈ ks, doc'.Holds x k.1 ∧ ∀ st ∈ k.2, ∀ n ∈ st.stops, (Press.of doc' source).Stands n) :
    ∀ st ∈ doc'.strokesInside x ks, ∀ n ∈ st.stops, (Press.of doc' source).Stands n := by
  refine forall_strokesInside (fun k hk later st mem n stop => ?_) (fun k hk => (each k hk).2)
    fun k hk st mem n stop => ?_
  · unfold strokesEntering at mem
    split at mem
    · rename_i cond
      simp only [Bool.and_eq_true, decide_eq_true_eq, Option.isNone_iff_eq_none] at cond
      rw [List.mem_singleton.mp mem] at stop
      rcases List.mem_append.mp stop with opened | ends
      · obtain ⟨s, span, rfl⟩ := Option.map_eq_some_iff.mp (Option.mem_toList.mp opened)
        exact annotated.stands_brace commented reached cond.1.2 span
      · obtain ⟨c, held, t, span, rfl⟩ := mem_endsOf ends
        exact annotated.stands_comment commented reached .inner held span fun d hd _ =>
          annotated.posted.still x k.1 reached cond.1.2 (each k hk).1 cond.1.1 d hd
    · cases mem
  · have below := reached.child (each k hk).1
    unfold strokesBehind at mem
    split at mem
    · cases mem
    · rename_i some
      rw [List.mem_singleton.mp mem] at stop
      obtain ⟨e, new⟩ := List.exists_mem_of_ne_nil _ some
      obtain ⟨put, spanless⟩ := mem_inserted new
      obtain ⟨c, held, t, span, rfl⟩ := mem_endsOf (List.max?_mem (Option.mem_toList.mp stop))
      exact annotated.stands_comment commented below .trailing held span fun d hd read =>
        (annotated.posted.stacked k.1 .trailing below).unrevised put spanless hd read

theorem Annotated.stands_gather (commented : doc.Commented source) (x : NodeId)
    (reached : doc'.Reaches x) (proper : x ≠ root) : ∀ st ∈ doc'.gather doc'.strokesOf x,
      ∀ n ∈ st.stops, (Press.of doc' source).Stands n := by
  have sound := annotated.sound
  refine forall_gather_of_step sound.linked (Q := fun x => doc'.Reaches x ∧ x ≠ root)
    (fun x hx => sound.reaches_lt hx.1)
    (fun p c hx hold => ⟨hx.1.child hold, sound.ne_root_of_holds hold⟩) ?_ x ⟨reached, proper⟩
  rintro x ⟨reached, proper⟩ ks each st mem
  refine forall_strokesOf (P := fun st => ∀ n ∈ st.stops, (Press.of doc' source).Stands n)
    (fun s span => ?_) (fun _ _ _ => nofun) ⟨nofun, nofun⟩ (fun _ _ _ _ => nofun)
    (annotated.stands_inside commented reached each) st mem
  obtain ⟨lo, hi⟩ := annotated.stands_node commented reached span
  exact ⟨fun n stop => List.mem_singleton.mp stop ▸ lo,
    fun n stop => List.mem_singleton.mp stop ▸ hi proper⟩

end Annotated

/-- Placeholders and the slots of markup comments that were put in hold no nodes. -/
theorem Sound.childless (sound : doc.Sound source) {x : NodeId} (reached : doc.Reaches x)
    (spanless : doc.span x = none) (kind : doc.kind x = .empty ∨ doc.kind x = .emptyHole) :
    doc.children x = [] := by
  rcases ReflTransGen.cases_tail reached with rfl | ⟨p, above, hold⟩
  · exact absurd spanless sound.root_span
  · rcases (sound.each p above).ghosts x hold spanless with markup | ⟨-, -, -, leaf⟩ | ⟨-, -, -, leaf⟩
    · have plain : doc.text? x = none := by
        unfold text?
        rcases kind with h | h <;> rw [h] <;> rfl
      rcases ((sound.each p above).arranged markup).part hold spanless with note | gap | lead
      · rw [note.kind_eq] at kind
        rcases kind with h | h <;> cases h
      · obtain ⟨_, value, -⟩ := gap.text?_eq
        cases plain.symm.trans value
      · obtain ⟨_, value, -⟩ := lead.text?_eq
        cases plain.symm.trans value
    · exact leaf
    · exact leaf

theorem mem_strokesInside {x : NodeId} {ks : List (NodeId × List Stroke)} {k : NodeId × List Stroke}
    (mem : k ∈ ks) {st : Stroke} (h : st ∈ k.2 ∨ st ∈ doc.strokesBehind k.1 x) :
    st ∈ doc.strokesInside x ks := by
  induction ks with
  | nil => cases mem
  | cons q ks ih =>
    rw [strokesInside]
    rcases List.mem_cons.mp mem with rfl | mem
    · rcases h with h | h <;> simp [h]
    · exact List.mem_append_right _ (ih mem)

theorem Sound.mem_gather_child (sound : doc.Sound source) {x c : NodeId} (reached : doc.Reaches x)
    (hold : doc.Holds x c) {st : Stroke}
    (h : st ∈ doc.gather doc.strokesOf c ∨ st ∈ doc.strokesBehind c x) :
    st ∈ doc.gather doc.strokesOf x := by
  rw [gather_eq sound.linked (sound.reaches_lt reached)]
  have inside := mem_strokesInside (List.mem_map_of_mem (f := fun c => (c, doc.gather doc.strokesOf c))
    hold) h
  have parent : doc.children x ≠ [] := fun leaf => by
    unfold Holds at hold
    rw [leaf] at hold
    cases hold
  generalize (doc.children x).map (fun c => (c, doc.gather doc.strokesOf c)) = ks at inside
  unfold strokesOf
  split
  · simp [inside]
  · rename_i spanless
    split
    · rename_i kind
      exact absurd (sound.childless reached spanless (.inl kind)) parent
    · rename_i t kind
      exact absurd ((sound.each x reached).text t (by rw [text?, kind]; rfl)).1 parent
    · simp [inside]
    · rename_i kind
      exact absurd (sound.childless reached spanless (.inr kind)) parent
    · exact inside

theorem Sound.mem_gather_root (sound : doc.Sound source) {x : NodeId} (reached : doc.Reaches x)
    {st : Stroke} (mem : st ∈ doc.gather doc.strokesOf x) : st ∈ doc.gather doc.strokesOf root := by
  induction reached with
  | refl => exact mem
  | tail above hold ih => exact ih (sound.mem_gather_child above hold (.inl mem))

theorem Sound.loud_of_seat (sound : doc.Sound source) {id : NodeId} {slot : Slot} {c : Comment}
    (reached : doc.Reaches id) (mem : c ∈ (doc.node id).comments slot) (new : c.span = none)
    (seat : doc.Seat id slot) : ∃ st ∈ doc.gather doc.strokesOf root, st.Loud := by
  have some : inserted ((doc.node id).comments slot) ≠ [] := fun none => by
    have held : c ∈ inserted ((doc.node id).comments slot) :=
      List.mem_filter.mpr ⟨mem, by rw [Comment.isInserted, new]; rfl⟩
    rw [none] at held
    cases held
  cases slot with
  | leading =>
    obtain ⟨s, span⟩ := Option.ne_none_iff_exists'.mp seat
    refine ⟨.start s.lo (inserted (doc.node id).leading), sound.mem_gather_root reached ?_, some⟩
    rw [sound.gather_start reached span]
    exact List.mem_cons_self
  | trailing =>
    rcases ReflTransGen.cases_tail reached with rfl | ⟨p, above, hold⟩
    · exact absurd rfl seat
    · refine ⟨.behind (endsOf (doc.node id).trailing).max? (doc.marginOf id p)
        (inserted (doc.node id).trailing), sound.mem_gather_root above
        (sound.mem_gather_child above hold (.inr ?_)), some⟩
      unfold strokesBehind
      split
      · rename_i none
        exact absurd none some
      · exact List.mem_cons_self
  | inner =>
    refine ⟨.put c.render, sound.mem_gather_root reached ?_, Press.not_run_render c⟩
    rw [gather_eq sound.linked (sound.reaches_lt reached)]
    unfold strokesOf
    rw [seat.1, seat.2]
    exact List.mem_map_of_mem (f := fun c : Comment => Stroke.put c.render) mem

theorem revisions_ne_nil (sound : doc.Sound source) {id : NodeId} {slot : Slot} {c : Comment} {s : Span}
    (reached : doc.Reaches id) (mem : c ∈ (doc.node id).comments slot) (span : c.span = some s)
    (revised : c.revised = true) : (Press.of doc source).revisions ≠ [] := by
  have listed : c ∈ doc.preorder.flatMap fun id => (doc.node id).allComments :=
    List.mem_flatMap.mpr ⟨id, (mem_preorder sound.linked sound.root_lt).mpr reached,
      mem_allComments.mpr ⟨slot, mem⟩⟩
  show Press.revisionsOf doc ≠ []
  unfold Press.revisionsOf
  obtain ⟨front, back, split⟩ := List.append_of_mem listed
  rw [split, List.foldl_append, List.foldl_cons, span]
  simp only [revised, if_true]
  -- one that was listed stays or makes room for another
  generalize front.foldl _ _ = rs
  refine List.foldlRecOn (motive := (· ≠ [])) back _ (Revision.insert_ne_nil _ _) fun rs some d _ => ?_
  split
  · split
    · exact Revision.insert_ne_nil _ _
    · exact some
  · exact some

theorem Annotated.print_ne (annotated : doc.Annotated source doc') (commented : doc.Commented source)
    (braced : doc.Braced source) (altered : doc'.Altered) {text : Text}
    (printed : doc'.print source = .ok text) : text ≠ source := by
  have sound := annotated.sound
  have braced' := annotated.descends.frame.braced braced
  obtain ⟨u, top⟩ := Option.ne_none_iff_exists'.mp sound.root_span
  have gathered := sound.gather_start .refl top
  have fits := fits_gather sound braced' root .refl
  rw [gathered, ← List.cons_append] at fits
  obtain ⟨sheet, struck, spelled⟩ := sound.strike_ok braced'
  cases printed.symm.trans spelled
  unfold strokes at struck
  rw [gathered, ← List.cons_append, List.foldlM_append, List.foldlM_append] at struck
  obtain ⟨mid, struck, flushed⟩ := bind_eq_ok struck
  obtain ⟨first, struck, reached⟩ := bind_eq_ok struck
  obtain ⟨_, reached, done⟩ := bind_eq_ok reached
  obtain ⟨_, flushed, done'⟩ := bind_eq_ok flushed
  cases done
  cases done'
  have renewed : ∀ r ∈ (Press.of doc' source).revisions, r.Renewed (Press.of doc' source).source :=
    annotated.renewed
  refine Press.strikeAll_text_ne renewed
    (Press.fair_of_sound sound) (fun st mem => fits st (List.mem_append_left _ mem)) ?_ ?_ struck
    (sound.fits .refl top).hi ?_ reached flushed
  · intro st mem
    rcases List.mem_cons.mp mem with rfl | mem
    · exact fun n stop => List.mem_singleton.mp stop ▸ (annotated.stands_node commented .refl top).1
    · refine annotated.stands_inside commented .refl (fun k hk => ?_) st mem
      obtain ⟨c, hold, rfl⟩ := List.mem_map.mp hk
      exact ⟨hold, annotated.stands_gather commented c (Reaches.child .refl hold)
        (sound.ne_root_of_holds hold)⟩
  · obtain ⟨id, slot, c, reached, mem, other⟩ := altered
    cases span : c.span with
    | some s =>
      rw [span] at other
      exact .inl (revisions_ne_nil sound reached mem span (other.resolve_left nofun))
    | none =>
      obtain ⟨st, mem, loud⟩ := sound.loud_of_seat reached mem span
        (annotated.posted.seated id slot reached c mem span)
      rw [gathered, ← List.cons_append] at mem
      rcases List.mem_append.mp mem with mem | mem
      · exact .inr ⟨st, mem, loud⟩
      · rw [List.mem_singleton.mp mem] at loud
        cases loud
  · intro r mem
    obtain ⟨id, slot, c, s, reached, held, -, span, rfl⟩ := annotated.origin mem
    have le := (sound.fits .refl top).le
    exact (annotated.descends.uncrossed commented .refl top le).2 s ⟨id, slot, c, reached, held, span⟩

section Test

instance (kind : CommentKind) (body : Text) : Decidable (Comment.Holds kind body) :=
  match kind with
  | .line => inferInstanceAs (Decidable (∀ c ∈ body, isLineEnd c = false))
  | .block => inferInstanceAs (Decidable (¬ ['*', '/'] <:+: body))

def ApartAt (doc : Document) (id : NodeId) (slot : Slot) (kind : CommentKind) (r : Span) (j : NodeId) :
    Prop :=
  (∀ slot' ∈ [Slot.leading, .trailing, .inner], ∀ k ∈ (doc.node j).comments slot', k.span = some r →
    id = j ∧ slot = slot') ∧
  ∀ s ∈ doc.span j, (r.hi ≤ s.lo ∨ s.lo ≤ r.lo) ∧ (r.hi ≤ s.hi ∨ s.hi ≤ r.lo) ∧
    (doc.kind j = .block → r.hi ≤ s.lo + 1 ∨ s.lo + 1 ≤ r.lo) ∧
    (doc.text? j ≠ none → r.hi ≤ s.lo ∨ s.hi ≤ r.lo) ∧
    (kind = .line → s.lo ≠ r.hi ∧ (j ≠ root → s.hi ≠ r.hi))

instance (id : NodeId) (slot : Slot) (kind : CommentKind) (r : Span) (j : NodeId) :
    Decidable (doc.ApartAt id slot kind r j) := inferInstanceAs (Decidable (_ ∧ _))

def CommentedAt (source : Text) (doc : Document) (id : NodeId) (slot : Slot) (c : Comment) : Prop :=
  Comment.Holds c.kind c.text ∧ ∀ r ∈ c.span,
    (c.kind = .line → ∀ rest ∈ slice? r.hi (bytes source) source, rest.head?.all isLineEnd = true) ∧
    ∀ j < doc.nodes.size, doc.ApartAt id slot c.kind r j

instance (id : NodeId) (slot : Slot) (c : Comment) : Decidable (doc.CommentedAt source id slot c) :=
  inferInstanceAs (Decidable (_ ∧ _))

theorem commented_of_table (linked : doc.Linked) (root_lt : root < doc.nodes.size)
    (h : ∀ id < doc.nodes.size, ∀ slot ∈ [Slot.leading, .trailing, .inner],
      ∀ c ∈ (doc.node id).comments slot, doc.CommentedAt source id slot c) : doc.Commented source := by
  have listed : ∀ slot : Slot, slot ∈ [Slot.leading, .trailing, .inner] := by
    intro slot
    cases slot <;> decide
  have lt : ∀ {id}, doc.Reaches id → id < doc.nodes.size := linked.reaches_lt root_lt
  have each : ∀ id, doc.Reaches id → ∀ slot, ∀ c ∈ (doc.node id).comments slot,
      doc.CommentedAt source id slot c := fun id reached slot c mem =>
    h id (lt reached) slot (listed slot) c mem
  have at_node : ∀ r, doc.RemarkAt r → ∀ j s, doc.Reaches j → doc.span j = some s →
      (r.hi ≤ s.lo ∨ s.lo ≤ r.lo) ∧ (r.hi ≤ s.hi ∨ s.hi ≤ r.lo) ∧
        (doc.kind j = .block → r.hi ≤ s.lo + 1 ∨ s.lo + 1 ≤ r.lo) ∧
        (doc.text? j ≠ none → r.hi ≤ s.lo ∨ s.hi ≤ r.lo) := by
    rintro r ⟨id, slot, c, reached, mem, own⟩ j s there span
    obtain ⟨lo, hi, brace, text, -⟩ :=
      (((each id reached slot c mem).2 r own).2 j (lt there)).2 s span
    exact ⟨lo, hi, brace, text⟩
  refine ⟨fun id reached slot c mem => (each id reached slot c mem).1, ?_, ?_, ?_, ?_, ?_⟩
  · rintro i slot j slot' r ⟨reached, c, mem, own⟩ ⟨there, k, held, own'⟩
    exact (((each i reached slot c mem).2 r own).2 j (lt there)).1 slot' (listed slot') k held own'
  · intro r id t s remark reached value span
    refine (at_node r remark id s reached span).2.2.2 ?_
    rw [value]
    exact nofun
  · intro id s reached span
    exact ⟨fun r remark => (at_node r remark id s reached span).1,
      fun r remark => (at_node r remark id s reached span).2.1⟩
  · exact fun id s reached block span r remark => (at_node r remark id s reached span).2.2.1 block
  · intro id reached slot c mem line r own
    obtain ⟨ends, nodes⟩ := (each id reached slot c mem).2 r own
    have apart := fun j s there span => ((nodes j (lt there)).2 s span).2.2.2.2 line
    exact ⟨fun rest sliced => (Option.all_eq_true _ _).mp (ends line rest sliced), fun j s there span => (apart j s there span).1,
      fun j s there proper span => (apart j s there span).2 proper⟩

end Test

theorem WellFormed.annotated (wf : doc.WellFormed source) (standing : doc.Standing source)
    (commented : doc.Commented source) : doc.Annotated source doc where
  sound := wf.sound
  descends := .refl doc
  posted := wf.posted
  stems := fun id reached slot c mem s span => by
    have unrevised := ((wf.each id reached).remarks slot c mem).1
    refine ⟨c.text, standing id reached slot c mem s span, commented.sole id reached slot c mem,
      fun _ => rfl, fun revised => ?_⟩
    rw [unrevised] at revised
    cases revised
  lines := commented.lines

/-- What is kept of comments while rules are merged into them. -/
theorem Annotated.edit {mid : Document} (annotated : doc.Annotated source mid)
    (root_lt : root < doc.nodes.size) (name : RuleName rule) (edit : Edit o rule mid doc') :
    doc.Annotated source doc' where
  sound := edit.sound annotated.sound
  descends := annotated.descends.edit root_lt annotated.sound edit
  posted := edit.posted annotated.sound annotated.posted
  stems := by
    refine edit.bears annotated.sound ⟨fun _ c c' old merged => old.merge name merged, ?_, nofun, nofun⟩
      annotated.stems
    intro s span
    rw [besideComment_span] at span
    cases span
  lines := by
    refine edit.bears annotated.sound ⟨fun _ c c' old merged line s span => ?_, ?_, nofun, nofun⟩
      annotated.lines
    · obtain ⟨same, kind, -⟩ := Comment.merge_parses merged
      exact old (kind ▸ line) s (same ▸ span)
    · intro _ s span
      rw [besideComment_span] at span
      cases span

theorem annotateSource_of_flag {path text : Text} {ds : List Diagnostic} {summary : Summary}
    (read : read? path source = .ok (some doc)) (result : doc.annotate o ds = .ok (doc', summary))
    (printed : doc'.print source = .ok text) (flag : summary.changed = true ↔ text ≠ source) :
    annotateSource o path source ds =
      .ok (some ⟨summary, if text = source then none else some text⟩) := by
  unfold annotateSource
  by_cases asked : (ds.filterMap Diagnostic.actionableRule).any o.allows = true
  · rw [asked, read]
    simp only [Bool.not_true, Bool.false_eq_true, if_false, bind, Except.bind, result, printed]
    by_cases same : text = source
    · have still : summary.changed = false := by
        rw [← Bool.not_eq_true, flag]
        exact fun ne => ne same
      rw [still, if_pos same]
      rfl
    · rw [flag.mpr same, if_neg same]
      rfl
  · -- nothing is asked for, so nothing was done
    have idle : doc.annotate o ds = .ok (doc, {}) := annotateFrom_idle fun d hd rule asks => by
      rw [Bool.not_eq_true, List.any_eq_false] at asked
      exact Bool.eq_false_iff.mpr (asked rule (List.mem_filterMap.mpr ⟨d, hd, asks⟩))
    cases idle.symm.trans result
    have same : text = source := by
      by_contra ne
      exact absurd (flag.mpr ne) (by decide)
    rw [Bool.not_eq_true] at asked
    rw [asked, if_pos same]
    rfl

/-- The flag tells the truth: for a document as it is read whose blocks start with a brace, annotating and
printing succeed, and the summary says that something was changed exactly if another text is printed.
So a source file gets a new text exactly if that is another one. -/
theorem annotate_changed_iff (wf : doc.WellFormed source) (standing : doc.Standing source)
    (commented : doc.Commented source) (braced : doc.Braced source) (o : AnnotateOptions)
    (ds : List Diagnostic) (names : ∀ d ∈ ds, ∀ rule, d.actionableRule = some rule →
      rule.trim = rule ∧ ',' ∉ rule ∧ ¬ Directive.separator <:+: rule) :
    ∃ doc' summary text, doc.annotate o ds = .ok (doc', summary) ∧ doc'.print source = .ok text ∧
      (summary.changed = true ↔ text ≠ source) ∧
      ∀ path, read? path source = .ok (some doc) → annotateSource o path source ds =
        .ok (some ⟨summary, if text = source then none else some text⟩) := by
  have kind : ∀ d ∈ ds, ∀ rule, Asks o d rule → RuleName rule := fun d hd rule asks => by
    obtain ⟨trimmed, comma, dashes⟩ := names d hd rule asks.1
    exact ⟨nonempty_of_actionable asks.1, trimmed, comma, dashes⟩
  obtain ⟨doc', summary, result, edits⟩ := annotateFrom_edits (W := fun _ rule => RuleName rule)
    wf.sound {} kind
  obtain ⟨-, annotated⟩ := edits.keeps wf.sound (wf.annotated standing commented)
    fun o rule _ _ name edit _ annotated => annotated.edit wf.root_lt name edit
  have told : doc'.Told summary := annotateFrom_told wf.sound
    ⟨fun changed => absurd changed (by decide), fun _ => wf.pristine⟩ result
  obtain ⟨sheet, -, printed⟩ := annotated.sound.strike_ok (annotated.descends.frame.braced braced)
  have iff : summary.changed = true ↔ sheet.text ≠ source := by
    cases changed : summary.changed with
    | true =>
      have differs := annotated.print_ne commented braced (told.altered changed) printed
      exact ⟨fun _ => differs, fun _ => rfl⟩
    | false =>
      have same := (annotated.sound.wellFormed (told.pristine changed)).print_eq
      cases same.symm.trans printed
      exact ⟨nofun, fun ne => absurd rfl ne⟩
  exact ⟨doc', summary, sheet.text, result, printed, iff, fun path read =>
    annotateSource_of_flag read result printed iff⟩

/-- A statement with a directive above it that names its rule twice, with room to spare. -/
def spaciousSource : Text := "// eslint-disable-next-line  q,  q\na();".toList

def spaciousSample : Document where
  nodes := #[
    { kind := .program, span := some ⟨0, 39, 1, 2⟩, children := [1] },
    { kind := .statement, span := some ⟨35, 39, 2, 2⟩, parent := some 0, children := [2]
      leading := [{ kind := .line, text := " eslint-disable-next-line  q,  q".toList, placement := .leading
                    span := some ⟨0, 34, 1, 1⟩ }] },
    { kind := .expression, span := some ⟨35, 38, 2, 2⟩, parent := some 1, children := [3] },
    { kind := .expression, span := some ⟨35, 36, 2, 2⟩, parent := some 2 }]

theorem annotate_changed_iff_spacious :
    spaciousSample.WellFormed spaciousSource ∧ spaciousSample.Standing spaciousSource ∧
    spaciousSample.Commented spaciousSource ∧ spaciousSample.Braced spaciousSource ∧
    read? "a.js".toList spaciousSource = .ok (some spaciousSample) ∧
    ∃ summary text, annotateSource briefOptions "a.js".toList spaciousSource [complaint 2 'r'] =
      .ok (some ⟨summary, if text = spaciousSource then none else some text⟩) ∧
      (summary.changed = true ↔ text ≠ spaciousSource) := by
  have wf : spaciousSample.WellFormed spaciousSource := wellFormed_of_reads (by decide)
  have standing : spaciousSample.Standing spaciousSource :=
    standing_of_table wf.linked wf.root_lt (by decide)
  have commented : spaciousSample.Commented spaciousSource :=
    commented_of_table wf.linked wf.root_lt (by decide)
  have braced : spaciousSample.Braced spaciousSource := braced_of_table (by decide)
  have read : read? "a.js".toList spaciousSource = .ok (some spaciousSample) :=
    read?_of_inOrder (by decide +kernel)
  refine ⟨wf, standing, commented, braced, read, ?_⟩
  obtain ⟨_, summary, text, -, -, iff, source⟩ := annotate_changed_iff wf standing commented braced
    briefOptions [complaint 2 'r'] (by decide)
  exact ⟨summary, text, source _ read, iff⟩

/-- Where no brace stands at the start of a block, the flag may say that something was changed and there
is no text: the offset behind the brace lies inside of a character. -/
theorem annotate_changed_faults :
    read? "a.js".toList shiftedSource = .ok (some shiftedSample) ∧
    shiftedSample.WellFormed shiftedSource ∧ shiftedSample.Standing shiftedSource ∧
    shiftedSample.Commented shiftedSource ∧ ∃ doc' summary,
      shiftedSample.annotate briefOptions [complaint 2 'r'] = .ok (doc', summary) ∧
      summary.changed = true ∧ doc'.print shiftedSource = .error .outsideText ∧
      annotateSource briefOptions "a.js".toList shiftedSource [complaint 2 'r'] = .error .outsideText := by
  have read : read? "a.js".toList shiftedSource = .ok (some shiftedSample) :=
    read?_of_inOrder (by decide +kernel)
  have wf : shiftedSample.WellFormed shiftedSource := wellFormed_of_reads (by decide)
  refine ⟨read, wf, standing_of_table wf.linked wf.root_lt (by decide),
    commented_of_table wf.linked wf.root_lt (by decide), _, _, rfl, rfl, rfl, ?_⟩
  unfold annotateSource
  rw [read]
  rfl

def trappedSource : Text := "(\nx // eslint-disable-line r // eslint-disable-line q, r // eslint-disable-line q -- ".toList

def trappedSample : Document where
  nodes := #[
    { kind := .program, span := some ⟨0, 85, 1, 2⟩, children := [1] },
    { kind := .statement, span := some ⟨0, 85, 1, 2⟩, parent := some 0, children := [2] },
    { kind := .expression, span := some ⟨2, 3, 2, 2⟩, parent := some 1
      trailing := [{ kind := .line, placement := .trailing false, span := some ⟨4, 85, 2, 2⟩
                     text := " eslint-disable-line r // eslint-disable-line q, r // eslint-disable-line q -- ".toList }] }]

/-- A node must not end with a line comment: this one shrinks when a rule is merged, and the next
directive is put right behind it and spells what was lost. -/
example : trappedSample.WellFormed trappedSource ∧ trappedSample.Standing trappedSource ∧
    ∃ doc summary, trappedSample.annotate ⟨[], [], true⟩ [complaint 2 'r', complaint 1 'q'] =
      .ok (doc, summary) ∧ summary = ⟨1, 1, 0, []⟩ ∧ doc.print trappedSource = .ok trappedSource := by
  have wf : trappedSample.WellFormed trappedSource := wellFormed_of_reads (by decide)
  exact ⟨wf, standing_of_table wf.linked wf.root_lt (by decide), _, _, rfl, rfl, rfl⟩

end Quell.Document
