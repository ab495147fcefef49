import Quell.Proofs.Annotate.Above
import Quell.Proofs.Grammar.Rows
import Quell.Proofs.Print.Fresh

/-!
Line comments in front of several nodes.

If a document as it was read gets a line comment more in front of some of its nodes, each of which is
the first thing on its line, then what is printed is the source with these comments put in as rows
(`Crowns.print_rows`).
-/
namespace Quell

open Text Relation Grammar

/-- Strokes that lead from one offset of the source to another, and put in rows on the way. -/
structure Press.Lays (press : Press) (eol : LineEnding) (lo hi : Nat) (strokes : List Stroke)
    (notes : List Note) : Prop where
  le : lo ≤ hi
  order : notes.Pairwise (·.lo < ·.lo)
  within : ∀ n ∈ notes, lo ≤ n.lo ∧ n.lo < hi
  run : ∀ a b t, press.source = a ++ b → bytes a ≤ lo → ∃ m m' b', b = m ++ b' ∧
    bytes (a ++ m) ≤ hi ∧ Weaves (notes.map (Note.row eol)) (bytes a) m m' ∧
    strokes.foldlM press.strike ⟨t, bytes a⟩ = .ok ⟨t ++ m', bytes (a ++ m)⟩

namespace Press.Lays

variable {press : Press} {eol : LineEnding} {lo mid hi : Nat} {strokes strokes' : List Stroke}
variable {notes notes' : List Note}

theorem nil (le : lo ≤ hi) : press.Lays eol lo hi [] [] where
  le := le
  order := .nil
  within := nofun
  run a b t _ low := ⟨[], [], b, rfl, by rw [List.append_nil]; omega, .nil, by
    rw [List.append_nil, List.append_nil]
    rfl⟩

theorem append (first : press.Lays eol lo mid strokes notes)
    (second : press.Lays eol mid hi strokes' notes') :
    press.Lays eol lo hi (strokes ++ strokes') (notes ++ notes') where
  le := Nat.le_trans first.le second.le
  order := List.pairwise_append.mpr ⟨first.order, second.order, fun n mem n' mem' =>
    Nat.lt_of_lt_of_le (first.within n mem).2 (second.within n' mem').1⟩
  within n mem := by
    have le := first.le
    have le' := second.le
    rcases List.mem_append.mp mem with mem | mem
    · have := first.within n mem
      omega
    · have := second.within n mem
      omega
  run a b t split low := by
    obtain ⟨m, m', b', rfl, reach, weaves, ran⟩ := first.run a b t split low
    obtain ⟨k, k', b'', rfl, reach', weaves', ran'⟩ := second.run (a ++ m) b' (t ++ m')
      (by rw [split, List.append_assoc]) reach
    refine ⟨m ++ k, m' ++ k', b'', by rw [List.append_assoc], by rwa [← List.append_assoc], ?_, ?_⟩
    · rw [List.map_append]
      rw [bytes_append] at weaves'
      exact weaves.append weaves'
    · rw [List.foldlM_append, ran, ← List.append_assoc, ← List.append_assoc]
      exact ran'

theorem lower (lays : press.Lays eol mid hi strokes notes) (le : lo ≤ mid) :
    press.Lays eol lo hi strokes notes where
  le := Nat.le_trans le lays.le
  order := lays.order
  within n mem := ⟨Nat.le_trans le (lays.within n mem).1, (lays.within n mem).2⟩
  run a b t split low := lays.run a b t split (Nat.le_trans low le)

section

variable (plain : press.revisions = []) (size : press.size = bytes press.source)

include plain size

theorem reach (cut : Cut press.source hi) (le : lo ≤ hi) : press.Lays eol lo hi [.reach hi] [] where
  le := le
  order := .nil
  within := nofun
  run a b t split low := by
    obtain ⟨m, b', rfl, there, flushed⟩ := @flush_plain press a b t hi plain size split cut
    refine ⟨m, m, b', rfl, by omega, .nil, ?_⟩
    rw [List.foldlM_cons, strike, flushed]
    rfl

theorem start (cut : Cut press.source lo) (lays : press.Lays eol lo hi strokes notes) :
    press.Lays eol lo hi (.start lo [] :: strokes) notes := by
  refine ⟨lays.le, lays.order, lays.within, fun a b t split low => ?_⟩
  obtain ⟨m, b', rfl, there, flushed⟩ := @flush_plain press a b t lo plain size split cut
  rw [Nat.max_eq_right low] at there
  obtain ⟨k, k', b'', rfl, reach, weaves, ran⟩ := lays.run (a ++ m) b' (t ++ m)
    (by rw [split, List.append_assoc]) (Nat.le_of_eq there)
  refine ⟨m ++ k, m ++ k', b'', by rw [List.append_assoc], by rwa [← List.append_assoc], ?_, ?_⟩
  · rw [bytes_append] at weaves
    exact weaves.prepend
  · rw [List.foldlM_cons, strike, flushed, ← List.append_assoc, ← List.append_assoc]
    exact ran

/-- A line comment in front of the first thing on a line. -/
theorem startRow {x y : Text} {c : Char} {k : Comment} (split : press.source = x ++ c :: y)
    (here : bytes x = lo) (blanks : Run (lastLine x)) (seen : isBlank c = false)
    (kind : k.kind = .line) (ending : press.eol = eol.text) (wide : lo < hi)
    (lays : press.Lays eol lo hi strokes notes) (later : ∀ n ∈ notes, lo < n.lo) :
    press.Lays eol lo hi (.start lo [k] :: strokes) (⟨lo, k.text, lastLine x⟩ :: notes) := by
  refine ⟨lays.le, List.pairwise_cons.mpr ⟨later, lays.order⟩, fun n mem => ?_,
    fun a b t split' low => ?_⟩
  · rcases List.mem_cons.mp mem with rfl | mem
    · exact ⟨Nat.le_refl _, wide⟩
    · exact lays.within n mem
  obtain ⟨m, b', rfl, there, flushed⟩ := @flush_plain press a b t lo plain size split'
    ⟨x, c :: y, split, here⟩
  rw [Nat.max_eq_right low] at there
  rw [← List.append_assoc] at split'
  obtain ⟨rfl, rfl⟩ := append_inj_bytes (split'.symm.trans split) (there.trans here.symm)
  obtain ⟨n, n', b'', rest, reach, weaves, ran⟩ := lays.run (a ++ m) (c :: y)
    (t ++ m ++ (Note.row eol ⟨lo, k.text, lastLine (a ++ m)⟩).2) split (Nat.le_of_eq there)
  refine ⟨m ++ n, m ++ ((Note.row eol ⟨lo, k.text, lastLine (a ++ m)⟩).2 ++ n'), b'', ?_, ?_, ?_, ?_⟩
  · rw [List.append_assoc, rest]
  · rwa [← List.append_assoc]
  · have row : Note.row eol ⟨lo, k.text, lastLine (a ++ m)⟩ =
        (bytes a + bytes m, (Note.row eol ⟨lo, k.text, lastLine (a ++ m)⟩).2) := by
      rw [← bytes_append, there]
      rfl
    rw [List.map_cons, row]
    rw [bytes_append] at weaves
    exact .row weaves
  · have dark : Page.isSpaceOrTab c = false := by
      by_contra blank
      rw [isBlank_of_isSpaceOrTab (Bool.not_eq_false _ ▸ blank)] at seen
      cases seen
    have fair : press.Fair :=
      ⟨size, by rw [plain]; exact .nil, by rw [plain]; exact List.forall_mem_nil _⟩
    have margin := lineIndent_eq fair split
    rw [takeWhile_run blanks dark, there] at margin
    have first := firstOnLine_eq split
    rw [blanks.allBlank, there] at first
    have led : press.leadSheet ⟨t ++ m, bytes (a ++ m)⟩ lo [k] = _ := lead_first margin first [k]
    have row : press.rows (lastLine (a ++ m)) [k] =
        (Note.row eol ⟨lo, k.text, lastLine (a ++ m)⟩).2 := by
      simp only [rows, List.flatMap_cons, List.flatMap_nil, List.append_nil, Note.row, Gap.row,
        Comment.render, Comment.delimit, kind, ending, List.append_assoc, List.cons_append]
    rw [row] at led
    rw [List.foldlM_cons, strike, flushed]
    show (press.leadSheet ⟨t ++ m, bytes (a ++ m)⟩ lo [k] >>= _) = _
    rw [led, ← List.append_assoc, ← List.append_assoc, ← List.append_assoc]
    exact ran

end

end Press.Lays

namespace Document

variable {source : Text} {doc doc' : Document} {K : NodeId → Option Comment} {x : NodeId} {s : Span}

/-- The same document, but for a comment more in front of some of the nodes. -/
structure Crowns (doc doc' : Document) (K : NodeId → Option Comment) : Prop where
  eol : doc'.eol = doc.eol
  size : doc'.nodes.size = doc.nodes.size
  tree : ∀ j, doc'.kind j = doc.kind j ∧ doc'.span j = doc.span j ∧
    doc'.children j = doc.children j ∧ doc'.parent j = doc.parent j
  leading : ∀ j, (doc'.node j).leading = (doc.node j).leading ++ (K j).toList
  rest : ∀ j slot, slot ≠ .leading → (doc'.node j).comments slot = (doc.node j).comments slot

/-- The comments are line comments, each in front of the first thing on a line of its own. -/
structure Rowed (source : Text) (doc : Document) (K : NodeId → Option Comment) : Prop where
  line : ∀ j k, K j = some k → k.span = none ∧ k.kind = .line
  opens : ∀ j k, K j = some k → ∃ u a c b, doc.span j = some u ∧ u.lo < u.hi ∧ u.lo = bytes a ∧
    source = a ++ c :: b ∧ Run (lastLine a) ∧ isBlank c = false
  alone : ∀ i j k l u v, K i = some k → K j = some l → doc.span i = some u → doc.span j = some v →
    u.lo = v.lo → i = j

/-- The note is that of a comment in front of the node or of a node below. -/
def NotesBelow (source : Text) (doc : Document) (K : NodeId → Option Comment) (x : NodeId)
    (n : Grammar.Note) : Prop :=
  ∃ j k u a b, doc.Below x j ∧ K j = some k ∧ doc.span j = some u ∧ source = a ++ b ∧
    bytes a = u.lo ∧ n = ⟨u.lo, k.text, lastLine a⟩

theorem notesBelow_iff {n : Grammar.Note} : doc.NotesBelow source K x n ↔
    (∃ k u a b, K x = some k ∧ doc.span x = some u ∧ source = a ++ b ∧ bytes a = u.lo ∧
      n = ⟨u.lo, k.text, lastLine a⟩) ∨ ∃ c ∈ doc.children x, doc.NotesBelow source K c n := by
  constructor
  · rintro ⟨j, k, u, a, b, below, put, span, split, here, rfl⟩
    rcases ReflTransGen.cases_head below with rfl | ⟨c, hold, below⟩
    · exact .inl ⟨k, u, a, b, put, span, split, here, rfl⟩
    · exact .inr ⟨c, hold, j, k, u, a, b, below, put, span, split, here, rfl⟩
  · rintro (⟨k, u, a, b, put, span, split, here, rfl⟩ |
      ⟨c, hold, j, k, u, a, b, below, put, span, split, here, rfl⟩)
    · exact ⟨x, k, u, a, b, .refl, put, span, split, here, rfl⟩
    · exact ⟨j, k, u, a, b, .head hold below, put, span, split, here, rfl⟩

namespace Crowns

theorem linked' (crowns : doc.Crowns doc' K) (linked : doc.Linked) : doc'.Linked :=
  linked.of_same (fun j => (crowns.tree j).2.2.1) fun j => (crowns.tree j).2.2.2

theorem gather_eq (crowns : doc.Crowns doc' K) (wf : doc.WellFormed source)
    (rowed : doc.Rowed source K) (reached : doc.Reaches x) (span : doc.span x = some s) :
    doc'.gather doc'.strokesOf x = .start s.lo (K x).toList ::
      ((doc.children x).flatMap (doc'.gather doc'.strokesOf) ++ [.reach s.hi]) := by
  obtain ⟨kind, span', children, -⟩ := crowns.tree x
  have valid : x < doc'.nodes.size := by
    rw [crowns.size]
    exact wf.sound.reaches_lt reached
  have front : inserted (doc'.node x).leading = (K x).toList := by
    have none : inserted (doc.node x).leading = [] := wf.inserted_eq_nil reached .leading
    rw [crowns.leading]
    unfold inserted at none ⊢
    rw [List.filter_append, none, List.nil_append, List.filter_eq_self]
    intro k mem
    rw [Option.mem_toList] at mem
    simp [Comment.isInserted, (rowed.line x k mem).1]
  have inside := strokesInside_congr kind span' (crowns.rest x .inner (by decide))
    ((doc.children x).map fun c => (c, doc'.gather doc'.strokesOf c))
    fun k _ => ⟨(crowns.tree k.1).2.1, crowns.rest k.1 .trailing (by decide)⟩
  have plain : doc.strokesOf x ((doc.children x).map fun c => (c, doc'.gather doc'.strokesOf c)) = _ :=
    wf.strokesOf_eq reached span fun k hk => by
      obtain ⟨c, hc, rfl⟩ := List.mem_map.mp hk
      exact hc
  rw [strokesOf_spanned span] at plain
  rw [Document.gather_eq (crowns.linked' wf.linked) valid, children,
    strokesOf_spanned (span'.trans span), front, inside]
  have tail := (List.cons.inj plain).2
  rw [List.flatMap_map] at tail
  rw [tail]

theorem preorder_eq (crowns : doc.Crowns doc' K) (sound : doc.Sound source) :
    doc'.preorder = doc.preorder := by
  have root_lt : root < doc'.nodes.size := by
    rw [crowns.size]
    exact sound.root_lt
  rw [Document.preorder_eq, Document.preorder_eq]
  exact gather_congr sound.linked (crowns.linked' sound.linked) sound.root_lt root_lt
    fun j _ => ⟨(crowns.tree j).2.2.1, fun _ _ => rfl⟩

theorem revisionsOf_eq (crowns : doc.Crowns doc' K) (wf : doc.WellFormed source)
    (rowed : doc.Rowed source K) : Press.revisionsOf doc' = [] := by
  have plain : Press.revisionsOf doc = [] := revisionsOf_eq_nil fun j mem slot c hc =>
    ((wf.each j ((mem_preorder wf.linked wf.root_lt).mp mem)).remarks slot c hc).1
  refine Eq.trans (revisionsOf_congr ?_) plain
  rw [crowns.preorder_eq wf.sound, List.filter_flatMap, List.filter_flatMap]
  congr 1
  funext j
  have leading : (doc'.node j).leading.filter (·.span.isSome) =
      (doc.node j).leading.filter (·.span.isSome) := by
    rw [crowns.leading, List.filter_append]
    refine (congrArg _ (List.filter_eq_nil_iff.mpr fun k mem => ?_)).trans (List.append_nil _)
    rw [Option.mem_toList] at mem
    simp [(rowed.line j k mem).1]
  have trailing : (doc'.node j).trailing = (doc.node j).trailing := crowns.rest j .trailing (by decide)
  have inner : (doc'.node j).inner = (doc.node j).inner := crowns.rest j .inner (by decide)
  unfold Node.allComments
  rw [List.filter_append, List.filter_append, List.filter_append, List.filter_append, leading,
    trailing, inner]

/-- Children, one after another. -/
theorem lays_all {press : Press} {lo hi : Nat} {f : NodeId → List Stroke} {cs : List NodeId}
    {P : NodeId → Grammar.Note → Prop} (le : lo ≤ hi)
    (each : ∀ c ∈ cs, ∃ t notes, doc.span c = some t ∧ lo ≤ t.lo ∧ t.hi ≤ hi ∧
      (∀ n, n ∈ notes ↔ P c n) ∧ press.Lays doc.eol t.lo t.hi (f c) notes)
    (ordered : cs.Pairwise fun a b => ∀ s t, doc.span a = some s → doc.span b = some t → s.hi ≤ t.lo) :
    ∃ notes, (∀ n, n ∈ notes ↔ ∃ c ∈ cs, P c n) ∧
      press.Lays doc.eol lo hi (cs.flatMap f) notes := by
  induction cs generalizing lo with
  | nil => exact ⟨[], by simp, .nil le⟩
  | cons c cs ih =>
    obtain ⟨t, notes, span, low, high, mem, lays⟩ := each c List.mem_cons_self
    obtain ⟨first, ordered⟩ := List.pairwise_cons.mp ordered
    obtain ⟨notes', mem', lays'⟩ := @ih t.hi high (fun d hd => by
      obtain ⟨u, notes, span', -, high', made⟩ := each d (List.mem_cons_of_mem _ hd)
      exact ⟨u, notes, span', first d hd t u span span', high', made⟩) ordered
    refine ⟨notes ++ notes', fun n => ?_, (lays.lower low).append lays'⟩
    rw [List.mem_append, mem, mem']
    simp

/-- The strokes of a node lay the rows of the comments in front of it and below. -/
theorem lays (crowns : doc.Crowns doc' K) (wf : doc.WellFormed source) (rowed : doc.Rowed source K)
    (reached : doc.Reaches x) (span : doc.span x = some s) :
    ∃ notes, (∀ n, n ∈ notes ↔ doc.NotesBelow source K x n) ∧
      (Press.of doc' source).Lays doc.eol s.lo s.hi (doc'.gather doc'.strokesOf x) notes := by
  have plain : (Press.of doc' source).revisions = [] := crowns.revisionsOf_eq wf rowed
  have ending : (Press.of doc' source).eol = doc.eol.text := congrArg LineEnding.text crowns.eol
  have sound := wf.sound
  induction x using wf.linked.induct generalizing s with
  | node x ih =>
    have fits := sound.fits reached span
    obtain ⟨inner, mem, below⟩ := @lays_all doc (Press.of doc' source) s.lo s.hi
      (doc'.gather doc'.strokesOf) (doc.children x) (doc.NotesBelow source K) fits.le
      (fun c hold => by
        obtain ⟨t, ht, -⟩ := (wf.each c (reached.child hold)).spanned
        obtain ⟨lo, hi⟩ := (wf.each x reached).nested s c t span hold ht
        obtain ⟨notes, mem, lays⟩ := ih c hold (reached.child hold) ht
        exact ⟨t, notes, ht, lo, hi, mem, lays⟩) (wf.each x reached).ordered
    have own := (below.append (.reach plain rfl fits.hi (Nat.le_refl _)))
    rw [List.append_nil] at own
    rw [crowns.gather_eq wf rowed reached span]
    cases put : K x with
    | none =>
      refine ⟨inner, fun n => ?_, own.start plain rfl fits.lo⟩
      rw [mem, notesBelow_iff, put]
      simp
    | some k =>
      obtain ⟨u, a, c, b, span', wide, here, split, blanks, seen⟩ := rowed.opens x k put
      cases span.symm.trans span'
      refine ⟨⟨s.lo, k.text, lastLine a⟩ :: inner, fun n => ?_, own.startRow plain rfl split here.symm
        blanks seen (rowed.line x k put).2 ending wide fun n held => ?_⟩
      · rw [List.mem_cons, mem, notesBelow_iff, put]
        refine or_congr_left ⟨?_, ?_⟩
        · rintro rfl
          exact ⟨k, s, a, c :: b, rfl, span, split, here.symm, rfl⟩
        · rintro ⟨_, _, a', b', ⟨⟩, span', split', here', rfl⟩
          cases span.symm.trans span'
          obtain ⟨rfl, -⟩ := append_inj_bytes (split'.symm.trans split) (here'.trans here)
          rfl
      · obtain ⟨c, hold, j, l, v, a', b', down, put', span'', -, -, rfl⟩ := (mem n).mp held
        obtain ⟨w, hw, low, -⟩ := sound.below_span (reached.child hold) down span''
        have inside := ((wf.each x reached).nested s c w span hold hw).1
        refine Nat.lt_of_le_of_ne (Nat.le_trans inside low) fun same => ?_
        obtain rfl := rowed.alone x j k l s v put put' span span'' same
        exact wf.linked.not_below_of_holds hold down

/-- What is printed is the source with the rows of the comments put in. -/
theorem print_rows (crowns : doc.Crowns doc' K) (wf : doc.WellFormed source)
    (rowed : doc.Rowed source K) : ∃ (notes : List Grammar.Note) (text : Text),
      (∀ n, n ∈ notes ↔ doc.NotesBelow source K root n) ∧ notes.Pairwise (·.lo < ·.lo) ∧
      Weaves (notes.map (Note.row doc.eol)) 0 source text ∧ doc'.print source = .ok text := by
  obtain ⟨s, span, fits⟩ := (wf.each root .refl).spanned
  obtain ⟨notes, mem, lays⟩ := crowns.lays wf rowed .refl span
  have plain : (Press.of doc' source).revisions = [] := crowns.revisionsOf_eq wf rowed
  obtain ⟨m, m', b, split, -, weaves, ran⟩ := lays.run [] source [] rfl (Nat.zero_le _)
  rw [List.nil_append, List.nil_append] at ran
  obtain ⟨n, b', rfl, full, last⟩ := @Press.flush_plain (Press.of doc' source) m b m' source.bytes
    plain rfl split (Cut.full source)
  -- the last stroke reaches the end of the source
  have spent : b' = [] := by
    apply bytes_eq_zero.mp
    have total := congrArg bytes split
    simp only [bytes_append] at total full
    omega
  subst spent
  rw [List.append_nil] at split
  refine ⟨notes, m' ++ n, mem, lays.order, ?_, ?_⟩
  · have whole := weaves.append (Weaves.nil (n := bytes [] + bytes m) (t := n))
    rwa [List.append_nil, ← split] at whole
  · rw [print_eq_strike]
    unfold strokes
    rw [List.foldlM_append]
    show Except.map _ ((doc'.gather doc'.strokesOf root).foldlM (Press.of doc' source).strike
      ⟨[], bytes []⟩ >>= _) = _
    rw [ran]
    show Except.map _ ([Stroke.reach source.bytes].foldlM (Press.of doc' source).strike _) = _
    rw [Press.strike_reach, last]
    rfl

end Crowns
end Document
end Quell
