import Quell.Proofs.Document.WellFormed
import Quell.Proofs.Print.Around
import Quell.Proofs.Print.Stops
import Quell.Proofs.Print.Untouched

/-!
Printing a document as it is read, but for the end of one block.

The strokes of a document as it is read only move on, and those of a node stay inside of its span
(`WellFormed.onward_gather`). Strokes that only move on copy the source (`Press.strike_onward`). So
where one block has other strokes, what these write is put between two parts of the source:
`WellFormed.print_block`.
-/
namespace Quell

open Text Relation

namespace Press

variable {press : Press} {a b t : Text} {n : Nat} {P : Nat → Prop}

theorem flush_plain (plain : press.revisions = []) (size : press.size = bytes press.source)
    (split : press.source = a ++ b) (cut : Cut press.source n) :
    ∃ m b', b = m ++ b' ∧ bytes (a ++ m) = max (bytes a) n ∧
      press.flushSheet ⟨t, bytes a⟩ n = .ok ⟨t ++ m, bytes (a ++ m)⟩ := by
  rcases Nat.lt_or_ge (bytes a) n with ahead | passed
  · obtain ⟨x, y, split', rfl⟩ := cut
    obtain ⟨m, rfl, rfl⟩ := exists_middle (split.symm.trans split') (Nat.le_of_lt ahead)
    have whole : min (bytes (a ++ m)) press.size = bytes (a ++ m) := by
      rw [size]
      exact Cut.min_bytes ⟨a ++ m, y, split', rfl⟩
    have none : press.due (bytes a) (bytes (a ++ m)) = [] := by
      unfold due
      rw [plain]
      rfl
    refine ⟨m, y, rfl, (Nat.max_eq_right (Nat.le_of_lt ahead)).symm, ?_⟩
    have found : slice? (bytes a) (bytes (a ++ m)) press.source = some m :=
      slice?_eq_some.mpr ⟨a, y, split', rfl, (bytes_append a m).symm⟩
    unfold flushSheet
    dsimp only
    rw [whole, if_neg (Nat.not_le_of_lt ahead), none]
    exact copySheet_eq found
  · refine ⟨[], b, rfl, ?_, ?_⟩
    · rw [List.append_nil, Nat.max_eq_left passed]
    · rw [List.append_nil, List.append_nil]
      exact flushSheet_stay passed

theorem strike_onward_one (plain : press.revisions = []) (size : press.size = bytes press.source)
    (split : press.source = a ++ b) (cuts : ∀ n, P n → Cut press.source n) {st : Stroke}
    (onward : Document.Onward P st) :
    ∃ m b' n, P n ∧ b = m ++ b' ∧ bytes (a ++ m) = max (bytes a) n ∧
      press.strike ⟨t, bytes a⟩ st = .ok ⟨t ++ m, bytes (a ++ m)⟩ := by
  cases onward with
  | @start n hn =>
    obtain ⟨m, b', split', reach, flushed⟩ := @flush_plain press a b t n plain size split (cuts n hn)
    exact ⟨m, b', n, hn, split', reach, by rw [strike, flushed]; rfl⟩
  | @reach n hn =>
    obtain ⟨m, b', split', reach, flushed⟩ := @flush_plain press a b t n plain size split (cuts n hn)
    exact ⟨m, b', n, hn, split', reach, flushed⟩

theorem strike_onward (plain : press.revisions = []) (size : press.size = bytes press.source)
    (split : press.source = a ++ b) {bound : Nat} (cuts : ∀ n, P n → Cut press.source n ∧ n ≤ bound)
    (le : bytes a ≤ bound) {strokes : List Stroke} (onward : ∀ st ∈ strokes, Document.Onward P st) :
    ∃ m b', b = m ++ b' ∧ bytes (a ++ m) ≤ bound ∧
      strokes.foldlM press.strike ⟨t, bytes a⟩ = .ok ⟨t ++ m, bytes (a ++ m)⟩ := by
  induction strokes generalizing a b t with
  | nil => exact ⟨[], b, rfl, by rwa [List.append_nil], by rw [List.append_nil, List.append_nil]; rfl⟩
  | cons st strokes ih =>
    obtain ⟨m, b', n, hn, rfl, reach, struck⟩ := @strike_onward_one press a b t P plain size split
      (fun n hn => (cuts n hn).1) st (onward st List.mem_cons_self)
    have low : bytes (a ++ m) ≤ bound := by
      rw [reach]
      exact Nat.max_le.mpr ⟨le, (cuts n hn).2⟩
    obtain ⟨m', b'', rfl, low', rest⟩ := @ih (a ++ m) b' (t ++ m)
      (by rw [split, List.append_assoc]) low (fun st hst => onward st (List.mem_cons_of_mem _ hst))
    refine ⟨m ++ m', b'', by rw [List.append_assoc], by rwa [← List.append_assoc], ?_⟩
    rw [List.foldlM_cons, struck, ← List.append_assoc, ← List.append_assoc]
    exact rest

end Press

namespace Document

variable {source : Text} {doc doc' : Document} {x block : NodeId} {s : Span}

def Within (source : Text) (lo hi n : Nat) : Prop := Cut source n ∧ lo ≤ n ∧ n ≤ hi

theorem Onward.imp {P Q : Nat → Prop} {st : Stroke} (h : Onward P st) (imp : ∀ n, P n → Q n) :
    Onward Q st := by
  cases h with
  | start h => exact .start (imp _ h)
  | reach h => exact .reach (imp _ h)

section Fresh

variable (wf : doc.WellFormed source)

include wf

theorem WellFormed.inserted_eq_nil (reached : doc.Reaches x) (slot : Slot) :
    inserted ((doc.node x).comments slot) = [] := by
  rw [inserted, List.filter_eq_nil_iff]
  intro c hc
  obtain ⟨-, t, ht, -⟩ := (wf.each x reached).remarks slot c hc
  rw [Comment.isInserted, ht]
  exact Bool.false_ne_true

theorem WellFormed.strokesOf_eq (reached : doc.Reaches x) (hs : doc.span x = some s)
    {kids : List (NodeId × List Stroke)} (held : ∀ k ∈ kids, doc.Holds x k.1) :
    doc.strokesOf x kids = .start s.lo [] :: (kids.flatMap (·.2) ++ [.reach s.hi]) := by
  have leading : inserted (doc.node x).leading = [] := wf.inserted_eq_nil reached .leading
  have inside : doc.strokesInside x kids = kids.flatMap (·.2) := by
    induction kids with
    | nil => rfl
    | cons k kids ih =>
      obtain ⟨c, own⟩ := k
      have below := reached.child (held (c, own) List.mem_cons_self)
      obtain ⟨t, ht, -⟩ := (wf.each c below).spanned
      have entering : doc.strokesEntering x c (kids.map (·.1)) = [] := by
        simp [strokesEntering, ht]
      have behind : doc.strokesBehind c x = [] := by
        have none : inserted (doc.node c).trailing = [] := wf.inserted_eq_nil below .trailing
        simp [strokesBehind, none]
      rw [strokesInside, entering, behind, ih fun k hk => held k (List.mem_cons_of_mem _ hk)]
      simp
  rw [strokesOf, hs]
  dsimp only
  rw [leading, inside]
  rfl

theorem WellFormed.gather_eq (reached : doc.Reaches x) (hs : doc.span x = some s) :
    doc.gather doc.strokesOf x =
      .start s.lo [] :: ((doc.children x).flatMap (doc.gather doc.strokesOf) ++ [.reach s.hi]) := by
  rw [Document.gather_eq wf.linked (wf.sound.reaches_lt reached), wf.strokesOf_eq reached hs,
    List.flatMap_map]
  intro k hk
  obtain ⟨c, hc, rfl⟩ := List.mem_map.mp hk
  exact hc

theorem WellFormed.onward_gather (reached : doc.Reaches x) (hs : doc.span x = some s) :
    ∀ st ∈ doc.gather doc.strokesOf x, Onward (Within source s.lo s.hi) st := by
  induction x using wf.linked.induct generalizing s with
  | node x ih =>
    have fits := wf.sound.fits reached hs
    intro st mem
    rw [wf.gather_eq reached hs] at mem
    simp only [List.mem_cons, List.mem_append, List.not_mem_nil, or_false] at mem
    rcases mem with rfl | mem | rfl
    · exact .start ⟨fits.lo, Nat.le_refl _, fits.le⟩
    · obtain ⟨c, hc, mem⟩ := List.mem_flatMap.mp mem
      obtain ⟨t, ht, -⟩ := (wf.each c (reached.child hc)).spanned
      obtain ⟨lo, hi⟩ := (wf.each x reached).nested s c t hs hc ht
      refine (ih c hc (reached.child hc) ht st mem).imp fun n h => ?_
      exact ⟨h.1, Nat.le_trans lo h.2.1, Nat.le_trans h.2.2 hi⟩
    · exact .reach ⟨fits.hi, fits.le, Nat.le_refl _⟩

/-- A document as it is read prints its source. -/
theorem WellFormed.print_eq : doc.print source = .ok source := by
  have plain : Press.revisionsOf doc = [] := revisionsOf_eq_nil fun id mem slot c hc =>
    ((wf.each id ((mem_preorder wf.linked wf.root_lt).mp mem)).remarks slot c hc).1
  obtain ⟨r, hr, -⟩ := (wf.each root .refl).spanned
  rcases print_onward source plain (wf.onward_gather .refl hr) with printed | ⟨-, n, within, torn⟩
  · exact printed
  · exact absurd within.1 torn

theorem WellFormed.onward_before {last : NodeId} {u : Span} {A : List NodeId}
    (split : doc.children x = A ++ [last]) (reached : doc.Reaches x) (hs : doc.span x = some s)
    (hu : doc.span last = some u) : ∀ st ∈ .start s.lo [] :: A.flatMap (doc.gather doc.strokesOf) ++
      .start u.lo [] :: (doc.children last).flatMap (doc.gather doc.strokesOf),
      Onward (Within source 0 u.hi) st := by
  have held : ∀ c ∈ A ++ [last], doc.Holds x c := by
    intro c hc
    unfold Holds
    rwa [split]
  have hold := held last (List.mem_append_right _ List.mem_cons_self)
  have low := ((wf.each x reached).nested s last u hs hold hu).1
  have ordered := (wf.each x reached).ordered
  rw [split] at ordered
  have le := (wf.sound.fits (reached.child hold) hu).le
  have own : ∀ c t, doc.Holds x c → doc.span c = some t → t.hi ≤ u.hi →
      ∀ st ∈ doc.gather doc.strokesOf c, Onward (Within source 0 u.hi) st := by
    intro c t held ht under st mem
    refine (wf.onward_gather (reached.child held) ht st mem).imp fun n h => ?_
    exact ⟨h.1, Nat.zero_le _, Nat.le_trans h.2.2 under⟩
  intro st mem
  simp only [List.cons_append, List.mem_cons, List.mem_append] at mem
  rcases mem with rfl | mem | mem
  · exact .start ⟨(wf.sound.fits reached hs).lo, Nat.zero_le _, by omega⟩
  · obtain ⟨c, hc, mem⟩ := List.mem_flatMap.mp mem
    have child := held c (List.mem_append_left _ hc)
    obtain ⟨t, ht, -⟩ := (wf.each c (reached.child child)).spanned
    have apart := (List.pairwise_append.mp ordered).2.2 c hc last List.mem_cons_self t u ht hu
    exact own c t child ht (by omega) st mem
  · refine own last u hold hu (Nat.le_refl _) st ?_
    rw [wf.gather_eq (reached.child hold) hu]
    simp only [List.mem_cons, List.mem_append]
    exact mem.imp_right .inl

/-- Where two documents agree outside of a node, their strokes do. Those in front of the node stop at
its start. -/
theorem WellFormed.strokes_around (reached : doc.Reaches block) (hs : doc.span block = some s)
    (linked : doc'.Linked) (grows : doc.nodes.size ≤ doc'.nodes.size)
    (alike : ∀ j, doc.Reaches j → ¬ doc.Below block j →
      AlikeAt doc doc' doc.strokesOf doc'.strokesOf j) :
    ∃ U V, doc'.gather doc'.strokesOf root = U ++ doc'.gather doc'.strokesOf block ++ V ∧
      (∀ st ∈ U, Onward (Within source 0 s.lo) st) ∧ ∀ st ∈ V, Onward (Cut source) st := by
  have sound := wf.sound
  have step : ∀ q b A C, doc.Reaches q → doc.Below b block → doc.children q = A ++ b :: C →
      ∃ L R, (∀ v, doc.strokesOf q (A.map (fun c => (c, doc.gather doc.strokesOf c)) ++ (b, v) ::
          C.map fun c => (c, doc.gather doc.strokesOf c)) = L ++ v ++ R) ∧
        ∀ U, (∀ st ∈ U, Onward (Within source 0 s.lo) st) →
          ∀ st ∈ L ++ U, Onward (Within source 0 s.lo) st := by
    intro q b A C reached' below split
    have hold : doc.Holds q b := by
      unfold Holds
      rw [split]
      simp
    obtain ⟨u, hu, -⟩ := (wf.each q reached').spanned
    obtain ⟨v, hv, lo, -⟩ := sound.below_span (reached'.child hold) below hs
    have above := ((wf.each q reached').nested u b v hu hold hv).1
    have ordered := (wf.each q reached').ordered
    rw [split] at ordered
    refine ⟨.start u.lo [] :: A.flatMap (doc.gather doc.strokesOf),
      C.flatMap (doc.gather doc.strokesOf) ++ [.reach u.hi], fun strokes => ?_, fun U before => ?_⟩
    · rw [wf.strokesOf_eq reached' hu]
      · simp [List.flatMap_map]
      · intro k hk
        unfold Holds
        rw [split]
        simp only [List.mem_append, List.mem_map, List.mem_cons] at hk ⊢
        rcases hk with ⟨c, hc, rfl⟩ | rfl | ⟨c, hc, rfl⟩
        · exact .inl hc
        · exact .inr (.inl rfl)
        · exact .inr (.inr hc)
    · intro st mem
      simp only [List.cons_append, List.mem_cons, List.mem_append] at mem
      rcases mem with rfl | mem | mem
      · exact .start ⟨(sound.fits reached' hu).lo, Nat.zero_le _, Nat.le_trans above lo⟩
      · obtain ⟨c, hc, mem⟩ := List.mem_flatMap.mp mem
        have held : doc.Holds q c := by
          unfold Holds
          rw [split]
          simp [hc]
        obtain ⟨w, hw, -⟩ := (wf.each c (reached'.child held)).spanned
        have apart := (List.pairwise_append.mp ordered).2.2 c hc b List.mem_cons_self w v hw hv
        refine (wf.onward_gather (reached'.child held) hw st mem).imp fun n h => ?_
        exact ⟨h.1, Nat.zero_le _, Nat.le_trans h.2.2 (Nat.le_trans apart lo)⟩
      · exact before st mem
  obtain ⟨U, V, old, new, front⟩ := gather_path sound.linked linked
    (motive := fun _ U => ∀ st ∈ U, Onward (Within source 0 s.lo) st) nofun reached sound.root_lt
    (Nat.lt_of_lt_of_le sound.root_lt grows) step alike grows
  refine ⟨U, V, new, front, fun st mem => ?_⟩
  obtain ⟨r, hr, -⟩ := (wf.each root .refl).spanned
  refine (wf.onward_gather .refl hr st ?_).imp fun n h => h.1
  rw [old]
  exact List.mem_append_right _ mem

theorem WellFormed.onward_reach (reached : doc.Reaches x) (hs : doc.span x = some s) :
    ∀ st ∈ [.reach s.hi], Onward (Cut source) st := by
  intro st mem
  rw [List.mem_singleton.mp mem]
  exact .reach (wf.sound.fits reached hs).hi

/-- If a node goes to an offset of the source and writes there, then what it writes stands there in
what is printed. -/
theorem WellFormed.print_block (reached : doc.Reaches block) (hs : doc.span block = some s)
    (linked : doc'.Linked) (grows : doc.nodes.size ≤ doc'.nodes.size)
    (alike : ∀ j, doc.Reaches j → ¬ doc.Below block j →
      AlikeAt doc doc' doc.strokesOf doc'.strokesOf j)
    (plain : Press.revisionsOf doc' = []) {X Y Z : List Stroke} {bound : Nat} {a b row : Text}
    (own : doc'.gather doc'.strokesOf block = X ++ Y ++ Z) (le : s.lo ≤ bound)
    (front : ∀ st ∈ X, Onward (Within source 0 bound) st)
    (final : ∀ st ∈ Z, Onward (Cut source) st) (split : source = a ++ b)
    (writes : ∀ x y, source = x ++ y → bytes x ≤ bound →
      Y.foldlM (Press.of doc' source).strike ⟨x, bytes x⟩ = .ok ⟨a ++ row, bytes a⟩) :
    doc'.print source = .ok (a ++ row ++ b) := by
  obtain ⟨U, V, all, before, behind⟩ := wf.strokes_around reached hs linked grows alike
  have ahead : ∀ st ∈ U ++ X, Onward (Within source 0 bound) st := by
    intro st mem
    rcases List.mem_append.mp mem with mem | mem
    · exact (before st mem).imp fun n h => ⟨h.1, h.2.1, Nat.le_trans h.2.2 le⟩
    · exact front st mem
  obtain ⟨x, y, split', low, first⟩ := @Press.strike_onward (Press.of doc' source) [] source [] _ plain
    rfl rfl bound (fun n h => ⟨h.1, h.2.2⟩) (Nat.zero_le _) (U ++ X) ahead
  rw [List.nil_append] at low first
  have onward : ∀ st ∈ Z ++ V, Onward (Within source 0 source.bytes) st := by
    intro st mem
    refine ((List.mem_append.mp mem).elim (final st) (behind st)).imp fun n h => ?_
    exact ⟨h, Nat.zero_le _, h.le_bytes⟩
  obtain ⟨m, b', rfl, -, rest⟩ := @Press.strike_onward (Press.of doc' source) a b (a ++ row) _ plain
    rfl split source.bytes (fun n h => ⟨h.1, h.2.2⟩) (Cut.le_bytes ⟨a, b, split, rfl⟩) _ onward
  obtain ⟨m', b'', rfl, full, last⟩ := @Press.flush_plain (Press.of doc' source) (a ++ m) b'
    (a ++ row ++ m) source.bytes plain rfl (by rw [List.append_assoc]; exact split) (Cut.full source)
  -- the last stroke reaches the end of the source
  have spent : b'' = [] := by
    apply bytes_eq_zero.mp
    have total := congrArg bytes split
    simp only [bytes_append] at total full
    omega
  have ran : (doc'.strokes source.bytes).foldlM (Press.of doc' source).strike {} =
      .ok ⟨a ++ row ++ m ++ m', bytes (a ++ m ++ m')⟩ := by
    have shape : doc'.strokes source.bytes =
        (U ++ X) ++ (Y ++ ((Z ++ V) ++ [.reach source.bytes])) := by
      unfold strokes
      rw [all, own]
      simp
    rw [shape, List.foldlM_append]
    show ((U ++ X).foldlM (Press.of doc' source).strike ⟨[], bytes []⟩ >>= _) = _
    rw [first]
    show (Y ++ _).foldlM (Press.of doc' source).strike ⟨x, bytes x⟩ = _
    rw [List.foldlM_append, writes x y split' low]
    show ((Z ++ V) ++ _).foldlM (Press.of doc' source).strike ⟨a ++ row, bytes a⟩ = _
    rw [List.foldlM_append, rest]
    show [Stroke.reach source.bytes].foldlM (Press.of doc' source).strike _ = _
    rw [Press.strike_reach, last]
  rw [print_eq_strike, ran, spent]
  simp [Except.map]

end Fresh

end Document
end Quell
