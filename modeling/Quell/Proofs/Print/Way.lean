import Quell.Proofs.Annotate.Snug
import Quell.Proofs.Print.Around
import Quell.Proofs.Print.Rest
import Quell.Proofs.Print.Stops
import Quell.Proofs.Print.Whole

/-!
Strokes on the way to a node.

The strokes in front of a node stop where the nodes around it start, and in and behind what stands in
front of it. So a property that offsets in front of others share holds of all these stops, once it
holds of the ends of what stands in front (`Bound.stops_at`).
-/
namespace Quell.Document

open Text Relation

variable {source : Text} {doc doc' : Document} {x q b : NodeId} {P : Nat → Prop}

theorem Sound.strike_ok (sound : doc.Sound source) (braced : doc.Braced source) :
    ∃ sheet, (doc.strokes source.bytes).foldlM (Press.of doc source).strike {} = .ok sheet ∧
      doc.print source = .ok sheet.text := by
  obtain ⟨page, ran, -⟩ := run_ok sound braced
  have printed : doc.print source = .ok page.text := by
    unfold print
    rw [ran]
    rfl
  have struck := doc.print_eq_strike source
  rw [printed] at struck
  cases run : (doc.strokes source.bytes).foldlM (Press.of doc source).strike {} with
  | error e =>
    rw [run] at struck
    cases struck
  | ok sheet =>
    rw [run] at struck
    exact ⟨sheet, rfl, printed.trans struck⟩

theorem Sound.fits_strokes (sound : doc.Sound source) (braced : doc.Braced source) :
    ∀ st ∈ doc.strokes source.bytes, st.Fits source := by
  intro st mem
  rcases List.mem_append.mp mem with mem | mem
  · exact fits_gather sound braced root .refl st mem
  · rw [List.mem_singleton.mp mem]
    exact Cut.full source

theorem strokesOf_spanned {u : Span} (span : doc.span x = some u)
    (kids : List (NodeId × List Stroke)) : doc.strokesOf x kids =
      .start u.lo (inserted (doc.node x).leading) :: (doc.strokesInside x kids ++ [.reach u.hi]) := by
  unfold strokesOf
  rw [span]
  rfl

theorem Sound.gather_start (sound : doc.Sound source) (reached : doc.Reaches x) {u : Span}
    (span : doc.span x = some u) : doc.gather doc.strokesOf x =
      .start u.lo (inserted (doc.node x).leading) :: (doc.strokesInside x
        ((doc.children x).map fun c => (c, doc.gather doc.strokesOf c)) ++ [.reach u.hi]) := by
  rw [gather_eq sound.linked (sound.reaches_lt reached), strokesOf_spanned span]

/-- A property that offsets in front of others share. The comments in and behind what stands below a
node end with it where what they belong to does. -/
structure Bound (source : Text) (doc : Document) (x : NodeId) (P : Nat → Prop) : Prop where
  lower : ∀ m n, Cut source m → m ≤ n → P n → P m
  remark : ∀ y slot r, doc.Below x y → y ≠ root → doc.RemarkIn y slot r → slot ≠ .leading →
    (∀ u, doc.span y = some u → P u.hi) → P r.hi

namespace Bound

variable (bound : doc.Bound source x P)

include bound

theorem stops_behind {c : NodeId} (below : doc.Below x c) (reached : doc.Reaches c)
    (proper : c ≠ root) (front : ∀ u, doc.span c = some u → P u.hi) {st : Stroke}
    (mem : st ∈ doc.strokesBehind c q) {n : Nat} (stop : n ∈ st.stops) : P n := by
  unfold strokesBehind at mem
  split at mem
  · cases mem
  · rw [List.mem_singleton.mp mem] at stop
    have ends : n ∈ endsOf (doc.node c).trailing := List.max?_mem (Option.mem_toList.mp stop)
    obtain ⟨k, hk, r, span, rfl⟩ := mem_endsOf ends
    exact bound.remark c .trailing r below proper ⟨reached, k, hk, span⟩ nofun front

variable (sound : doc.Sound source) (braced : doc.Braced source) (snug : doc.Snug source)

include sound braced snug

theorem stops_gather (reached : doc.Reaches x) (front : ∀ u, doc.span x = some u → P u.hi) :
    ∀ st ∈ doc.gather doc.strokesOf x, ∀ n ∈ st.stops, P n := by
  refine forall_gather sound.linked
    (Q := fun y => doc.Below x y ∧ ∀ u, doc.span y = some u → P u.hi)
    (fun y hy => sound.reaches_lt (reached.below hy.1)) ?_ ?_ ?_ ?_ (fun _ _ mem => nomatch mem) x
    ⟨.refl, front⟩
  · rintro y c ⟨below, front⟩ hold
    have within := reached.below below
    refine ⟨below.tail hold, fun v hv => ?_⟩
    obtain ⟨u, hu, -, hi⟩ := sound.parent_span within hold hv
    exact bound.lower _ _ (sound.fits (within.child hold) hv).hi hi (front u hu)
  · rintro y u ⟨below, front⟩ span
    have fits := sound.fits (reached.below below) span
    have high := front u span
    constructor
    · intro n stop
      rw [List.mem_singleton.mp stop]
      exact bound.lower _ _ fits.lo fits.le high
    · intro n stop
      rw [List.mem_singleton.mp stop]
      exact high
  · rintro y ⟨below, front⟩ block n stop
    have within := reached.below below
    have proper : y ≠ root := by
      rintro rfl
      rw [sound.root_kind] at block
      cases block
    rcases List.mem_append.mp stop with opened | ends
    · obtain ⟨u, hu, rfl⟩ := Option.map_eq_some_iff.mp (Option.mem_toList.mp opened)
      have solid : doc.text? y = none := by
        unfold text?
        rw [block]
        rfl
      have full : doc.kind y ≠ .emptyHole := by
        rw [block]
        exact nofun
      have wide := snug.wide y u ⟨within, proper, solid, full, hu⟩
      exact bound.lower _ _ (braced y within block u hu) wide (front u hu)
    · obtain ⟨k, hk, r, span, rfl⟩ := mem_endsOf ends
      exact bound.remark y .inner r below proper ⟨within, k, hk, span⟩ nofun front
  · rintro y c ⟨below, front⟩ hold st mem n stop
    have within := reached.below below
    refine bound.stops_behind (below.tail hold) (within.child hold) (sound.ne_root_of_holds hold)
      (fun v hv => ?_) mem stop
    obtain ⟨u, hu, -, hi⟩ := sound.parent_span within hold hv
    exact bound.lower _ _ (sound.fits (within.child hold) hv).hi hi (front u hu)

theorem stops_at (reached : doc.Reaches q) (hold : doc.Holds q x)
    (front : ∀ u, doc.span x = some u → P u.hi) :
    ∀ st ∈ doc.strokesAt q x, ∀ n ∈ st.stops, P n := by
  intro st mem n stop
  rcases List.mem_append.mp mem with mem | mem
  · exact bound.stops_gather sound braced snug (reached.child hold) front st mem n stop
  · exact bound.stops_behind .refl (reached.child hold) (sound.ne_root_of_holds hold) front mem stop

end Bound

section Step

variable (sound : doc.Sound source)

include sound

theorem Sound.entering_nil (reached : doc.Reaches q) (hold : doc.Holds q b)
    (spanned : doc.span b ≠ none) {k : NodeId} (held : doc.Holds q k) (later : List NodeId) :
    doc.strokesEntering q k later = [] := by
  unfold strokesEntering
  split
  next cond =>
    simp only [Bool.and_eq_true, decide_eq_true_eq, Option.isNone_iff_eq_none] at cond
    obtain ⟨⟨spanless, block⟩, -⟩ := cond
    rcases (sound.each q reached).ghosts k held spanless with markup | ⟨-, only, -⟩ | ⟨hole, -⟩
    · rw [block] at markup
      cases markup
    · unfold Holds at hold
      rw [only] at hold
      cases List.mem_singleton.mp hold
      exact absurd spanless spanned
    · rw [block] at hole
      cases hole
  next => rfl

theorem Sound.strokesOf_around {A C : List NodeId} (reached : doc.Reaches q)
    (split : doc.children q = A ++ b :: C) (spanned : doc.span b ≠ none) {u : Span}
    (span : doc.span q = some u) : ∃ R, ∀ v, doc.strokesOf q
        (A.map (fun c => (c, doc.gather doc.strokesOf c)) ++ (b, v) ::
          C.map fun c => (c, doc.gather doc.strokesOf c)) =
        .start u.lo (inserted (doc.node q).leading) :: A.flatMap (doc.strokesAt q) ++ v ++ R := by
  have hold : doc.Holds q b := by
    unfold Holds
    rw [split]
    simp
  refine ⟨doc.strokesBehind b q ++ C.flatMap (doc.strokesAt q) ++ [.reach u.hi], fun v => ?_⟩
  rw [strokesOf_spanned span, strokesInside_flat]
  · simp only [List.flatMap_append, List.flatMap_cons, List.flatMap_map, List.cons_append,
      List.append_assoc]
    rfl
  · intro k hk later
    refine sound.entering_nil reached hold spanned ?_ later
    unfold Holds
    rw [split]
    have names : k.1 ∈ (A.map (fun c => (c, doc.gather doc.strokesOf c)) ++ (b, v) ::
        C.map fun c => (c, doc.gather doc.strokesOf c)).map (·.1) := List.mem_map_of_mem hk
    simpa using names

end Step

/-- What a node prints behind its start copies the source on. -/
theorem Sound.opens (sound : doc.Sound source) (snug : doc.Snug source) (anchored : doc.Anchored)
    (x : NodeId) {u : Span} (token : doc.Token x u) (V : List Stroke) :
    Press.Opens u.lo (doc.strokesInside x
      ((doc.children x).map fun c => (c, doc.gather doc.strokesOf c)) ++ .reach u.hi :: V) := by
  induction x using sound.linked.induct generalizing u V with
  | node x ih =>
  have ok := sound.each x token.reached
  cases kids : doc.children x with
  | nil => exact .reach (snug.wide x u token)
  | cons c later =>
  have held : doc.Holds x c := by
    unfold Holds
    rw [kids]
    exact List.mem_cons_self
  have first : (doc.kind x).hasMarkupChildren = true →
      doc.kind c = .openingTag ∧ doc.span c ≠ none := by
    intro markup
    obtain ⟨o, body, tail, closing, layout, -⟩ := ok.arranged markup
    have head := layout.split
    rw [kids] at head
    cases head
    exact layout.opening
  rw [List.map_cons, strokesInside]
  cases span : doc.span c with
  | none =>
    rcases ok.ghosts c held span with markup | ⟨block, only, -⟩ | ⟨-, spanless, -⟩
    · exact absurd span (first markup).2
    · -- a placeholder is printed behind the brace
      cases only.symm.trans kids
      have entering : doc.strokesEntering x c [] =
          [.inside (some (u.lo + 1)) (endsOf (doc.node x).inner)] := by
        unfold strokesEntering
        rw [span, block, token.span]
        rfl
      have behind : u.lo < (endsOf (doc.node x).inner).foldl max (u.lo + 1) := by
        rw [List.foldl_max]
        exact Nat.lt_of_lt_of_le (Nat.lt_succ_self _) (Nat.le_max_left _ _)
      rw [List.map_nil, List.map_nil, entering]
      exact .inside behind
    · rw [token.span] at spanless
      cases spanless
  | some v =>
    have reached := token.reached.child held
    have entering : ∀ later, doc.strokesEntering x c later = [] := by
      intro later
      unfold strokesEntering
      rw [span]
      rfl
    rw [entering, List.nil_append, sound.gather_start reached span]
    rcases Nat.lt_or_eq_of_le (ok.nested u c v token.span held span).1 with lt | eq
    · exact .start lt
    · -- nothing was put in front of what starts where its parent does
      have line : u.startLine = v.startLine := by
        rw [(ok.fits u token.span).startLine, (sound.fits reached span).startLine, eq]
      have none : inserted (doc.node c).leading = [] := by
        by_contra some
        rcases anchored.below x c token.reached held some with top | apart
        · exact token.proper top
        · exact apart u v token.span span line
      have solid : doc.text? c = Option.none := by
        by_contra text
        obtain ⟨value, text⟩ := Option.ne_none_iff_exists'.mp text
        unfold text? at text
        rw [(first (ok.texts c value held text)).1] at text
        cases text
      have full : doc.kind c ≠ .emptyHole := by
        intro empty
        have low := (snug.slots x c u v token.reached held empty token.span span).2.2.1
        rw [eq] at low
        exact Nat.lt_irrefl _ low
      rw [none, eq]
      simp only [List.cons_append, List.append_assoc]
      exact .skip (Nat.le_refl _)
        (ih c held ⟨reached, sound.ne_root_of_holds held, solid, full, span⟩ _)

end Quell.Document
