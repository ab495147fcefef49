import Quell.Proofs.Annotate.Clear
import Quell.Proofs.Print.Sheet

/-!
Printing around a splice.

The strokes of a document with another child list are those of the old one, but for the nodes that
leave and come in. A text that is cut in parts prints as before, as long as no comment lies in it.
-/
namespace Quell

open Text Relation

namespace Document

variable {source : Text} {doc doc' : Document} {p : NodeId} {A B N C : List NodeId}

theorem strokesInside_congr {id : NodeId} (kind : doc'.kind id = doc.kind id)
    (span : doc'.span id = doc.span id) (inner : (doc'.node id).inner = (doc.node id).inner)
    (kids : List (NodeId × List Stroke)) (child : ∀ k ∈ kids, doc'.span k.1 = doc.span k.1 ∧
      (doc'.node k.1).trailing = (doc.node k.1).trailing) :
    doc'.strokesInside id kids = doc.strokesInside id kids := by
  induction kids with
  | nil => rfl
  | cons k kids ih =>
    obtain ⟨c, own⟩ := k
    have here := child (c, own) List.mem_cons_self
    have rest := ih fun k hk => child k (List.mem_cons_of_mem _ hk)
    have later : (kids.map (·.1)).any (fun c => (doc'.span c).isSome) =
        (kids.map (·.1)).any (fun c => (doc.span c).isSome) := by
      rw [List.any_map, List.any_map, Bool.eq_iff_iff, List.any_eq_true, List.any_eq_true]
      constructor
      · rintro ⟨k, hk, spanned⟩
        refine ⟨k, hk, ?_⟩
        have same := (child k (List.mem_cons_of_mem _ hk)).1
        dsimp only [Function.comp_apply] at spanned ⊢
        rw [← same]
        exact spanned
      · rintro ⟨k, hk, spanned⟩
        refine ⟨k, hk, ?_⟩
        have same := (child k (List.mem_cons_of_mem _ hk)).1
        dsimp only [Function.comp_apply] at spanned ⊢
        rw [same]
        exact spanned
    have entering : doc'.strokesEntering id c (kids.map (·.1)) =
        doc.strokesEntering id c (kids.map (·.1)) := by
      unfold strokesEntering
      rw [here.1, kind, later, span, inner]
    have behind : doc'.strokesBehind c id = doc.strokesBehind c id := by
      unfold strokesBehind marginOf
      rw [here.2, here.1, span]
    rw [strokesInside, strokesInside, entering, behind, rest]

theorem strokesOf_congr {id : NodeId} (kind : doc'.kind id = doc.kind id)
    (span : doc'.span id = doc.span id)
    (comments : ∀ slot, (doc'.node id).comments slot = (doc.node id).comments slot)
    (kids : List (NodeId × List Stroke)) (child : ∀ k ∈ kids, doc'.span k.1 = doc.span k.1 ∧
      (doc'.node k.1).trailing = (doc.node k.1).trailing) :
    doc'.strokesOf id kids = doc.strokesOf id kids := by
  have leading : (doc'.node id).leading = (doc.node id).leading := comments .leading
  have inner : (doc'.node id).inner = (doc.node id).inner := comments .inner
  unfold strokesOf
  rw [span, kind, leading, strokesInside_congr kind span inner kids child, inner]

theorem linear_strokesInside (doc : Document) (id : NodeId) (kids : List (NodeId × List Stroke))
    (c : NodeId) (later : List (NodeId × List Stroke)) :
    ∃ L R, ∀ v, doc.strokesInside id (kids ++ (c, v) :: later) = L ++ v ++ R := by
  induction kids with
  | nil =>
    refine ⟨doc.strokesEntering id c (later.map (·.1)),
      doc.strokesBehind c id ++ doc.strokesInside id later, fun v => ?_⟩
    rw [List.nil_append, strokesInside]
    simp only [List.append_assoc]
  | cons k kids ih =>
    obtain ⟨x, own⟩ := k
    obtain ⟨L, R, line⟩ := ih
    refine ⟨doc.strokesEntering id x (kids.map (·.1) ++ c :: later.map (·.1)) ++ own ++
      doc.strokesBehind x id ++ L, R, fun v => ?_⟩
    rw [List.cons_append, strokesInside, line]
    simp only [List.map_append, List.map_cons, List.append_assoc]

theorem linear_strokesOf {id : NodeId} (spanned : doc.span id ≠ none) :
    Linear doc.strokesOf id := by
  intro kids c later
  obtain ⟨s, hs⟩ := Option.ne_none_iff_exists'.mp spanned
  obtain ⟨L, R, line⟩ := linear_strokesInside doc id kids c later
  refine ⟨.start s.lo (inserted (doc.node id).leading) :: L, R ++ [.reach s.hi], fun v => ?_⟩
  unfold strokesOf
  rw [hs]
  dsimp only
  rw [line]
  simp only [List.cons_append, List.append_assoc]

theorem strokesInside_flat {id : NodeId} {kids : List (NodeId × List Stroke)}
    (none : ∀ k ∈ kids, ∀ later, doc.strokesEntering id k.1 later = []) :
    doc.strokesInside id kids = kids.flatMap fun k => k.2 ++ doc.strokesBehind k.1 id := by
  induction kids with
  | nil => rfl
  | cons k kids ih =>
    obtain ⟨c, own⟩ := k
    have entering := none (c, own) List.mem_cons_self (kids.map (·.1))
    rw [strokesInside, entering, ih fun k hk => none k (List.mem_cons_of_mem _ hk),
      List.flatMap_cons]
    simp only [List.nil_append, List.append_assoc]

theorem strokesInside_eq {id : NodeId} (kind : doc.kind id ≠ .block)
    (kids : List (NodeId × List Stroke)) :
    doc.strokesInside id kids = kids.flatMap fun k => k.2 ++ doc.strokesBehind k.1 id := by
  refine strokesInside_flat fun k _ later => ?_
  unfold strokesEntering
  simp [kind]

theorem flat_strokesOf {s : Span} (span : doc.span p = some s) (kind : doc.kind p ≠ .block) :
    Flat doc.strokesOf p [.start s.lo (inserted (doc.node p).leading)]
      (fun c => doc.strokesBehind c p) [.reach s.hi] := by
  intro kids
  unfold strokesOf
  rw [span]
  dsimp only
  rw [strokesInside_eq kind]
  simp only [List.cons_append, List.nil_append]

def strokesAt (doc : Document) (p c : NodeId) : List Stroke :=
  doc.gather doc.strokesOf c ++ doc.strokesBehind c p

theorem ne_block_of_markup (markup : (doc.kind p).hasMarkupChildren = true) :
    doc.kind p ≠ .block := by
  intro e
  rw [e] at markup
  cases markup

theorem Sound.span_of_below (sound : doc.Sound source) {q : NodeId} (reached : doc.Reaches q)
    (below : doc.Below q p) (spanned : doc.span p ≠ none) : doc.span q ≠ none := by
  obtain ⟨s, hs⟩ := Option.ne_none_iff_exists'.mp spanned
  obtain ⟨t, ht, -⟩ := sound.below_span reached below hs
  rw [ht]
  exact Option.some_ne_none t

theorem Splice.strokes_alike (splice : doc.Splice doc' p A B N C) (sound : doc.Sound source)
    {j : NodeId} (reached : doc.Reaches j) (other : j ≠ p) :
    AlikeAt doc doc' doc.strokesOf doc'.strokesOf j := by
  have lt := sound.reaches_lt reached
  have same := splice.content lt
  refine ⟨splice.children_rest lt other, fun kids names => ?_⟩
  refine strokesOf_congr same.1 same.2.1 same.2.2 kids fun k hk => ?_
  have held : doc.Holds j k.1 := by
    unfold Holds
    rw [← names]
    exact List.mem_map_of_mem hk
  have kid := splice.content (sound.linked.child_lt held)
  exact ⟨kid.2.1, kid.2.2 .trailing⟩

theorem Splice.strokes_here (splice : doc.Splice doc' p A B N C) (sound : doc.Sound source)
    (reached : doc.Reaches p) (markup : (doc.kind p).hasMarkupChildren = true) {s : Span}
    (span : doc.span p = some s) :
    doc.gather doc.strokesOf p = [.start s.lo (inserted (doc.node p).leading)] ++
        (A ++ B ++ C).flatMap (doc.strokesAt p) ++ [.reach s.hi] ∧
      doc'.gather doc'.strokesOf p = [.start s.lo (inserted (doc.node p).leading)] ++
        (A.flatMap (doc.strokesAt p) ++ N.flatMap (doc'.strokesAt p) ++
          C.flatMap (doc.strokesAt p)) ++ [.reach s.hi] := by
  have valid := sound.reaches_lt reached
  have here := splice.content valid
  have leading : (doc'.node p).leading = (doc.node p).leading := here.2.2 .leading
  have flat' : Flat doc'.strokesOf p [.start s.lo (inserted (doc.node p).leading)]
      (fun c => doc'.strokesBehind c p) [.reach s.hi] := by
    rw [← leading]
    apply flat_strokesOf
    · rw [here.2.1, span]
    · rw [here.1]
      exact ne_block_of_markup markup
  refine splice.gather_here sound.linked valid
    (fun j below other _ => splice.strokes_alike sound (reached.below below) other)
    (flat_strokesOf span (ne_block_of_markup markup)) flat' fun c hc => ?_
  have held : doc.Holds p c := by
    unfold Holds
    rw [splice.split]
    rcases List.mem_append.mp hc with h | h <;> simp [h]
  have kid := splice.content (sound.linked.child_lt held)
  have trailing : (doc'.node c).trailing = (doc.node c).trailing := kid.2.2 .trailing
  show doc'.strokesBehind c p = doc.strokesBehind c p
  unfold strokesBehind marginOf
  rw [trailing, kid.2.1, here.2.1]

theorem Splice.strokes_around (splice : doc.Splice doc' p A B N C) (sound : doc.Sound source)
    (reached : doc.Reaches p) (markup : (doc.kind p).hasMarkupChildren = true) (size : Nat) :
    ∃ U V, doc.strokes size = U ++ (A ++ B ++ C).flatMap (doc.strokesAt p) ++ V ∧
      doc'.strokes size = U ++ (A.flatMap (doc.strokesAt p) ++ N.flatMap (doc'.strokesAt p) ++
        C.flatMap (doc.strokesAt p)) ++ V := by
  have spanned := sound.span_of_markup reached markup
  obtain ⟨s, hs⟩ := Option.ne_none_iff_exists'.mp spanned
  obtain ⟨U, V, old, new⟩ := gather_context sound.linked (splice.linked' sound.linked) reached
    sound.root_lt (Nat.lt_of_lt_of_le sound.root_lt splice.grows)
    (fun q hq below _ => linear_strokesOf (sound.span_of_below hq below spanned))
    (fun j hj outside => splice.strokes_alike sound hj fun e => outside (e ▸ .refl)) splice.grows
  obtain ⟨here, here'⟩ := splice.strokes_here sound reached markup hs
  refine ⟨U ++ [.start s.lo (inserted (doc.node p).leading)], .reach s.hi :: (V ++ [.reach size]),
    ?_, ?_⟩
  · unfold strokes
    rw [old, here]
    simp only [List.append_assoc, List.cons_append, List.nil_append]
  · unfold strokes
    rw [new, here']
    simp only [List.append_assoc, List.cons_append, List.nil_append]

theorem foldl_skip {α β : Type} {f : β → α → β} {p : α → Bool}
    (skip : ∀ b a, p a = false → f b a = b) (as : List α) (b : β) :
    as.foldl f b = (as.filter p).foldl f b := by
  induction as generalizing b with
  | nil => rfl
  | cons a as ih =>
    cases here : p a with
    | true => rw [List.filter_cons_of_pos here, List.foldl_cons, List.foldl_cons, ih]
    | false =>
      rw [List.filter_cons_of_neg (by rw [here]; exact Bool.false_ne_true), List.foldl_cons,
        skip b a here, ih]

theorem revisionsOf_congr
    (h : (doc'.preorder.flatMap fun id => (doc'.node id).allComments).filter (·.span.isSome) =
      (doc.preorder.flatMap fun id => (doc.node id).allComments).filter (·.span.isSome)) :
    Press.revisionsOf doc' = Press.revisionsOf doc := by
  unfold Press.revisionsOf
  rw [foldl_skip (p := fun c : Comment => c.span.isSome) ?_ (doc'.preorder.flatMap _), h]
  · refine (foldl_skip ?_ _ _).symm
    intro rs c spanless
    rw [Option.isSome_eq_false_iff, Option.isNone_iff_eq_none] at spanless
    rw [spanless]
  · intro rs c spanless
    rw [Option.isSome_eq_false_iff, Option.isNone_iff_eq_none] at spanless
    rw [spanless]

theorem flatMap_silent {ids : List NodeId} {doc : Document}
    (silent : ∀ j ∈ ids, ∀ c ∈ (doc.node j).allComments, c.span = none) :
    (ids.flatMap fun id => (doc.node id).allComments).filter (·.span.isSome) = [] := by
  refine List.filter_eq_nil_iff.mpr fun c hc => ?_
  obtain ⟨j, hj, mem⟩ := List.mem_flatMap.mp hc
  simp [silent j hj c mem]

theorem Splice.revisionsOf_eq (splice : doc.Splice doc' p A B N C) (sound : doc.Sound source)
    (reached : doc.Reaches p) (gone : ∀ b ∈ B, ∀ c ∈ (doc.node b).allComments, c.span = none)
    (new : ∀ j, doc.nodes.size ≤ j → ∀ c ∈ (doc'.node j).allComments, c.span = none) :
    Press.revisionsOf doc' = Press.revisionsOf doc := by
  obtain ⟨U, V, old, now⟩ := splice.preorder_around sound.linked sound.root_lt reached
  apply revisionsOf_congr
  have kept : ∀ ids : List NodeId, (∀ x ∈ ids, x ∈ doc.preorder) →
      ids.flatMap (fun id => (doc'.node id).allComments) =
        ids.flatMap fun id => (doc.node id).allComments := by
    intro ids inside
    rw [List.flatMap_def, List.flatMap_def]
    congr 1
    refine List.map_congr_left fun x hx => ?_
    have lt := sound.reaches_lt ((mem_preorder sound.linked sound.root_lt).mp (inside x hx))
    have same := (splice.content lt).2.2
    have leading : (doc'.node x).leading = (doc.node x).leading := same .leading
    have trailing : (doc'.node x).trailing = (doc.node x).trailing := same .trailing
    have inner : (doc'.node x).inner = (doc.node x).inner := same .inner
    unfold Node.allComments
    rw [leading, trailing, inner]
  have left := flatMap_silent gone
  have came : ((N.flatMap (doc'.gather inOrder)).flatMap fun id =>
      (doc'.node id).allComments).filter (·.span.isSome) = [] := by
    refine flatMap_silent fun j hj => new j ?_
    obtain ⟨n, hn, below⟩ := List.mem_flatMap.mp hj
    have linked' := splice.linked' sound.linked
    have hold : doc'.Holds p n := by
      unfold Holds
      rw [splice.children_here]
      simp [hn]
    exact splice.below_new ((mem_inOrder linked' (linked'.child_lt hold)).mp below)
      (splice.fresh n hn).1
  have front : ∀ x ∈ U ++ A.flatMap (doc.gather inOrder), x ∈ doc.preorder := by
    intro x hx
    rw [old, List.append_assoc, List.append_assoc, List.append_assoc, ← List.append_assoc]
    exact List.mem_append_left _ hx
  have behind : ∀ x ∈ C.flatMap (doc.gather inOrder) ++ V, x ∈ doc.preorder := by
    intro x hx
    rw [old, List.append_assoc, List.append_assoc]
    exact List.mem_append_right _ (List.mem_append_right _ hx)
  have order : doc.preorder = (U ++ A.flatMap (doc.gather inOrder)) ++
      (B ++ (C.flatMap (doc.gather inOrder) ++ V)) := by
    rw [old]
    simp only [List.append_assoc]
  have order' : doc'.preorder = (U ++ A.flatMap (doc.gather inOrder)) ++
      (N.flatMap (doc'.gather inOrder) ++ (C.flatMap (doc.gather inOrder) ++ V)) := by
    rw [now]
    simp only [List.append_assoc]
  rw [order, order']
  generalize U ++ A.flatMap (doc.gather inOrder) = before at front
  generalize C.flatMap (doc.gather inOrder) ++ V = after at behind
  rw [List.flatMap_append, List.flatMap_append, List.flatMap_append, List.flatMap_append,
    kept before front, kept after behind]
  simp only [List.filter_append, left, came]

def partStrokes : Nat → List Text → List Stroke
  | _, [] => []
  | lo, t :: ts => .start lo [] :: .reach (lo + t.bytes) :: partStrokes (lo + t.bytes) ts

theorem strokesAt_leaf {id : NodeId} {s : Span} (linked : doc.Linked) (valid : id < doc.nodes.size)
    (span : doc.span id = some s) (leaf : doc.children id = [])
    (silent : ∀ slot, (doc.node id).comments slot = []) :
    doc.strokesAt p id = [.start s.lo [], .reach s.hi] := by
  have leading : (doc.node id).leading = [] := silent .leading
  have trailing : (doc.node id).trailing = [] := silent .trailing
  unfold strokesAt strokesBehind
  rw [gather_eq linked valid, leaf, trailing]
  unfold strokesOf
  rw [span, leading]
  rfl

theorem Recut.silent_new {id : NodeId} {parts : List Text}
    (recut : doc.Recut doc' p A id C parts) {j : NodeId} (new : doc.nodes.size ≤ j) (slot : Slot) :
    (doc'.node j).comments slot = [] := by
  obtain ⟨i, rfl⟩ := Nat.exists_eq_add_of_le new
  cases part : parts[i]? with
  | some t =>
    rw [recut.part i t part]
    cases slot <;> rfl
  | none =>
    have out : doc'.nodes.size ≤ doc.nodes.size + i := by
      rw [recut.size]
      exact Nat.add_le_add_left (List.getElem?_eq_none_iff.mp part) _
    rw [node_of_size_le doc' out]
    cases slot <;> rfl

theorem Recut.strokes_parts {id : NodeId} {parts : List Text} {s : Span}
    (recut : doc.Recut doc' p A id C parts) (linked : doc.Linked) (span : doc.span id = some s)
    (pre rest : List Text) (split : parts = pre ++ rest) :
    (List.range' (doc.nodes.size + pre.length) rest.length).flatMap (doc'.strokesAt p) =
      partStrokes (s.lo + bytes pre.flatten) rest := by
  induction rest generalizing pre with
  | nil => rfl
  | cons t rest ih =>
    have here : parts[pre.length]? = some t := by rw [split]; simp
    have node := recut.part pre.length t here
    have front : parts.take pre.length = pre := by rw [split]; simp
    rw [front, span] at node
    have valid : doc.nodes.size + pre.length < doc'.nodes.size := by
      rw [recut.size, split, List.length_append, List.length_cons]
      omega
    have own : doc'.strokesAt p (doc.nodes.size + pre.length) =
        [.start (s.lo + bytes pre.flatten) [], .reach (s.lo + bytes pre.flatten + t.bytes)] := by
      have held := strokesAt_leaf (p := p) (recut.splice.linked' linked) valid (span_of_node node)
        (by unfold children; rw [node]) (by intro slot; rw [node]; cases slot <;> rfl)
      exact held
    have later := ih (pre ++ [t]) (by rw [split]; simp)
    rw [List.length_append, List.length_singleton, ← Nat.add_assoc, List.flatten_append,
      Text.bytes_append, List.flatten_singleton, ← Nat.add_assoc] at later
    rw [List.length_cons, List.range'_succ, List.flatMap_cons, own, later]
    rfl

end Document

namespace Press

variable {press : Press} {sheet : Sheet}

theorem strike_start (press : Press) (sheet : Sheet) (lo : Nat) :
    press.strike sheet (.start lo []) = press.flushSheet sheet lo := by
  rw [strike]
  cases press.flushSheet sheet lo with
  | error e => rfl
  | ok s => rfl

theorem strike_reach (press : Press) (sheet : Sheet) (target : Nat) :
    ([.reach target] : List Stroke).foldlM press.strike sheet = press.flushSheet sheet target := by
  rw [List.foldlM_cons]
  show (press.flushSheet sheet target >>= _) = _
  cases press.flushSheet sheet target with
  | error e => rfl
  | ok s => rfl

theorem strike_parts (fair : press.Fair) {lo : Nat} {t : Text} {ts : List Text} {hi : Nat}
    (inside : slice? lo hi press.source = some (t :: ts).flatten)
    (whole : ∀ r ∈ press.revisions, r.hi ≤ lo ∨ hi ≤ r.lo) (cut : Cut press.source sheet.pos) :
    (Document.partStrokes lo (t :: ts)).foldlM press.strike sheet =
      ([.start lo [], .reach hi] : List Stroke).foldlM press.strike sheet := by
  induction ts generalizing lo t sheet with
  | nil =>
    have stop : lo + t.bytes = hi := by
      have := slice?_bytes inside
      rwa [List.flatten_singleton] at this
    rw [Document.partStrokes, stop]
    rfl
  | cons u ts ih =>
    have ends := slice?_cuts inside
    obtain ⟨a, b, src, ha, hb⟩ := slice?_eq_some.mp inside
    have bytes : lo + t.bytes + bytes (u :: ts).flatten = hi := by
      have joined : (t :: u :: ts).flatten = t ++ (u :: ts).flatten := List.flatten_cons
      rw [← hb, joined, Text.bytes_append, Nat.add_assoc]
    have later : slice? (lo + t.bytes) hi press.source = some (u :: ts).flatten := by
      refine slice?_eq_some.mpr ⟨a ++ t, b, ?_, ?_, bytes⟩
      · rw [src, List.flatten_cons]
        simp only [List.append_assoc]
      · rw [Text.bytes_append, ha]
    have mid_cut := (slice?_cuts later).1
    have mid_le := (slice?_cuts later).2.2
    have first : ∀ W : List Stroke, (Stroke.start lo [] :: W).foldlM press.strike sheet =
        (press.flushSheet sheet lo >>= fun s => W.foldlM press.strike s) := by
      intro W
      rw [List.foldlM_cons, strike_start]
    have both : ∀ s : Sheet, Cut press.source s.pos →
        (Stroke.reach (lo + t.bytes) :: Document.partStrokes (lo + t.bytes) (u :: ts)).foldlM
          press.strike s = press.flushSheet s hi := by
      intro s cut'
      obtain ⟨x, hx⟩ := flushSheet_ok fair cut' mid_cut
      have stop : Cut press.source (max s.pos (lo + t.bytes)) := flushSheet_cut cut' hx
      have step := flush_flush fair cut' mid_cut ends.2.1 mid_le fun r hr => by
        have := whole r hr
        omega
      have rest := @ih ⟨s.text ++ x, max s.pos (lo + t.bytes)⟩ _ _ later (fun r hr => by
        have := whole r hr
        omega) stop
      rw [List.foldlM_cons, ← step]
      show (press.flushSheet s (lo + t.bytes) >>= _) = _
      rw [hx]
      show List.foldlM press.strike _ _ = press.flushSheet _ hi
      rw [rest, List.foldlM_cons, strike_start, flushSheet_stay (Nat.le_max_right _ _)]
      exact strike_reach press _ hi
    rw [Document.partStrokes, first, first]
    cases start : press.flushSheet sheet lo with
    | error e => rfl
    | ok s =>
      show List.foldlM press.strike s _ = _
      rw [both s (flushSheet_cut cut start)]
      exact (strike_reach press s hi).symm

end Press

namespace Document

variable {source : Text} {doc doc' : Document} {p : NodeId} {A C : List NodeId}

/-- A revised comment of a sound document does not touch a text. -/
theorem Clear.apart (clear : doc.Clear) (sound : doc.Sound source) {id : NodeId} {t : Text}
    {s : Span} (reached : doc.Reaches id) (value : doc.text? id = some t)
    (span : doc.span id = some s) :
    ∀ r ∈ (Press.of doc source).revisions, r.hi ≤ s.lo ∨ s.hi ≤ r.lo := by
  intro r hr
  obtain ⟨-, -, -, j, hj, c, hc, -, -, u, hu, lo, hi⟩ := (Press.fair_of_sound sound).each r hr
  obtain ⟨slot, mem⟩ := mem_allComments.mp hc
  rw [← lo, ← hi]
  exact clear u id t s ⟨j, slot, c, hj, mem, hu⟩ reached value span

/-- A text that is cut in parts prints as before. -/
theorem Recut.print_eq {id : NodeId} {t : Text} {ts : List Text} {s : Span}
    (recut : doc.Recut doc' p A id C (t :: ts)) (sound : doc.Sound source) (clear : doc.Clear)
    (reached : doc.Reaches p) (markup : (doc.kind p).hasMarkupChildren = true)
    (span : doc.span id = some s) : doc'.print source = doc.print source := by
  have hold : doc.Holds p id := recut.splice.holds_of_mem (List.mem_singleton_self id)
  have ok := (sound.each id (reached.child hold)).text _ recut.value
  have fair := Press.fair_of_sound sound
  have inside := ok.2.2 s span
  have apart := clear.apart sound (reached.child hold) recut.value span
  have revisions : Press.revisionsOf doc' = Press.revisionsOf doc := by
    refine recut.splice.revisionsOf_eq sound reached ?_ ?_
    · intro b hb c hc
      obtain ⟨slot, mem⟩ := mem_allComments.mp hc
      rw [List.mem_singleton.mp hb, ok.2.1 slot] at mem
      cases mem
    · intro j new c hc
      obtain ⟨slot, mem⟩ := mem_allComments.mp hc
      rw [recut.silent_new new slot] at mem
      cases mem
  obtain ⟨U, V, old, now⟩ :=
    recut.splice.strokes_around sound reached markup source.bytes
  have own : doc.strokesAt p id = [.start s.lo [], .reach s.hi] :=
    strokesAt_leaf sound.linked (sound.linked.child_lt hold) span ok.1 ok.2.1
  have parts := recut.strokes_parts sound.linked span [] (t :: ts) rfl
  have same : (Press.of doc' source).strike = (Press.of doc source).strike :=
    Press.strike_congr recut.splice.eol revisions
  rw [List.length_nil, Nat.add_zero, List.flatten_nil, Text.bytes_nil, Nat.add_zero] at parts
  rw [print_eq_strike, print_eq_strike, old, now, same, parts, List.flatMap_append,
    List.flatMap_append, List.flatMap_singleton, own]
  have middle := @Press.strike_middle (Press.of doc source) {} (U ++ A.flatMap (doc.strokesAt p))
    [.start s.lo [], .reach s.hi] (partStrokes s.lo (t :: ts)) (C.flatMap (doc.strokesAt p) ++ V)
    (fun sheet cut => Press.strike_parts fair inside apart cut) (Cut.zero source)
  simp only [List.append_assoc] at middle ⊢
  rw [middle]

end Document
end Quell
