import Quell.Proofs.Document.Moves

/-!
What stands for a node once texts have been cut again and again.

`Laid` says that fragments lie one behind the other in a text, each with the span that its bytes have
there. A fragment that is cut in its turn leaves smaller fragments, and these lie in the first text
(`Laid.refine`): the span of a fragment of a fragment is counted from the outer text. `Pieced` goes
from one edit to any number of them, asks nothing of the shape of the tree, and is all that a text
with the span of its source needs to stay in its place (`Pieced.faithful`).
-/
namespace Quell

open Text Relation

structure Span.Shows (source : Text) (s : Span) (t : Text) : Prop where
  slice : slice? s.lo s.hi source = some t
  startLine : s.startLine = (LineIndex.of source).lineOf s.lo
  endLine : s.endLine = (LineIndex.of source).lineOf s.hi

/-- A part of a text shows the source where the text does. -/
theorem Span.Shows.part {source pre part post : Text} {s : Span}
    (shows : s.Shows source (pre ++ part ++ post)) :
    (Document.fragmentSpan s pre part).Shows source part := by
  obtain ⟨lo, hi, le⟩ := slice?_cuts shows.slice
  obtain ⟨fits, slice, -⟩ :=
    Document.fragmentSpan_fits ⟨le, lo, hi, shows.startLine, shows.endLine⟩ shows.slice
  exact ⟨slice, fits.startLine, fits.endLine⟩

namespace Document

theorem fragmentSpan_fragmentSpan (s : Span) (before t inner part : Text) :
    fragmentSpan (fragmentSpan s before t) inner part = fragmentSpan s (before ++ inner) part := by
  simp only [fragmentSpan, bytes_append, breaks, List.count_append, Nat.add_assoc]

inductive Laid (doc : Document) (s : Option Span) : Text → Text → List NodeId → Prop where
  | nil {before : Text} : Laid doc s before [] []
  | cons {before t rest : Text} {f : NodeId} {fs : List NodeId} : doc.text? f = some t →
      doc.span f = s.map (fragmentSpan · before t) → Laid doc s (before ++ t) rest fs →
      Laid doc s before (t ++ rest) (f :: fs)

def Abut (doc : Document) : Nat → Nat → List NodeId → Prop
  | lo, hi, [] => lo = hi
  | lo, hi, f :: fs => ∃ s, doc.span f = some s ∧ s.lo = lo ∧ Abut doc s.hi hi fs

namespace Laid

variable {doc mid doc' : Document} {s : Option Span} {before t u : Text} {fs gs : List NodeId}

theorem append (first : doc.Laid s before t fs) (second : doc.Laid s (before ++ t) u gs) :
    doc.Laid s before (t ++ u) (fs ++ gs) := by
  induction first with
  | nil => simpa using second
  | cons text span _ ih =>
    rw [List.append_assoc]
    exact .cons text span (ih (by simpa using second))

theorem shift {front : Text} (laid : doc.Laid (s.map (fragmentSpan · before t)) front u fs) :
    doc.Laid s (before ++ front) u fs := by
  induction laid with
  | nil => exact .nil
  | cons text span _ ih =>
    refine .cons text (span.trans ?_) (by simpa using ih)
    rw [Option.map_map]
    exact congrArg (Option.map · s) (funext fun r => fragmentSpan_fragmentSpan ..)

/-- Fragments of which some give way to fragments of their own. -/
theorem refine {g : NodeId → List NodeId} (laid : mid.Laid s before t fs)
    (each : ∀ f ∈ fs, g f = [f] ∧ doc'.text? f = mid.text? f ∧ doc'.span f = mid.span f ∨
      ∃ v, mid.text? f = some v ∧ doc'.Laid (mid.span f) [] v (g f)) :
    doc'.Laid s before t (fs.flatMap g) := by
  induction laid with
  | nil => exact .nil
  | @cons before t rest f fs text span _ ih =>
    rw [List.flatMap_cons]
    refine append ?_ (ih fun x hx => each x (List.mem_cons_of_mem f hx))
    rcases each f List.mem_cons_self with ⟨whole, text', span'⟩ | ⟨v, value, cut⟩
    · have here := Laid.cons (text'.trans text) (span'.trans span) .nil
      rwa [whole, ← List.append_nil t]
    · cases text.symm.trans value
      rw [span] at cut
      simpa using cut.shift

theorem mem (laid : doc.Laid s before t fs) {f : NodeId} (hf : f ∈ fs) :
    ∃ a v b, t = a ++ v ++ b ∧ doc.text? f = some v ∧
      doc.span f = s.map (fragmentSpan · (before ++ a) v) := by
  induction laid with
  | nil => cases hf
  | @cons before t rest head fs text span _ ih =>
    rcases List.mem_cons.mp hf with rfl | hf
    · exact ⟨[], t, rest, rfl, text, by simpa using span⟩
    · obtain ⟨a, v, b, rfl, text', span'⟩ := ih hf
      exact ⟨t ++ a, v, b, by simp, text', by simpa using span'⟩

theorem abut {r : Span} (laid : doc.Laid (some r) before t fs) :
    doc.Abut (r.lo + bytes before) (r.lo + bytes before + bytes t) fs := by
  induction laid with
  | nil => exact rfl
  | @cons before t rest f fs text span _ ih =>
    refine ⟨fragmentSpan r before t, span, rfl, ?_⟩
    show doc.Abut (r.lo + bytes before + bytes t) _ fs
    simpa only [bytes_append, Nat.add_assoc] using ih

end Laid

theorem laid_range {doc : Document} {s : Option Span} {before : Text} {parts : List Text} {n : Nat}
    (node : ∀ (i : Nat) (t : Text), parts[i]? = some t → doc.text? (n + i) = some t ∧
      doc.span (n + i) = s.map (fragmentSpan · (before ++ (parts.take i).flatten) t)) :
    doc.Laid s before parts.flatten (List.range' n parts.length) := by
  induction parts generalizing n before with
  | nil => exact .nil
  | cons part parts ih =>
    obtain ⟨text, span⟩ := node 0 part rfl
    refine .cons text (by simpa using span) (ih fun i t h => ?_)
    obtain ⟨text', span'⟩ := node (i + 1) t (by simpa using h)
    rw [show n + 1 + i = n + (i + 1) by omega]
    exact ⟨text', by simpa using span'⟩

structure CutInto (doc doc' : Document) (id : NodeId) (fs : List NodeId) : Prop where
  fresh : ∀ f ∈ fs, doc.nodes.size ≤ f ∧ f < doc'.nodes.size
  laid : ∃ value, doc.text? id = some value ∧ doc'.Laid (doc.span id) [] value fs

/-- What stands for each node: the node itself, or the fragments of its text. In a child list the
order stays, and what comes in between is new and has no span. -/
structure Pieced (doc doc' : Document) (parts : NodeId → List NodeId) : Prop where
  grows : doc.nodes.size ≤ doc'.nodes.size
  content : ∀ id < doc.nodes.size, doc'.kind id = doc.kind id ∧ doc'.span id = doc.span id
  pieces : ∀ id < doc.nodes.size, parts id = [id] ∨ doc.CutInto doc' id (parts id)
  order : ∀ p < doc.nodes.size, ((doc.children p).flatMap parts).Sublist (doc'.children p)
  between : ∀ p < doc.nodes.size, ∀ c ∈ doc'.children p,
    c ∈ (doc.children p).flatMap parts ∨ doc.nodes.size ≤ c ∧ doc'.span c = none
  new : ∀ p, doc.nodes.size ≤ p → ∀ c ∈ doc'.children p,
    doc.nodes.size ≤ c ∧ doc'.span c = none

namespace Pieced

variable {doc mid doc' : Document} {f g : NodeId → List NodeId}

theorem text?_eq (pieced : doc.Pieced doc' f) {id : NodeId} (lt : id < doc.nodes.size) :
    doc'.text? id = doc.text? id := by
  unfold text?
  rw [(pieced.content id lt).1]

/-- The same tree over a table that may have grown. -/
theorem of_same (grows : doc.nodes.size ≤ doc'.nodes.size)
    (content : ∀ j < doc.nodes.size, doc'.kind j = doc.kind j ∧ doc'.span j = doc.span j)
    (children : ∀ j, doc'.children j = doc.children j) : doc.Pieced doc' fun id => [id] where
  grows := grows
  content := content
  pieces _ _ := .inl rfl
  order p _ := by rw [List.flatMap_singleton', children]
  between p _ c hc := .inl (by rwa [List.flatMap_singleton', ← children])
  new p ge c hc := by
    have hold : doc.Holds p c := by
      unfold Holds
      rwa [← children]
    exact absurd hold.parent_lt (Nat.not_lt_of_le ge)

/-- What stands for a new node without span is new and has no span. -/
theorem bare (pieced : mid.Pieced doc' g) {n : Nat} (le : n ≤ mid.nodes.size) {d c : NodeId}
    (lt : d < mid.nodes.size) (new : n ≤ d) (spanless : mid.span d = none) (hc : c ∈ g d) :
    n ≤ c ∧ doc'.span c = none := by
  rcases pieced.pieces d lt with whole | ⟨fresh, value, -, laid⟩
  · rw [whole] at hc
    rw [List.mem_singleton.mp hc, (pieced.content d lt).2]
    exact ⟨new, spanless⟩
  · obtain ⟨a, v, b, -, -, span⟩ := laid.mem hc
    rw [spanless] at span
    exact ⟨Nat.le_trans le (fresh c hc).1, span⟩

/-- One after the other: what stands for the nodes that stand for a node. -/
theorem trans (first : doc.Pieced mid f) (second : mid.Pieced doc' g) (linked : mid.Linked) :
    doc.Pieced doc' fun id => (f id).flatMap g where
  grows := Nat.le_trans first.grows second.grows
  content id lt := by
    obtain ⟨kind, span⟩ := first.content id lt
    obtain ⟨kind', span'⟩ := second.content id (Nat.lt_of_lt_of_le lt first.grows)
    exact ⟨kind'.trans kind, span'.trans span⟩
  pieces id lt := by
    have lt' := Nat.lt_of_lt_of_le lt first.grows
    rcases first.pieces id lt with whole | ⟨fresh, value, text, laid⟩
    · rw [whole, List.flatMap_singleton]
      rcases second.pieces id lt' with whole' | ⟨fresh, value, text, laid⟩
      · exact .inl whole'
      · refine .inr ⟨fun x hx => ⟨Nat.le_trans first.grows (fresh x hx).1, (fresh x hx).2⟩, value, ?_, ?_⟩
        · rw [← first.text?_eq lt, text]
        · rwa [← (first.content id lt).2]
    · refine .inr ⟨fun x hx => ?_, value, text, laid.refine fun x hx => ?_⟩
      · obtain ⟨d, hd, hx⟩ := List.mem_flatMap.mp hx
        obtain ⟨new, lt_mid⟩ := fresh d hd
        rcases second.pieces d lt_mid with whole | ⟨fresh', -⟩
        · rw [whole] at hx
          rw [List.mem_singleton.mp hx]
          exact ⟨new, Nat.lt_of_lt_of_le lt_mid second.grows⟩
        · exact ⟨Nat.le_trans first.grows (fresh' x hx).1, (fresh' x hx).2⟩
      · have lt_mid := (fresh x hx).2
        rcases second.pieces x lt_mid with whole | ⟨-, cut⟩
        · exact .inl ⟨whole, second.text?_eq lt_mid, (second.content x lt_mid).2⟩
        · exact .inr cut
  order p lt := by
    rw [← List.flatMap_assoc]
    exact ((first.order p lt).flatMap g).trans (second.order p (Nat.lt_of_lt_of_le lt first.grows))
  between p lt c hc := by
    rw [← List.flatMap_assoc]
    rcases second.between p (Nat.lt_of_lt_of_le lt first.grows) c hc with old | ⟨new, spanless⟩
    · obtain ⟨d, hd, hcd⟩ := List.mem_flatMap.mp old
      rcases first.between p lt d hd with mem | ⟨new, spanless⟩
      · exact .inl (List.mem_flatMap.mpr ⟨d, mem, hcd⟩)
      · exact .inr (second.bare first.grows (linked.child_lt hd) new spanless hcd)
    · exact .inr ⟨Nat.le_trans first.grows new, spanless⟩
  new p ge c hc := by
    rcases Nat.lt_or_ge p mid.nodes.size with lt | ge'
    · rcases second.between p lt c hc with old | ⟨new, spanless⟩
      · obtain ⟨d, hd, hcd⟩ := List.mem_flatMap.mp old
        obtain ⟨new, spanless⟩ := first.new p ge d hd
        exact second.bare first.grows (linked.child_lt hd) new spanless hcd
      · exact ⟨Nat.le_trans first.grows new, spanless⟩
    · obtain ⟨new, spanless⟩ := second.new p ge' c hc
      exact ⟨Nat.le_trans first.grows new, spanless⟩

/-- What is reached afterwards was reached before, is part of a text that was, or is new and has no
span. -/
theorem origin (pieced : doc.Pieced doc' f) (linked : doc.Linked) (root_lt : root < doc.nodes.size)
    {id : NodeId} (reached : doc'.Reaches id) :
    doc.Reaches id ∨ (∃ b, doc.Reaches b ∧ doc.CutInto doc' b (f b) ∧ id ∈ f b) ∨
      doc.nodes.size ≤ id ∧ doc'.span id = none := by
  induction reached with
  | refl => exact .inl ReflTransGen.refl
  | @tail p c _ hold ih =>
    rcases ih with old | ⟨b, -, ⟨fresh, -⟩, part⟩ | ⟨ge, -⟩
    · rcases pieced.between p (linked.reaches_lt root_lt old) c hold with mem | new
      · obtain ⟨d, hd, hcd⟩ := List.mem_flatMap.mp mem
        have reached := old.child hd
        rcases pieced.pieces d (linked.child_lt hd) with whole | cut
        · rw [whole] at hcd
          rw [List.mem_singleton.mp hcd]
          exact .inl reached
        · exact .inr (.inl ⟨d, reached, cut, hcd⟩)
      · exact .inr (.inr new)
    · exact .inr (.inr (pieced.new p (fresh p part).1 c hold))
    · exact .inr (.inr (pieced.new p ge c hold))

end Pieced

/-- Each text with a span that is reached shows the source there. -/
def Faithful (source : Text) (doc : Document) : Prop :=
  ∀ id, doc.Reaches id → ∀ t s, doc.text? id = some t → doc.span id = some s → s.Shows source t

variable {source : Text} {doc doc' : Document} {id : NodeId} {t : Text} {s : Span}

theorem CutInto.shows {fs : List NodeId} (cut : doc.CutInto doc' id fs)
    (text : doc.text? id = some t) (span : doc.span id = some s) (shows : s.Shows source t) {f : NodeId}
    (hf : f ∈ fs) : ∃ v r, doc'.text? f = some v ∧ doc'.span f = some r ∧ r.Shows source v := by
  obtain ⟨value, text', laid⟩ := cut.laid
  cases text.symm.trans text'
  obtain ⟨a, v, b, rfl, here, place⟩ := laid.mem hf
  rw [span] at place
  exact ⟨v, _, here, place, shows.part⟩

/-- What stands for a text takes up its span, and shows the source there. -/
theorem Pieced.stands {parts : NodeId → List NodeId} (pieced : doc.Pieced doc' parts)
    (text : doc.text? id = some t) (span : doc.span id = some s) (shows : s.Shows source t) :
    doc'.Abut s.lo s.hi (parts id) ∧ ∀ c ∈ parts id,
      ∃ v r, doc'.text? c = some v ∧ doc'.span c = some r ∧ r.Shows source v := by
  have lt := lt_of_text? text
  rcases pieced.pieces id lt with whole | cut
  · have span' := (pieced.content id lt).2.trans span
    rw [whole]
    refine ⟨⟨s, span', rfl, rfl⟩, fun c hc => ?_⟩
    rw [List.mem_singleton.mp hc]
    exact ⟨t, s, (pieced.text?_eq lt).trans text, span', shows⟩
  · refine ⟨?_, fun c hc => cut.shows text span shows hc⟩
    obtain ⟨value, text', laid⟩ := cut.laid
    cases text.symm.trans text'
    rw [span] at laid
    have abut := laid.abut
    rwa [bytes_nil, Nat.add_zero, slice?_bytes shows.slice] at abut

theorem Pieced.faithful {parts : NodeId → List NodeId} (pieced : doc.Pieced doc' parts)
    (linked : doc.Linked) (root_lt : root < doc.nodes.size) (faithful : doc.Faithful source) :
    doc'.Faithful source := by
  intro id reached t s text span
  rcases pieced.origin linked root_lt reached with old | ⟨b, old, cut, part⟩ | ⟨-, none⟩
  · have lt := linked.reaches_lt root_lt old
    rw [pieced.text?_eq lt] at text
    rw [(pieced.content id lt).2] at span
    exact faithful id old t s text span
  · obtain ⟨value, text', laid⟩ := cut.laid
    obtain ⟨_, _, _, _, _, place⟩ := laid.mem part
    obtain ⟨r, span', -⟩ := Option.map_eq_some_iff.mp (place.symm.trans span)
    obtain ⟨w, u, here, there, shows⟩ :=
      cut.shows text' span' (faithful b old value r text' span') part
    cases text.symm.trans here
    cases span.symm.trans there
    exact shows
  · rw [span] at none
    cases none

end Document
end Quell
