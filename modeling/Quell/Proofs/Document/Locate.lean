import Quell.Proofs.Document.Sound

/-!
Which node a line belongs to.

In document order what stands behind a node is below it or to its right. So the nodes that start on
a line form one subtree from the first of them on, as far as they end on it, and every ascent from
them ends at the first: `Legible.locate_eq`. Nothing but spans and links counts for this, so it holds
of every `Legible` document, and a sound document is one.
-/
namespace Quell.Document

open Text Relation

def aim (doc : Document) (id : NodeId) : Target :=
  match doc.parent id with
  | none => .node id none
  | some p =>
    match doc.branches p with
    | some (consequent, some alternate) =>
      if alternate = id && doc.kind consequent = .block then .blockTail consequent
      else .node id (some p)
    | _ => .node id (some p)

def Starts (doc : Document) (line : Nat) (id : NodeId) : Prop :=
  id ≠ root ∧ doc.isBlankText id = false ∧ ∃ s, doc.span id = some s ∧ s.startLine = line

def starts? (doc : Document) (line : Nat) (id : NodeId) : Bool :=
  id != root && !doc.isBlankText id && (doc.span id).any (·.startLine == line)

theorem startingOn_eq (doc : Document) (line : Nat) :
    doc.startingOn line = doc.preorder.filter (doc.starts? line) := rfl

theorem starts?_congr {doc doc' : Document} {id : NodeId} (kind : doc'.kind id = doc.kind id)
    (span : doc'.span id = doc.span id) (line : Nat) :
    doc'.starts? line id = doc.starts? line id := by
  unfold starts? isBlankText text?
  rw [kind, span]

theorem starts?_iff {doc : Document} {line : Nat} {id : NodeId} :
    doc.starts? line id = true ↔ doc.Starts line id := by
  unfold starts? Starts
  simp [Option.any_eq_true, and_assoc]

def Marks (doc : Document) (n line : Nat) : Prop :=
  ∃ id s, doc.Reaches id ∧ doc.span id = some s ∧
    (s.lo = n ∧ s.startLine = line ∨ s.hi = n ∧ s.endLine = line)

/-- A tree whose spans lie in one another and one behind the other, with lines that grow with the
offsets. -/
structure Lined (doc : Document) : Prop where
  linked : doc.Linked
  root_lt : root < doc.nodes.size
  nested : ∀ id, doc.Reaches id → doc.NestedAt id
  lines : ∀ m n k l, doc.Marks m k → doc.Marks n l → m ≤ n → k ≤ l

/-- Besides, spans run forwards and nothing stands below blank text. -/
structure Legible (doc : Document) : Prop extends Lined doc where
  forward : ∀ id s, doc.Reaches id → doc.span id = some s → s.lo ≤ s.hi
  leaf : ∀ id, doc.Reaches id → doc.isBlankText id = true → doc.children id = []

theorem Linked.ne_root_of_holds {doc : Document} (linked : doc.Linked) {p c : NodeId}
    (reached : doc.Reaches p) (hold : doc.Holds p c) : c ≠ root := by
  rintro rfl
  exact linked.acyclic root (TransGen.tail' reached hold)

namespace Lined

variable {doc : Document} (lined : doc.Lined)

include lined

theorem startLine_le {a b : NodeId} {s t : Span} (ha : doc.Reaches a) (hb : doc.Reaches b)
    (hs : doc.span a = some s) (ht : doc.span b = some t) (le : s.lo ≤ t.lo) :
    s.startLine ≤ t.startLine :=
  lined.lines s.lo t.lo _ _ ⟨a, s, ha, hs, .inl ⟨rfl, rfl⟩⟩ ⟨b, t, hb, ht, .inl ⟨rfl, rfl⟩⟩ le

theorem endLine_le {a b : NodeId} {s t : Span} (ha : doc.Reaches a) (hb : doc.Reaches b)
    (hs : doc.span a = some s) (ht : doc.span b = some t) (le : s.hi ≤ t.lo) :
    s.endLine ≤ t.startLine :=
  lined.lines s.hi t.lo _ _ ⟨a, s, ha, hs, .inr ⟨rfl, rfl⟩⟩ ⟨b, t, hb, ht, .inl ⟨rfl, rfl⟩⟩ le

theorem preorder_pairwise : doc.preorder.Pairwise fun a b =>
    (doc.Below a b ∨ ∀ s t, doc.span a = some s → doc.span b = some t → s.hi ≤ t.lo) ∧
    ¬ doc.Below b a :=
  preorder_spans lined.nested lined.linked lined.root_lt

theorem mem_startingOn {line : Nat} {id : NodeId} :
    id ∈ doc.startingOn line ↔ doc.Reaches id ∧ doc.Starts line id := by
  rw [startingOn_eq, List.mem_filter, mem_preorder lined.linked lined.root_lt, starts?_iff]

end Lined

namespace Legible

variable {doc : Document} (legible : doc.Legible)

include legible

theorem lines_le {id : NodeId} {s : Span} (reached : doc.Reaches id) (hs : doc.span id = some s) :
    s.startLine ≤ s.endLine :=
  legible.lines s.lo s.hi _ _ ⟨id, s, reached, hs, .inl ⟨rfl, rfl⟩⟩
    ⟨id, s, reached, hs, .inr ⟨rfl, rfl⟩⟩ (legible.forward id s reached hs)

theorem solid_of_holds {p c : NodeId} (reached : doc.Reaches p) (hold : doc.Holds p c) :
    doc.isBlankText p = false := by
  cases blank : doc.isBlankText p with
  | false => rfl
  | true =>
    unfold Holds at hold
    rw [legible.leaf p reached blank] at hold
    cases hold

/-- The first node of a line starts there, and its parent does not or is the root. -/
theorem first_spec {line : Nat} {h : NodeId} {rest : List NodeId}
    (found : doc.startingOn line = h :: rest) :
    doc.Reaches h ∧ doc.Starts line h ∧ ∃ p, doc.parent h = some p ∧ doc.Reaches p ∧
      (p = root ∨ ∃ t, doc.span p = some t ∧ t.startLine ≠ line) := by
  obtain ⟨reached, starts⟩ := legible.mem_startingOn.mp (found ▸ List.mem_cons_self ..)
  refine ⟨reached, starts, ?_⟩
  rcases ReflTransGen.cases_tail reached with e | ⟨p, hp, hold⟩
  · exact absurd e starts.1
  · refine ⟨p, (legible.linked.agree p h).mp hold, hp, ?_⟩
    by_contra neither
    rw [not_or, not_exists] at neither
    obtain ⟨s, hs, -⟩ := starts.2.2
    obtain ⟨t, ht, -, -⟩ := (legible.nested p hp).within h s hold hs
    have same : t.startLine = line := by
      by_contra ne
      exact neither.2 t ⟨ht, ne⟩
    have mem : p ∈ doc.startingOn line :=
      legible.mem_startingOn.mpr ⟨hp, neither.1, legible.solid_of_holds hp hold, t, ht, same⟩
    have ordered : (doc.startingOn line).Pairwise _ := legible.preorder_pairwise.filter _
    rw [found] at mem ordered
    rcases List.mem_cons.mp mem with rfl | later
    · exact legible.linked.not_below_of_holds hold ReflTransGen.refl
    · exact ((List.pairwise_cons.mp ordered).1 p later).2 (ReflTransGen.single hold)

theorem outer_line {line : Nat} {h p : NodeId} {rest : List NodeId}
    (found : doc.startingOn line = h :: rest) (hold : doc.Holds p h) (inner : p ≠ root) (s : Span)
    (span : doc.span p = some s) : s.startLine ≠ line := by
  obtain ⟨-, -, q, link, -, outer⟩ := legible.first_spec found
  cases ((legible.linked.agree p h).mp hold).symm.trans link
  rcases outer with e | ⟨t, ht, other⟩
  · exact absurd e inner
  · cases span.symm.trans ht
    exact other

theorem later_below {line : Nat} {h x : NodeId} {rest : List NodeId}
    (found : doc.startingOn line = h :: rest) (later : x ∈ rest) {s : Span}
    (hs : doc.span h = some s) (long : s.endLine ≠ line) : doc.Below h x := by
  obtain ⟨reached, starts⟩ := legible.mem_startingOn.mp (found ▸ List.mem_cons_self ..)
  obtain ⟨reached', starts'⟩ := legible.mem_startingOn.mp (found ▸ List.mem_cons_of_mem _ later)
  have ordered : (doc.startingOn line).Pairwise _ := legible.preorder_pairwise.filter _
  rw [found] at ordered
  rcases ((List.pairwise_cons.mp ordered).1 x later).1 with below | behind
  · exact below
  · obtain ⟨t, ht, ht'⟩ := starts'.2.2
    obtain ⟨s', hs', same⟩ := starts.2.2
    rw [hs] at hs'
    cases hs'
    have := legible.endLine_le reached reached' hs ht (behind s t hs ht)
    have := legible.lines_le reached hs
    omega

theorem ascend_eq {line : Nat} {h x : NodeId} {rest : List NodeId}
    (found : doc.startingOn line = h :: rest) (below : doc.Below h x) {t : Span}
    (ht : doc.span x = some t) (start : t.startLine = line) :
    doc.ascend line doc.nodes.size x = h := by
  obtain ⟨reached, starts, p, link, hp, top⟩ := legible.first_spec found
  obtain ⟨rank, rises, bound⟩ := legible.linked.depth
  have rank_below : ∀ {a b : NodeId}, doc.Below a b → rank a ≤ rank b := by
    intro a b hab
    induction hab with
    | refl => exact Nat.le_refl _
    | tail _ hold ih => exact Nat.le_trans ih (Nat.le_of_lt (rises _ _ hold))
  have climb : ∀ fuel (x : NodeId) (t : Span), doc.Below h x → doc.span x = some t →
      t.startLine = line → rank x ≤ fuel + rank h → doc.ascend line fuel x = h := by
    intro fuel
    induction fuel with
    | zero =>
      intro x t below ht start low
      rcases ReflTransGen.cases_tail below with rfl | ⟨q, hq, hold⟩
      · rfl
      · have := rises q x hold
        have := rank_below hq
        omega
    | succ fuel ih =>
      intro x t below ht start low
      rcases ReflTransGen.cases_tail below with rfl | ⟨q, hq, hold⟩
      · have stop : (p = root || (doc.span p).any (·.startLine != line)) = true := by
          rcases top with e | ⟨u, hu, ne⟩
          · simp [e]
          · simp [hu, ne]
        rw [ascend, link]
        dsimp only
        rw [if_pos stop]
      · obtain ⟨u, hu, lo, -⟩ := (legible.nested q (reached.below hq)).within x t hold ht
        obtain ⟨s, hs, start_h⟩ := starts.2.2
        obtain ⟨s', hs', lo', -⟩ := span_above legible.nested reached hq hu
        rw [hs] at hs'
        cases hs'
        -- The parent starts between the first node and this one, so on the same line.
        have up := legible.startLine_le (reached.below hq) (reached.below below) hu ht lo
        have down := legible.startLine_le reached (reached.below hq) hs hu lo'
        have same : u.startLine = line := by omega
        have not_root : q ≠ root := by
          rintro rfl
          rcases ReflTransGen.cases_tail hq with e | ⟨r, above, hr⟩
          · exact starts.1 e.symm
          · exact legible.linked.ne_root_of_holds (reached.below above) hr rfl
        have go : (q = root || (doc.span q).any (·.startLine != line)) = false := by
          simp [hu, same, not_root]
        rw [ascend, (legible.linked.agree q x).mp hold]
        dsimp only
        rw [go]
        have := rises q x hold
        exact ih q u hq hu same (by omega)
  exact climb _ x t below ht start (by
    have := bound x (legible.linked.reaches_lt legible.root_lt (reached.below below))
    omega)

theorem below_of_preferred {line : Nat} {h x : NodeId} {rest : List NodeId}
    (found : doc.startingOn line = h :: rest)
    (search : (doc.startingOn line).find? (fun id => (doc.span id).any (·.endLine == line)) =
      some x) : doc.Below h x := by
  obtain ⟨-, starts, -⟩ := legible.first_spec found
  obtain ⟨s, hs, -⟩ := starts.2.2
  rw [found] at search
  by_cases short : s.endLine = line
  · have first : (doc.span h).any (·.endLine == line) = true := by simp [hs, short]
    rw [List.find?_cons, first] at search
    cases search
    exact ReflTransGen.refl
  · rcases List.mem_cons.mp (List.mem_of_find?_eq_some search) with rfl | later
    · exact ReflTransGen.refl
    · exact legible.later_below found later hs short

/-- The target for a line is the first node that starts on it. -/
theorem locate_eq (line : Nat) : doc.locate line = (doc.startingOn line).head?.map doc.aim := by
  unfold locate
  dsimp only
  cases found : doc.startingOn line with
  | nil => rfl
  | cons h rest =>
    obtain ⟨x, chosen, mem, below⟩ : ∃ x, ((h :: rest).find? fun id =>
        (doc.span id).any (·.endLine == line)).or (h :: rest).head? = some x ∧ x ∈ h :: rest ∧
        doc.Below h x := by
      cases search : (h :: rest).find? fun id => (doc.span id).any (·.endLine == line) with
      | none => exact ⟨h, rfl, List.mem_cons_self, ReflTransGen.refl⟩
      | some x =>
        rw [← found] at search
        exact ⟨x, rfl, found ▸ List.mem_of_find?_eq_some search,
          legible.below_of_preferred found search⟩
    obtain ⟨-, -, -, t, ht, start⟩ := legible.mem_startingOn.mp (found ▸ mem)
    rw [chosen, Option.map_some, List.head?_cons, Option.map_some,
      legible.ascend_eq found below ht start]
    rfl

end Legible

namespace Sound

variable {source : Text} {doc : Document} (sound : doc.Sound source)

include sound

theorem nested {id : NodeId} (reached : doc.Reaches id) : doc.NestedAt id :=
  ⟨fun _ _ hold ht => sound.parent_span reached hold ht, (sound.each id reached).ordered⟩

theorem below_span {c x : NodeId} (reached : doc.Reaches c) (h : doc.Below c x) {t : Span}
    (ht : doc.span x = some t) : ∃ s, doc.span c = some s ∧ s.lo ≤ t.lo ∧ t.hi ≤ s.hi :=
  span_above (fun _ => sound.nested) reached h ht

theorem fits {id : NodeId} (reached : doc.Reaches id) {s : Span} (hs : doc.span id = some s) :
    s.Fits source := (sound.each id reached).fits s hs

/-- The lines of a sound document are those of its source. -/
theorem marks {n line : Nat} (h : doc.Marks n line) : line = (LineIndex.of source).lineOf n := by
  obtain ⟨id, s, reached, hs, ⟨rfl, rfl⟩ | ⟨rfl, rfl⟩⟩ := h
  · exact (sound.fits reached hs).startLine
  · exact (sound.fits reached hs).endLine

theorem legible : doc.Legible where
  linked := sound.linked
  root_lt := sound.root_lt
  nested _ := sound.nested
  lines m n k l hm hn le := by
    rw [sound.marks hm, sound.marks hn]
    exact LineIndex.lineOf_mono _ le
  forward _ _ reached hs := (sound.fits reached hs).le
  leaf id reached blank := by
    unfold isBlankText at blank
    cases value : doc.text? id with
    | none => simp [value] at blank
    | some v => exact ((sound.each id reached).text v value).1

theorem mem_startingOn {line : Nat} {id : NodeId} :
    id ∈ doc.startingOn line ↔ doc.Reaches id ∧ doc.Starts line id :=
  sound.legible.mem_startingOn

theorem first_spec {line : Nat} {h : NodeId} {rest : List NodeId}
    (found : doc.startingOn line = h :: rest) :
    doc.Reaches h ∧ doc.Starts line h ∧ ∃ p, doc.parent h = some p ∧ doc.Reaches p ∧
      (p = root ∨ ∃ t, doc.span p = some t ∧ t.startLine ≠ line) :=
  sound.legible.first_spec found

theorem outer_line {line : Nat} {h p : NodeId} {rest : List NodeId}
    (found : doc.startingOn line = h :: rest) (hold : doc.Holds p h) (inner : p ≠ root) (s : Span)
    (span : doc.span p = some s) : s.startLine ≠ line :=
  sound.legible.outer_line found hold inner s span

theorem locate_eq (line : Nat) : doc.locate line = (doc.startingOn line).head?.map doc.aim :=
  sound.legible.locate_eq line

end Sound
end Quell.Document
