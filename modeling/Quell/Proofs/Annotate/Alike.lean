import Quell.Proofs.Annotate.Call

/-!
Directives that name the same rules in another order.

Two rules that are taken up by one node, in one order or the other, leave comments that differ in the
order of rules at most: `Node.serve_swap`.
-/
namespace Quell

open Text Relation

namespace Directive

/-- The same but for the order of rules. -/
structure Alike (d d' : Directive) : Prop where
  form : d'.form = d.form
  explanation : d'.explanation = d.explanation
  rules : d.rules.Perm d'.rules

theorem Alike.refl (d : Directive) : d.Alike d := ⟨rfl, rfl, .refl _⟩

theorem Alike.trans {d e f : Directive} (h : d.Alike e) (k : e.Alike f) : d.Alike f :=
  ⟨k.form.trans h.form, k.explanation.trans h.explanation, h.rules.trans k.rules⟩

theorem Alike.symm {d d' : Directive} (h : d.Alike d') : d'.Alike d :=
  ⟨h.form.symm, h.explanation.symm, h.rules.symm⟩

theorem Alike.suppresses_eq {d d' : Directive} (alike : d.Alike d') (rule : Text) :
    d'.suppresses rule = d.suppresses rule := by
  unfold suppresses
  rw [alike.rules.isEmpty_eq, alike.rules.contains_eq]

theorem Alike.add {d d' : Directive} (alike : d.Alike d') (rule : Text) :
    Alike { d with rules := d.rules ++ [rule] } { d' with rules := d'.rules ++ [rule] } :=
  ⟨alike.form, alike.explanation, alike.rules.append_right [rule]⟩

theorem suppresses_added {d : Directive} {rule other : Text} (new : d.suppresses rule = false) :
    suppresses { d with rules := d.rules ++ [rule] } other =
      (d.suppresses other || decide (other = rule)) := by
  have nonempty : d.rules ≠ [] := by
    intro none
    unfold suppresses at new
    rw [none] at new
    cases new
  unfold suppresses
  have left : (d.rules ++ [rule]).isEmpty = false := by simp
  have right : d.rules.isEmpty = false := by simpa using nonempty
  rw [left, right, Bool.false_or, Bool.false_or, List.contains_append]
  simp [eq_comm]

end Directive

namespace Comment

/-- The same comment, or directives that differ in the order of rules. -/
def Alike (c c' : Comment) : Prop :=
  c' = c ∨ ∃ d d' : Directive, d.Clean ∧ d'.Clean ∧ d.Alike d' ∧ c.text = d.encode c.kind ∧
    c' = { c with text := d'.encode c.kind }

theorem Alike.refl (c : Comment) : c.Alike c := .inl rfl

theorem Alike.trans {a b c : Comment} (h : a.Alike b) (k : b.Alike c) : a.Alike c := by
  rcases h with rfl | ⟨d, d', clean, clean', alike, text, rfl⟩
  · exact k
  · rcases k with rfl | ⟨e, e', clean₁, clean₂, alike', text', rfl⟩
    · exact .inr ⟨d, d', clean, clean', alike, text, rfl⟩
    · have same : d' = e := by
        have parsed := clean'.parse_encode a.kind
        rw [show d'.encode a.kind = e.encode a.kind from text', clean₁.parse_encode] at parsed
        exact (Option.some.inj parsed).symm
      subst same
      exact .inr ⟨d, e', clean, clean₂, alike.trans alike', text, rfl⟩

theorem Alike.symm {c c' : Comment} (alike : c.Alike c') : c'.Alike c := by
  rcases alike with rfl | ⟨d, d', clean, clean', alike, text, rfl⟩
  · exact .refl _
  · refine .inr ⟨d', d, clean', clean, alike.symm, rfl, ?_⟩
    rw [← text]

theorem forall₂_symm {cs ds : List Comment} (h : List.Forall₂ Alike cs ds) :
    List.Forall₂ Alike ds cs :=
  h.flip.imp fun _ _ => Alike.symm

/-- What is the same about two comments that are alike. -/
theorem Alike.same {c c' : Comment} (alike : c.Alike c') : c'.kind = c.kind ∧
    c'.placement = c.placement ∧ c'.span = c.span ∧ c'.revised = c.revised := by
  rcases alike with rfl | ⟨d, d', -, -, -, -, rfl⟩ <;> exact ⟨rfl, rfl, rfl, rfl⟩

theorem Alike.parses {c c' : Comment} (alike : c.Alike c') :
    Option.Rel Directive.Alike (Directive.parse? c.text) (Directive.parse? c'.text) := by
  rcases alike with rfl | ⟨d, d', clean, clean', alike, text, rfl⟩
  · cases Directive.parse? c'.text with
    | none => exact .none
    | some d => exact .some (.refl d)
  · rw [text, clean.parse_encode, clean'.parse_encode]
    exact .some alike

/-- A rule more in comments that are alike. -/
theorem Alike.merge {c c' : Comment} (alike : c.Alike c') {rule : Text} (name : RuleName rule) :
    (c'.merge rule).2 = (c.merge rule).2 ∧ (c.merge rule).1.Alike (c'.merge rule).1 := by
  rcases alike with rfl | ⟨d, d', clean, clean', alike, text, rfl⟩
  · exact ⟨rfl, .refl _⟩
  · have parsed : Directive.parse? c.text = some d := by rw [text, clean.parse_encode]
    have parsed' := clean'.parse_encode c.kind
    unfold Comment.merge
    rw [parsed, parsed']
    dsimp only
    unfold Directive.add?
    rw [alike.suppresses_eq]
    cases new : d.suppresses rule with
    | true => exact ⟨rfl, .inr ⟨d, d', clean, clean', alike, text, rfl⟩⟩
    | false =>
      refine ⟨rfl, .inr ⟨_, _, clean.add name new, clean'.add name ?_, alike.add rule, rfl, rfl⟩⟩
      rw [alike.suppresses_eq, new]

theorem merge_of_parse {c : Comment} {d : Directive} (parsed : Directive.parse? c.text = some d)
    (rule : Text) : c.merge rule =
      if d.suppresses rule then (c, .alreadySuppressed)
      else (c.setText (Directive.encode { d with rules := d.rules ++ [rule] } c.kind), .merged) := by
  unfold merge
  rw [parsed]
  dsimp only
  unfold Directive.add?
  cases d.suppresses rule <;> rfl

theorem merge_swap (c : Comment) {r q : Text} (name : RuleName r) (name' : RuleName q) :
    ((c.merge r).1.merge q).1.Alike ((c.merge q).1.merge r).1 ∧
      [(c.merge r).2, ((c.merge r).1.merge q).2].Perm
        [(c.merge q).2, ((c.merge q).1.merge r).2] := by
  cases parsed : Directive.parse? c.text with
  | none =>
    have unread : ∀ rule, c.merge rule = (c, .notADirective) := fun rule => by
      unfold merge
      rw [parsed]
    simp only [unread]
    exact ⟨.refl c, .refl _⟩
  | some d =>
    have clean := Directive.clean_of_parse parsed
    have covered : ∀ rule, d.suppresses rule = true → c.merge rule = (c, .alreadySuppressed) :=
      fun rule h => (merge_of_parse parsed rule).trans (if_pos h)
    have taken : ∀ rule, d.suppresses rule = false → c.merge rule =
        (c.setText (Directive.encode { d with rules := d.rules ++ [rule] } c.kind), .merged) :=
      fun rule h => (merge_of_parse parsed rule).trans (if_neg (by rw [h]; exact Bool.false_ne_true))
    have twice : ∀ rule other, RuleName rule → d.suppresses rule = false → merge
        (c.setText (Directive.encode { d with rules := d.rules ++ [rule] } c.kind)) other = _ :=
      fun rule other named new => merge_of_parse ((clean.add named new).parse_encode c.kind) other
    cases hr : d.suppresses r with
    | true =>
      cases hq : d.suppresses q with
      | true =>
        rw [covered r hr, covered q hq, covered r hr]
        exact ⟨.refl c, .refl _⟩
      | false =>
        rw [covered r hr, taken q hq, twice q r name' hq, Directive.suppresses_added hq, hr,
          Bool.true_or, if_pos rfl]
        exact ⟨.refl _, .swap _ _ _⟩
    | false =>
      cases hq : d.suppresses q with
      | true =>
        rw [covered q hq, taken r hr, twice r q name hr, Directive.suppresses_added hr, hq,
          Bool.true_or, if_pos rfl]
        exact ⟨.refl _, .swap _ _ _⟩
      | false =>
        rw [taken r hr, taken q hq, twice r q name hr, twice q r name' hq,
          Directive.suppresses_added hr, Directive.suppresses_added hq, hr, hq, Bool.false_or,
          Bool.false_or]
        by_cases same : q = r
        · subst same
          rw [if_pos (decide_eq_true rfl)]
          exact ⟨.refl _, .refl _⟩
        · have other : ¬ r = q := fun e => same e.symm
          rw [if_neg (by simpa using same), if_neg (by simpa using other)]
          refine ⟨.inr ⟨{ d with rules := d.rules ++ [r] ++ [q] },
            { d with rules := d.rules ++ [q] ++ [r] }, ?_, ?_, ⟨rfl, rfl, ?_⟩, rfl, rfl⟩, .refl _⟩
          · refine (clean.add name hr).add name' ?_
            rw [Directive.suppresses_added hr, hq]
            simpa using same
          · refine (clean.add name' hq).add name ?_
            rw [Directive.suppresses_added hq, hr]
            simpa using other
          · rw [List.append_assoc, List.append_assoc]
            exact (List.Perm.swap q r []).append_left d.rules

end Comment

/-- A way to serve a rule at a node: the slots in which a directive is looked for, and the comment
that is put if there is none. -/
structure Way where
  slots : List Slot
  slot : Slot
  comment : Text → Comment

structure Way.Fair (o : AnnotateOptions) (way : Way) : Prop where
  mem : way.slot ∈ way.slots
  comment : ∃ form kind placement, ∀ rule, way.comment rule =
    { kind, text := Document.directiveText o form rule kind, placement }

theorem Way.Fair.comment_swap {o : AnnotateOptions} {way : Way} (fair : way.Fair o) {r q : Text}
    (name : RuleName r) (name' : RuleName q) :
    ((way.comment r).merge q).1.Alike ((way.comment q).merge r).1 ∧
      ((way.comment q).merge r).2 = ((way.comment r).merge q).2 := by
  obtain ⟨form, kind, placement, new⟩ := fair.comment
  have parsed : ∀ rule, RuleName rule → Directive.parse? (way.comment rule).text =
      some ⟨form, [rule], Directive.why o.message⟩ := by
    intro rule named
    rw [new]
    exact Directive.parse_single form named o.message kind
  have covers : ∀ rule other, Directive.suppresses ⟨form, [rule], Directive.why o.message⟩ other =
      decide (other = rule) := by
    intro rule other
    unfold Directive.suppresses
    simp [eq_comm]
  rw [Comment.merge_of_parse (parsed r name), Comment.merge_of_parse (parsed q name'), covers, covers]
  by_cases same : q = r
  · subst same
    exact ⟨.refl _, rfl⟩
  · have other : ¬ r = q := fun e => same e.symm
    rw [if_neg (by simpa using same), if_neg (by simpa using other), new, new]
    have clean : ∀ {a b : Text}, RuleName a → RuleName b → ¬ b = a →
        Directive.Clean ⟨form, [a, b], Directive.why o.message⟩ := by
      intro a b ha hb ne
      refine (Directive.clean_of_parse (parsed a ha)).add hb ?_
      rw [covers]
      simpa using ne
    exact ⟨.inr ⟨⟨form, [r, q], _⟩, ⟨form, [q, r], _⟩, clean name name' same, clean name' name other,
      ⟨rfl, rfl, .swap _ _ _⟩, rfl, rfl⟩, rfl⟩

namespace Node

def directed (n : Node) (slot : Slot) : Bool :=
  (n.comments slot).getLast?.any fun c => (Directive.parse? c.text).isSome

def serve (n : Node) (way : Way) (rule : Text) : Node × Resolution :=
  match way.slots.find? n.directed with
  | some slot =>
    let (cs, result) := Comment.mergeLast (n.comments slot) rule
    (n.setComments slot cs, (Resolution.ofMerge result).getD .inserted)
  | none => (n.setComments way.slot (n.comments way.slot ++ [way.comment rule]), .inserted)

/-- Nodes that are the same but for names of nodes and the order of rules. -/
structure Alike (f : NodeId → NodeId) (n n' : Node) : Prop where
  kind : n'.kind = n.kind
  span : n'.span = n.span
  parent : n'.parent = n.parent.map f
  children : n'.children = n.children.map f
  comments : ∀ slot, List.Forall₂ Comment.Alike (n.comments slot) (n'.comments slot)

variable {f : NodeId → NodeId} {n n' : Node} {way : Way} {o : AnnotateOptions} {rule r q : Text}

theorem forall₂_refl (cs : List Comment) : List.Forall₂ Comment.Alike cs cs :=
  List.forall₂_same.mpr fun c _ => .refl c

theorem Alike.refl (n : Node) : Alike id n n :=
  ⟨rfl, rfl, by simp, by simp, fun slot => forall₂_refl (n.comments slot)⟩

theorem Alike.of_fixed {n : Node} (parent : ∀ p ∈ n.parent, f p = p)
    (children : ∀ c ∈ n.children, f c = c) : Alike f n n := by
  refine ⟨rfl, rfl, ?_, ?_, fun slot => forall₂_refl (n.comments slot)⟩
  · cases h : n.parent with
    | none => rfl
    | some p => rw [Option.map_some, parent p h]
  · exact (List.map_congr_left children).trans (List.map_id _) |>.symm

theorem Alike.trans {g : NodeId → NodeId} {a b c : Node} (h : Alike f a b) (k : Alike g b c) :
    Alike (g ∘ f) a c := by
  refine ⟨k.kind.trans h.kind, k.span.trans h.span, ?_, ?_, fun slot => ?_⟩
  · rw [k.parent, h.parent, Option.map_map]
  · rw [k.children, h.children, List.map_map]
  · have first := h.comments slot
    have second := k.comments slot
    generalize a.comments slot = x at first
    generalize b.comments slot = y at first second
    generalize c.comments slot = z at second
    induction first generalizing z with
    | nil => cases second; exact .nil
    | cons one _ ih =>
      cases second with
      | cons two rest => exact .cons (one.trans two) (ih _ rest)

theorem setComments_twice (n : Node) (slot : Slot) (cs ds : List Comment) :
    (n.setComments slot cs).setComments slot ds = n.setComments slot ds := by
  cases slot <;> rfl

theorem Alike.setComments (alike : Alike f n n') (slot : Slot) {cs ds : List Comment}
    (h : List.Forall₂ Comment.Alike cs ds) :
    Alike f (n.setComments slot cs) (n'.setComments slot ds) := by
  refine ⟨?_, ?_, ?_, ?_, fun slot' => ?_⟩
  · cases slot <;> exact alike.kind
  · cases slot <;> exact alike.span
  · cases slot <;> exact alike.parent
  · cases slot <;> exact alike.children
  · rw [comments_setComments, comments_setComments]
    split
    · exact h
    · exact alike.comments slot'

theorem forall₂_concat {cs ds : List Comment} {c d : Comment} (h : List.Forall₂ Comment.Alike cs ds)
    (k : c.Alike d) : List.Forall₂ Comment.Alike (cs ++ [c]) (ds ++ [d]) :=
  List.rel_append h (.cons k .nil)

theorem directed_iff {slot : Slot} : n.directed slot = true ↔
    ∃ cs c, n.comments slot = cs ++ [c] ∧ (Directive.parse? c.text).isSome = true := by
  unfold directed
  rw [Option.any_eq_true]
  constructor
  · rintro ⟨c, last, parses⟩
    obtain ⟨cs, split⟩ := List.getLast?_eq_some_iff.mp last
    exact ⟨cs, c, split, parses⟩
  · rintro ⟨cs, c, split, parses⟩
    exact ⟨c, by rw [split, List.getLast?_concat], parses⟩

theorem serve_directed {slot : Slot} (found : way.slots.find? n.directed = some slot) :
    ∃ cs c, n.comments slot = cs ++ [c] ∧ (Directive.parse? c.text).isSome = true ∧
      ∀ rule, n.serve way rule = (n.setComments slot (cs ++ [(c.merge rule).1]),
        (Resolution.ofMerge (c.merge rule).2).getD .inserted) := by
  obtain ⟨cs, c, split, parses⟩ := directed_iff.mp (List.find?_some found)
  refine ⟨cs, c, split, parses, fun rule => ?_⟩
  unfold serve
  rw [found]
  dsimp only
  rw [split, Comment.mergeLast_append]

theorem serve_bare (none : way.slots.find? n.directed = none) (rule : Text) :
    n.serve way rule =
      (n.setComments way.slot (n.comments way.slot ++ [way.comment rule]), .inserted) := by
  unfold serve
  rw [none]

theorem merge_isSome {c : Comment} (parses : (Directive.parse? c.text).isSome = true)
    (rule : Text) : (Directive.parse? (c.merge rule).1.text).isSome = true := by
  obtain ⟨d, parsed⟩ := Option.isSome_iff_exists.mp parses
  rw [Comment.merge_of_parse parsed]
  split
  · exact parses
  · exact Directive.parse_encode_isSome _ _

theorem directed_setComments (n : Node) (slot : Slot) (cs : List Comment) {c : Comment}
    (parses : (Directive.parse? c.text).isSome = true) (slot' : Slot) :
    (n.setComments slot (cs ++ [c])).directed slot' =
      (decide (slot' = slot) || n.directed slot') := by
  unfold directed
  rw [comments_setComments]
  by_cases same : slot' = slot
  · rw [if_pos same, List.getLast?_concat, Option.any_some, parses, decide_eq_true same]
    rfl
  · rw [if_neg same, decide_eq_false same, Bool.false_or]

theorem find_directed {slot : Slot} (found : way.slots.find? n.directed = some slot)
    (cs : List Comment) {c : Comment} (parses : (Directive.parse? c.text).isSome = true) :
    way.slots.find? (n.setComments slot (cs ++ [c])).directed = some slot := by
  have here := List.find?_some found
  have same : (n.setComments slot (cs ++ [c])).directed = n.directed := by
    funext slot'
    rw [directed_setComments n slot cs parses]
    by_cases e : slot' = slot
    · rw [e, here, Bool.or_true]
    · rw [decide_eq_false e, Bool.false_or]
  rw [same, found]

theorem find_bare (fair : way.Fair o) (none : way.slots.find? n.directed = none)
    (cs : List Comment) {c : Comment} (parses : (Directive.parse? c.text).isSome = true) :
    way.slots.find? (n.setComments way.slot (cs ++ [c])).directed = some way.slot := by
  have only : ∀ s ∈ way.slots, (n.setComments way.slot (cs ++ [c])).directed s =
      decide (s = way.slot) := by
    intro s hs
    rw [directed_setComments n way.slot cs parses]
    have bare := List.find?_eq_none.mp none s hs
    rw [Bool.not_eq_true] at bare
    rw [bare, Bool.or_false]
  cases found : way.slots.find? (n.setComments way.slot (cs ++ [c])).directed with
  | none =>
    have absent := List.find?_eq_none.mp found way.slot fair.mem
    rw [only _ fair.mem] at absent
    exact absurd (decide_eq_true rfl) absent
  | some s =>
    have holds := List.find?_some found
    rw [only _ (List.mem_of_find?_eq_some found)] at holds
    rw [of_decide_eq_true holds]

theorem serve_swap (fair : way.Fair o) (n : Node) (name : RuleName r) (name' : RuleName q) :
    Alike id ((n.serve way r).1.serve way q).1 ((n.serve way q).1.serve way r).1 ∧
      [(n.serve way r).2, ((n.serve way r).1.serve way q).2].Perm
        [(n.serve way q).2, ((n.serve way q).1.serve way r).2] := by
  cases found : way.slots.find? n.directed with
  | some slot =>
    obtain ⟨cs, c, split, parses, served⟩ := serve_directed found
    have again : ∀ rule other, (n.serve way rule).1.serve way other =
        (n.setComments slot (cs ++ [((c.merge rule).1.merge other).1]),
          (Resolution.ofMerge ((c.merge rule).1.merge other).2).getD .inserted) := by
      intro rule other
      rw [served]
      obtain ⟨cs', c', split', -, served'⟩ :=
        serve_directed (find_directed found cs (merge_isSome parses rule))
      rw [comments_setComments, if_pos rfl] at split'
      obtain ⟨rfl, last⟩ := List.append_inj' split' rfl
      cases last
      rw [served', setComments_twice]
    obtain ⟨alike, perm⟩ := c.merge_swap name name'
    rw [again, again, served, served]
    refine ⟨(Alike.refl n).setComments slot (forall₂_concat (forall₂_refl cs) alike), ?_⟩
    exact perm.map fun m => (Resolution.ofMerge m).getD .inserted
  | none =>
    have again : ∀ rule other, RuleName rule → (n.serve way rule).1.serve way other =
        (n.setComments way.slot (n.comments way.slot ++ [((way.comment rule).merge other).1]),
          (Resolution.ofMerge ((way.comment rule).merge other).2).getD .inserted) := by
      intro rule other named
      have parses : (Directive.parse? (way.comment rule).text).isSome = true := by
        obtain ⟨form, kind, placement, new⟩ := fair.comment
        rw [new]
        exact Directive.parse_encode_isSome _ _
      rw [serve_bare found]
      obtain ⟨cs', c', split', -, served'⟩ :=
        serve_directed (find_bare fair found (n.comments way.slot) parses)
      rw [comments_setComments, if_pos rfl] at split'
      obtain ⟨rfl, last⟩ := List.append_inj' split' rfl
      cases last
      rw [served', setComments_twice]
    obtain ⟨alike, same⟩ := fair.comment_swap name name'
    rw [again r q name, again q r name', serve_bare found, serve_bare found, same]
    exact ⟨(Alike.refl n).setComments way.slot (forall₂_concat (forall₂_refl _) alike), .refl _⟩

theorem forall₂_split {cs l : List Comment} {c : Comment}
    (h : List.Forall₂ Comment.Alike (cs ++ [c]) l) :
    ∃ ds d, l = ds ++ [d] ∧ List.Forall₂ Comment.Alike cs ds ∧ c.Alike d := by
  have back := List.forall₂_reverse_iff.mpr h
  rw [List.reverse_append, List.reverse_singleton, List.singleton_append] at back
  obtain ⟨d, ds, last, front, split⟩ := List.forall₂_cons_left_iff.mp back
  refine ⟨ds.reverse, d, ?_, ?_, last⟩
  · rw [← List.reverse_cons, ← split, List.reverse_reverse]
  · rw [← List.forall₂_reverse_iff, List.reverse_reverse]
    exact front

theorem Alike.directed_eq (alike : Alike f n n') (slot : Slot) :
    n'.directed slot = n.directed slot := by
  have same := alike.comments slot
  unfold directed
  rcases List.eq_nil_or_concat (n.comments slot) with nil | ⟨cs, c, split⟩
  · rw [nil] at same ⊢
    rw [List.forall₂_nil_left_iff.mp same]
  · rw [List.concat_eq_append] at split
    rw [split] at same ⊢
    obtain ⟨ds, d, split', -, last⟩ := forall₂_split same
    rw [split', List.getLast?_concat, List.getLast?_concat, Option.any_some, Option.any_some]
    have parses := last.parses
    cases h : Directive.parse? c.text with
    | none =>
      rw [h] at parses
      cases k : Directive.parse? d.text with
      | none => rfl
      | some e => rw [k] at parses; cases parses
    | some e =>
      rw [h] at parses
      cases k : Directive.parse? d.text with
      | none => rw [k] at parses; cases parses
      | some e => rfl

/-- Nodes that are alike serve a rule alike. -/
theorem Alike.serve (alike : Alike f n n') (way : Way) (name : RuleName rule) :
    (n'.serve way rule).2 = (n.serve way rule).2 ∧
      Alike f (n.serve way rule).1 (n'.serve way rule).1 := by
  have same : n'.directed = n.directed := funext alike.directed_eq
  cases found : way.slots.find? n.directed with
  | some slot =>
    obtain ⟨cs, c, split, -, served⟩ := serve_directed found
    obtain ⟨cs', c', split', -, served'⟩ := serve_directed (by rw [same]; exact found)
    have comments := alike.comments slot
    rw [split, split'] at comments
    obtain ⟨ds, d, e, front, last⟩ := forall₂_split comments
    obtain ⟨rfl, e'⟩ := List.append_inj' e rfl
    cases e'
    obtain ⟨answer, merged⟩ := last.merge name
    rw [served, served']
    refine ⟨?_, alike.setComments slot (forall₂_concat front merged)⟩
    dsimp only
    rw [answer]
  | none =>
    rw [serve_bare found, serve_bare (by rw [same]; exact found)]
    exact ⟨rfl, alike.setComments way.slot (forall₂_concat (alike.comments way.slot) (.refl _))⟩

theorem serve_local (fair : way.Fair o) (n : Node) (rule : Text) :
    ∃ slot ∈ way.slots, ∃ cs res, ∀ m : Node,
      (∀ s ∈ way.slots, m.comments s = n.comments s) →
        m.serve way rule = (m.setComments slot cs, res) := by
  have reads : ∀ m : Node, (∀ s ∈ way.slots, m.comments s = n.comments s) →
      way.slots.find? m.directed = way.slots.find? n.directed := by
    intro m same
    rw [← List.head?_filter, ← List.head?_filter]
    refine congrArg List.head? (List.filter_congr fun s hs => ?_)
    unfold directed
    rw [same s hs]
  cases found : way.slots.find? n.directed with
  | some slot =>
    have mem := List.mem_of_find?_eq_some found
    refine ⟨slot, mem, (Comment.mergeLast (n.comments slot) rule).1,
      (Resolution.ofMerge (Comment.mergeLast (n.comments slot) rule).2).getD .inserted,
      fun m same => ?_⟩
    unfold serve
    rw [reads m same, found]
    dsimp only
    rw [same slot mem]
  | none =>
    refine ⟨way.slot, fair.mem, n.comments way.slot ++ [way.comment rule], .inserted,
      fun m same => ?_⟩
    rw [serve_bare ((reads m same).trans found), same _ fair.mem]

theorem setComments_comm (n : Node) {slot slot' : Slot} (ne : slot ≠ slot') (cs ds : List Comment) :
    (n.setComments slot cs).setComments slot' ds = (n.setComments slot' ds).setComments slot cs := by
  cases slot <;> cases slot' <;> first | rfl | exact absurd rfl ne

theorem serve_comm {way' : Way} {o' : AnnotateOptions} (fair : way.Fair o) (fair' : way'.Fair o')
    (apart : ∀ s ∈ way.slots, s ∉ way'.slots) (n : Node) (r q : Text) :
    ((n.serve way r).1.serve way' q).1 = ((n.serve way' q).1.serve way r).1 ∧
      ((n.serve way r).1.serve way' q).2 = (n.serve way' q).2 ∧
      ((n.serve way' q).1.serve way r).2 = (n.serve way r).2 := by
  obtain ⟨s, hs, cs, res, here⟩ := serve_local fair n r
  obtain ⟨t, ht, ds, res', there⟩ := serve_local fair' n q
  have ne : s ≠ t := by
    rintro rfl
    exact apart s hs ht
  have first : (n.setComments s cs).serve way' q = ((n.setComments s cs).setComments t ds, res') := by
    refine there _ fun s' hs' => ?_
    rw [comments_setComments, if_neg]
    rintro rfl
    exact apart s' hs hs'
  have second : (n.setComments t ds).serve way r = ((n.setComments t ds).setComments s cs, res) := by
    refine here _ fun s' hs' => ?_
    rw [comments_setComments, if_neg]
    rintro rfl
    exact apart s' hs' ht
  rw [here n fun _ _ => rfl, there n fun _ _ => rfl, first, second]
  exact ⟨setComments_comm n ne cs ds, rfl, rfl⟩

theorem serve_settles (n : Node) (way : Way) (rule : Text) (reason : SkipReason) :
    (n.serve way rule).2 ≠ .skipped reason := by
  unfold serve
  split
  · dsimp only
    cases (Comment.mergeLast _ rule).2 <;> exact nofun
  · exact nofun

theorem serve_links (n : Node) (way : Way) (rule : Text) :
    (n.serve way rule).1.children = n.children ∧ (n.serve way rule).1.parent = n.parent := by
  unfold serve
  cases way.slots.find? n.directed with
  | some slot => cases slot <;> exact ⟨rfl, rfl⟩
  | none => cases way.slot <;> exact ⟨rfl, rfl⟩

end Node
end Quell
