import Quell.Proofs.Annotate.Group
import Quell.Proofs.Text.Lines

/-!
A markup comment among siblings.

The place is in front of the group on the target's line, behind the indentation if that stands in a
text of its own. `attachAmong_ok` says all that a call can do.
-/
namespace Quell.Document

open Text Relation

theorem trailingIndent_eq_some {t run : Text} (h : trailingIndent t = some run) :
    ∃ a, t = a ++ ['\n'] ++ run ∧ run ≠ [] ∧ allBlank run = true ∧ '\n' ∉ run := by
  unfold trailingIndent at h
  split at h
  · rename_i a b found
    split at h
    · rename_i cond
      cases h
      obtain ⟨rfl, free⟩ := splitLast?_eq_some found
      simp only [Bool.and_eq_true, Bool.not_eq_true', List.isEmpty_eq_false_iff] at cond
      exact ⟨a, by simp, cond.1, cond.2, free⟩
    · cases h
  · cases h

def LineEnd (doc : Document) (b : NodeId) : Prop :=
  ∃ u, doc.text? b = some u ∧ u.getLast? = some '\n'

def OwnIndent (doc : Document) (X₁ : List NodeId) (x : NodeId) (t : Text) : Prop :=
  doc.text? x = some t ∧ t ≠ [] ∧ allBlank t = true ∧ ∀ b ∈ X₁.getLast?, doc.LineEnd b

def ownIndent? (doc : Document) (cs : List NodeId) (start index target : Nat) : Option Text :=
  match cs[index]?.bind doc.text? with
  | some t =>
    if index < target && !t.isEmpty && t.allBlank &&
        (index = start || doc.endsLine cs (index - 1)) then some t else none
  | none => none

def splitIndent (doc : Document) (cs : List NodeId) (start index : Nat) :
    Except Fault (Document × Nat × Text) :=
  if start < index then
    match cs[index - 1]? with
    | some prev =>
      match (doc.text? prev).bind fun t => (trailingIndent t).map fun run => (t, run) with
      | some (t, run) => do
        let (doc, halves) ← doc.splitText prev (t.bytes - run.bytes)
        return (doc, if halves.isSome then index + 1 else index, run)
      | none => .ok (doc, index, [])
    | none => .ok (doc, index, [])
  else .ok (doc, index, [])

theorem indentBefore_eq (doc : Document) (cs : List NodeId) (start index target : Nat) :
    doc.indentBefore cs start index target =
      match doc.ownIndent? cs start index target with
      | some t => .ok (doc, index + 1, t)
      | none => doc.splitIndent cs start index := rfl

section Indent

variable {source : Text} {doc : Document} {p o target : NodeId} {X₁ X₂ R closing : List NodeId}

theorem child_before {Z : List NodeId} {b : NodeId} (split : doc.children p = o :: (Z ++ b :: R)) :
    (doc.children p)[1 + (Z ++ [b]).length - 1]? = some b := by
  have index : 1 + (Z ++ [b]).length - 1 = Z.length + 1 := by simp
  rw [split, index, List.getElem?_cons_succ, List.getElem?_append_right (Nat.le_refl _),
    Nat.sub_self]
  rfl

theorem endsLine_iff (layout : doc.Layout p o (X₁ ++ X₂ ++ target :: R) closing) :
    (1 + X₁.length = 1 ∨ doc.endsLine (doc.children p) (1 + X₁.length - 1) = true) ↔
      ∀ b ∈ X₁.getLast?, doc.LineEnd b := by
  rcases List.eq_nil_or_concat X₁ with rfl | ⟨Z, b, rfl⟩
  · simp
  · rw [List.concat_eq_append] at layout ⊢
    have split : doc.children p = o :: (Z ++ b :: (X₂ ++ target :: R ++ closing)) := by
      rw [layout.split]
      simp
    have here := child_before split
    have later : ¬ 1 + (Z ++ [b]).length = 1 := by simp
    unfold endsLine LineEnd
    rw [here]
    simp only [Option.bind_some, List.getLast?_concat, Option.mem_def, Option.some.injEq,
      forall_eq', later, false_or]
    cases doc.text? b with
    | none => simp
    | some u => simp

theorem ownIndent?_iff (layout : doc.Layout p o (X₁ ++ X₂ ++ target :: R) closing) (t : Text) :
    doc.ownIndent? (doc.children p) 1 (1 + X₁.length) (1 + (X₁ ++ X₂).length) = some t ↔
      ∃ x G, X₂ = x :: G ∧ doc.OwnIndent X₁ x t := by
  unfold ownIndent?
  have ends := endsLine_iff layout
  have here : (doc.children p)[1 + X₁.length]? = (X₂ ++ target :: R ++ closing).head? := by
    rw [layout.split, Nat.add_comm, List.getElem?_cons_succ, List.append_assoc, List.append_assoc,
      List.getElem?_append_right (Nat.le_refl _), Nat.sub_self, List.head?_eq_getElem?]
    simp
  rw [here]
  cases X₂ with
  | nil =>
    simp only [List.nil_append, List.cons_append, List.head?_cons, Option.bind_some,
      List.append_nil, Nat.lt_irrefl, decide_false, Bool.false_and, Bool.false_eq_true, if_false,
      reduceCtorEq, false_and, exists_const, iff_false]
    split <;> simp
  | cons x G =>
    have low : 1 + X₁.length < 1 + (X₁ ++ x :: G).length := by simp
    simp only [List.cons_append, List.head?_cons, Option.bind_some, low, decide_true,
      Bool.true_and, List.cons.injEq]
    unfold OwnIndent
    constructor
    · intro h
      split at h
      · rename_i u value
        split at h
        · rename_i cond
          cases h
          simp only [Bool.and_eq_true, Bool.not_eq_true', List.isEmpty_eq_false_iff,
            Bool.or_eq_true, decide_eq_true_eq] at cond
          exact ⟨x, G, ⟨rfl, rfl⟩, value, cond.1.1, cond.1.2, ends.mp cond.2⟩
        · cases h
      · cases h
    · rintro ⟨_, _, ⟨rfl, rfl⟩, value, ne, blank, line⟩
      rw [value]
      dsimp only
      rw [if_pos]
      simp only [Bool.and_eq_true, Bool.not_eq_true', List.isEmpty_eq_false_iff,
        Bool.or_eq_true, decide_eq_true_eq]
      exact ⟨⟨ne, blank⟩, ends.mpr line⟩

theorem indentBefore_cases (sound : doc.Sound source) (reached : doc.Reaches p)
    (layout : doc.Layout p o (X₁ ++ X₂ ++ target :: R) closing) :
    (∃ x G t, X₂ = x :: G ∧ doc.OwnIndent X₁ x t ∧
      doc.indentBefore (doc.children p) 1 (1 + X₁.length) (1 + (X₁ ++ X₂).length) =
        .ok (doc, 1 + (X₁ ++ [x]).length, t)) ∨
    (∀ x G t, X₂ = x :: G → ¬ doc.OwnIndent X₁ x t) ∧
    ((∃ Z b a run doc', X₁ = Z ++ [b] ∧ doc.text? b = some (a ++ ['\n'] ++ run) ∧ run ≠ [] ∧
      allBlank run = true ∧ '\n' ∉ run ∧
      doc.Recut doc' p (o :: Z) b (X₂ ++ target :: R ++ closing) [a ++ ['\n'], run] ∧
      doc.indentBefore (doc.children p) 1 (1 + X₁.length) (1 + (X₁ ++ X₂).length) =
        .ok (doc', 1 + (Z ++ [doc.nodes.size, doc.nodes.size + 1]).length, run)) ∨
    (∀ b ∈ X₁.getLast?, ∀ t, doc.text? b = some t → trailingIndent t = none) ∧
      doc.indentBefore (doc.children p) 1 (1 + X₁.length) (1 + (X₁ ++ X₂).length) =
        .ok (doc, 1 + X₁.length, [])) := by
  have own := ownIndent?_iff layout
  rw [indentBefore_eq]
  cases found : doc.ownIndent? (doc.children p) 1 (1 + X₁.length) (1 + (X₁ ++ X₂).length) with
  | some t =>
    obtain ⟨x, G, rfl, indent⟩ := (own t).mp found
    refine .inl ⟨x, G, t, rfl, indent, ?_⟩
    rw [List.length_append]
    rfl
  | none =>
    refine .inr ⟨fun x G t e indent => ?_, ?_⟩
    · rw [(own t).mpr ⟨x, G, e, indent⟩] at found
      cases found
    · dsimp only
      unfold splitIndent
      rcases List.eq_nil_or_concat X₁ with rfl | ⟨Z, b, rfl⟩
      · exact .inr ⟨by simp, rfl⟩
      · rw [List.concat_eq_append] at layout ⊢
        have later : 1 < 1 + (Z ++ [b]).length := by simp
        have split : doc.children p = o :: (Z ++ b :: (X₂ ++ target :: R ++ closing)) := by
          rw [layout.split]
          simp
        rw [if_pos later, child_before split]
        dsimp only
        cases value : doc.text? b with
        | none => exact .inr ⟨by simp [value], rfl⟩
        | some t =>
          cases run_eq : trailingIndent t with
          | none => exact .inr ⟨by simp [value, run_eq], by simp [run_eq]⟩
          | some run =>
            obtain ⟨a, rfl, ne, blank, free⟩ := trailingIndent_eq_some run_eq
            have hold : doc.Holds p b := by
              unfold Holds
              rw [split]
              simp
            have ok := sound.each b (reached.child hold)
            obtain ⟨doc', result, recut⟩ := splitText_recut sound.linked (p := p) (A := o :: Z)
              (C := X₂ ++ target :: R ++ closing) (by rw [split]; simp) (ok.text _ value).1
              (a := a ++ ['\n']) (b := run) value
            refine .inl ⟨Z, b, a, run, doc', rfl, value, ne, blank, free, recut, ?_⟩
            have cut : bytes (a ++ ['\n'] ++ run) - bytes run = bytes (a ++ ['\n']) := by
              rw [bytes_append]
              omega
            simp only [Option.bind_some, run_eq, Option.map_some, cut]
            rw [result]
            simp only [List.length_append, List.length_cons, List.length_nil]
            rfl

end Indent

structure Spot (doc : Document) (p target : NodeId) (line : Nat) (o : NodeId)
    (X₁ X₂ R closing : List NodeId) : Prop where
  layout : doc.Layout p o (X₁ ++ X₂ ++ target :: R) closing
  rows : doc.Rows X₁
  group : doc.Group line X₁ X₂
  whole : ∀ x ∈ X₁ ++ X₂, doc.Whole x

structure Hits (doc : Document) (line : Nat) (p target : NodeId) : Prop where
  outer : ∀ s, doc.span p = some s → s.startLine ≠ line
  start : ∃ s, doc.span target = some s ∧ s.startLine = line

theorem Hits.spanned {doc : Document} {line : Nat} {p target : NodeId}
    (hits : doc.Hits line p target) : doc.span target ≠ none := by
  obtain ⟨s, span, -⟩ := hits.start
  rw [span]
  exact nofun

/-- How room is made for a markup comment: what stands in front of it, what of the group stands
behind it, and the indentation of its line. -/
inductive Room (doc : Document) (p target o : NodeId) (X₁ X₂ R closing : List NodeId) :
    Document → List NodeId → List NodeId → Text → Prop where
  | own {x : NodeId} {G : List NodeId} {t : Text} : X₂ = x :: G → doc.OwnIndent X₁ x t →
      Room doc p target o X₁ X₂ R closing doc (X₁ ++ [x]) G t
  | split {Z : List NodeId} {b : NodeId} {a run : Text} {s : Span} {doc' : Document} :
      X₁ = Z ++ [b] → doc.text? b = some (a ++ ['\n'] ++ run) → doc.span b = some s → run ≠ [] →
      allBlank run = true → '\n' ∉ run →
      doc.Recut doc' p (o :: Z) b (X₂ ++ target :: R ++ closing) [a ++ ['\n'], run] →
      Room doc p target o X₁ X₂ R closing doc' (Z ++ [doc.nodes.size, doc.nodes.size + 1]) X₂ run
  | flush : (∀ x G t, X₂ = x :: G → ¬ doc.OwnIndent X₁ x t) →
      (∀ b ∈ X₁.getLast?, ∀ t, doc.text? b = some t → trailingIndent t = none) →
      Room doc p target o X₁ X₂ R closing doc X₁ X₂ []

inductive AmongSiblings (o : AnnotateOptions) (rule : Text) (line : Nat) (p target : NodeId)
    (doc : Document) : Document → Resolution → Prop where
  | tag : doc.kind target = .openingTag →
      AmongSiblings o rule line p target doc doc (.skipped .noMarkupChildren)
  | merge {first : NodeId} {X₁ X₂ R closing : List NodeId} {e : NodeId} {r : Resolution} :
      doc.Spot p target line first X₁ X₂ R closing → doc.nearestSlot X₁ = some e →
      Resolution.ofMerge (doc.mergeInto e .inner rule).2 = some r →
      AmongSiblings o rule line p target doc (doc.mergeInto e .inner rule).1 r
  | insert {first : NodeId} {X₁ X₂ R closing Z G : List NodeId} {room doc' : Document}
      {indent : Text} :
      doc.Spot p target line first X₁ X₂ R closing →
      (∀ b ∈ X₁.getLast?, ¬ doc.Gap b) →
      Room doc p target first X₁ X₂ R closing room Z G indent →
      room.Noted doc' p (first :: Z) (G ++ target :: R ++ closing) none
        (directiveText o .nextLine rule .block) (room.eol.text ++ indent) →
      AmongSiblings o rule line p target doc doc' .inserted

inductive AttachAmong (o : AnnotateOptions) (rule : Text) (line : Nat) (p target : NodeId)
    (doc : Document) : Document → Resolution → Prop where
  | childless : (doc.kind p).hasMarkupChildren = false →
      AttachAmong o rule line p target doc doc (.skipped .noMarkupChildren)
  | own {e : NodeId} {r : Resolution} : (doc.kind p).hasMarkupChildren = true →
      doc.commentSlot target = some e →
      Resolution.ofMerge (doc.mergeInto e .inner rule).2 = some r →
      AttachAmong o rule line p target doc (doc.mergeInto e .inner rule).1 r
  | placed {cut doc' : Document} {r : Resolution} :
      (doc.kind p).hasMarkupChildren = true →
      (∀ e, doc.commentSlot target = some e →
        doc.mergeInto e .inner rule = (doc, .notADirective)) →
      doc.segmentChildren p target = .ok cut → Slits p target doc cut →
      AmongSiblings o rule line p target cut doc' r →
      AttachAmong o rule line p target doc doc' r

section Call

variable {source : Text} {doc : Document} {p target : NodeId}

/-- The children of an element around a target that is no tag. -/
theorem Sound.spot (sound : doc.Sound source) (reached : doc.Reaches p)
    (markup : (doc.kind p).hasMarkupChildren = true) (hold : doc.Holds p target)
    (spanned : doc.span target ≠ none)
    (plain : doc.kind target ≠ .openingTag ∧ doc.kind target ≠ .closingTag)
    (whole : ∀ x, doc.Holds p x → x = target ∨ doc.Whole x) (line : Nat) :
    ∃ o X₁ X₂ R closing, doc.Spot p target line o X₁ X₂ R closing ∧
      (doc.children p).findIdx? (· == target) = some (1 + (X₁ ++ X₂).length) ∧
      doc.groupStart line (((doc.children p).take (1 + (X₁ ++ X₂).length)).drop 1).reverse
        (1 + (X₁ ++ X₂).length) (1 + (X₁ ++ X₂).length) = 1 + X₁.length := by
  obtain ⟨A, C, split⟩ := List.append_of_mem hold
  have nodup := sound.linked.nodup p
  obtain ⟨o, X, Y, tail, closing, rfl, rfl, layout, rows, -, -, -⟩ :=
    ((sound.each p reached).arranged markup).place nodup split spanned plain
  obtain ⟨X₁, X₂, rfl, group, start⟩ := groupStart_spec line rows
  have layout' : doc.Layout p o (X₁ ++ X₂ ++ target :: (Y ++ tail)) closing := by
    rw [show X₁ ++ X₂ ++ target :: (Y ++ tail) = X₁ ++ X₂ ++ target :: Y ++ tail by simp]
    exact layout
  rw [split] at nodup
  have notin : target ∉ o :: (X₁ ++ X₂) := fun h =>
    List.disjoint_of_nodup_append nodup h (by simp)
  have front : doc.Rows X₁ := by
    cases X₂ with
    | nil => rwa [List.append_nil] at rows
    | cons x X₂ => exact (rows.split (group.on x (by simp)).1).1
  refine ⟨o, X₁, X₂, Y ++ tail, closing, ⟨layout', front, group, ?_⟩, ?_, ?_⟩
  · intro x hx
    rcases whole x (layout'.mem_children (List.mem_append_left _ hx)) with rfl | h
    · exact absurd (List.mem_cons_of_mem _ hx) notin
    · exact h
  · have split' : doc.children p = o :: (X₁ ++ X₂) ++ [target] ++ (Y ++ tail ++ closing) := by
      rw [split]
      simp
    have := (indexInParent_eq sound.linked split').2
    unfold indexInParent at this
    rw [(sound.linked.agree p target).mp hold, Option.bind_some] at this
    rw [this, List.length_cons, Nat.add_comm]
  · rw [split, List.cons_append, take_drop_behind]
    exact start

end Call

def placeAmong (o : AnnotateOptions) (doc : Document) (parent target : NodeId) (line : Nat)
    (rule : Text) : Except Fault (Document × Resolution) :=
  match doc.markupRange parent, (doc.children parent).findIdx? (· == target) with
  | some (start, stop), some position =>
    if position < start || stop ≤ position then .ok (doc, .skipped .noMarkupChildren)
    else
      let cs := doc.children parent
      let index := doc.groupStart line ((cs.take position).drop start).reverse position position
      match Resolution.ofMerge (doc.mergeBefore parent index rule).2 with
      | some r => .ok ((doc.mergeBefore parent index rule).1, r)
      | none => do
        let (room, index, indent) ←
          (doc.mergeBefore parent index rule).1.indentBefore cs start index position
        let (room, hole) := room.newMarkupComment (directiveText o .nextLine rule .block)
        let (room, newline) := room.newText (room.eol.text ++ indent)
        return (room.insertChildren parent index [hole, newline], .inserted)
  | _, _ => .ok (doc, .skipped .noMarkupChildren)

section Call

variable {source : Text} {doc : Document} {p target : NodeId}

theorem attachAmong_eq_place (o : AnnotateOptions) (line : Nat) (rule : Text)
    (markup : (doc.kind p).hasMarkupChildren = true)
    (own : ∀ e, doc.commentSlot target = some e →
      doc.mergeInto e .inner rule = (doc, .notADirective)) :
    attachAmongSiblings o doc p target line rule =
      (doc.segmentChildren p target >>= fun cut => cut.placeAmong o p target line rule) := by
  unfold attachAmongSiblings
  simp only [markup, Bool.not_true, Bool.false_eq_true, if_false]
  rcases slot : doc.commentSlot target with _ | e
  rotate_left
  dsimp only
  rw [own e slot]
  all_goals
    dsimp only [Resolution.ofMerge]
    refine bind_congr fun cut => ?_
    unfold placeAmong
    cases cut.markupRange p with
    | none => rfl
    | some range =>
      cases (cut.children p).findIdx? (· == target) with
      | none => rfl
      | some position =>
        dsimp only
        split
        · rfl
        · generalize cut.groupStart line _ position position = index
          generalize cut.mergeBefore p index rule = merged
          obtain ⟨d, result⟩ := merged
          cases result with
          | notADirective => rfl
          | alreadySuppressed => rfl
          | merged => rfl

theorem newNote_eq (room : Document) (body gap : Text) :
    ((room.newMarkupComment body).1.newText gap).1 = room.withNote body [gap] ∧
    [(room.newMarkupComment body).2, ((room.newMarkupComment body).1.newText gap).2] =
      [room.nodes.size, room.nodes.size + 2] := by
  refine ⟨rfl, ?_⟩
  unfold newText
  rw [alloc_snd, newMarkupComment_size]
  rfl

theorem Rows.gap_slot {X : List NodeId} {b : NodeId} (rows : doc.Rows X) (last : b ∈ X.getLast?)
    (gap : doc.Gap b) : ∃ e c, doc.nearestSlot X = some e ∧
      (doc.node e).comments .inner = [c] ∧ (Directive.parse? c.text).isSome = true := by
  obtain ⟨Z, rfl⟩ := List.getLast?_eq_some_iff.mp last
  rcases rows.ends with ⟨spanned, -⟩ | ⟨ys, h, rfl, note, -, -⟩
  · exact absurd gap.span_eq spanned
  · rw [List.append_assoc]
    exact nearestSlot_note note gap

/-- A merge that settles nothing leaves the document alone. -/
theorem mergeInto_unsettled {e : NodeId} {slot : Slot} {rule : Text}
    (h : Resolution.ofMerge (doc.mergeInto e slot rule).2 = none) :
    doc.mergeInto e slot rule = (doc, .notADirective) := by
  rcases doc.mergeInto_cases e slot rule with same | ⟨same, -⟩ | ⟨cs, c, c', -, -, same⟩
  · exact same
  · rw [same] at h
    cases h
  · rw [same] at h
    cases h

theorem mergeBefore_cases {first : NodeId} {X R closing : List NodeId}
    (layout : doc.Layout p first (X ++ R) closing)
    (markup : (doc.kind p).hasMarkupChildren = true) (rows : doc.Rows X) (rule : Text) :
    (∃ e r, doc.nearestSlot X = some e ∧
      Resolution.ofMerge (doc.mergeInto e .inner rule).2 = some r ∧
      doc.mergeBefore p (1 + X.length) rule = doc.mergeInto e .inner rule) ∨
    doc.mergeBefore p (1 + X.length) rule = (doc, .notADirective) ∧
      ∀ b ∈ X.getLast?, ¬ doc.Gap b := by
  have look := mergeBefore_eq layout markup rule
  cases slot : doc.nearestSlot X with
  | none =>
    rw [slot] at look
    refine .inr ⟨look, fun b last gap => ?_⟩
    obtain ⟨e, c, found, -, -⟩ := rows.gap_slot last gap
    exact absurd (slot.symm.trans found) nofun
  | some e =>
    rw [slot] at look
    cases settled : Resolution.ofMerge (doc.mergeInto e .inner rule).2 with
    | some r => exact .inl ⟨e, r, rfl, settled, look⟩
    | none =>
      have unread := mergeInto_unsettled settled
      refine .inr ⟨look.trans unread, fun b last gap => ?_⟩
      obtain ⟨e', c, found, held, parses⟩ := rows.gap_slot last gap
      cases slot.symm.trans found
      exact mergeInto_handled (by rw [held]; rfl) parses rule (by rw [unread])

theorem placeAmong_tag (o : AnnotateOptions) (line : Nat) (rule : Text)
    (arranged : doc.Arranged p) (markup : (doc.kind p).hasMarkupChildren = true)
    (hold : doc.Holds p target) (kind : doc.kind target = .openingTag) :
    doc.placeAmong o p target line rule = .ok (doc, .skipped .noMarkupChildren) := by
  obtain ⟨first, body, tail, closing, layout, -, -, -⟩ := arranged
  have same := layout.opening_eq hold kind
  have front : (doc.children p).findIdx? (· == target) = some 0 := by
    rw [layout.split, same, List.findIdx?_cons]
    simp
  unfold placeAmong
  rw [layout.markupRange markup, front]
  rfl

theorem Spot.insert_ok {first : NodeId} {line : Nat} {X₁ X₂ R closing : List NodeId}
    (sound : doc.Sound source) (reached : doc.Reaches p)
    (spot : doc.Spot p target line first X₁ X₂ R closing)
    (flat : ∀ b ∈ X₁.getLast?, ¬ doc.Gap b) (body : Text) :
    ∃ room Z G indent doc', doc.indentBefore (doc.children p) 1 (1 + X₁.length)
        (1 + (X₁ ++ X₂).length) = .ok (room, 1 + Z.length, indent) ∧
      Room doc p target first X₁ X₂ R closing room Z G indent ∧
      room.Noted doc' p (first :: Z) (G ++ target :: R ++ closing) none body
        (room.eol.text ++ indent) ∧
      (room.withNote body [room.eol.text ++ indent]).insertChildren p (1 + Z.length)
        [room.nodes.size, room.nodes.size + 2] = doc' := by
  have valid : p < doc.nodes.size := sound.reaches_lt reached
  have note : ∀ (room : Document) (Z G : List NodeId) (indent : Text), p < room.nodes.size →
      room.children p = first :: (Z ++ (G ++ target :: R ++ closing)) →
      room.Noted ((room.withNote body [room.eol.text ++ indent]).insertChildren p (1 + Z.length)
        [room.nodes.size, room.nodes.size + 2]) p (first :: Z) (G ++ target :: R ++ closing) none body
        (room.eol.text ++ indent) := by
    intro room Z G indent lt split
    have := noted_pair lt (A := first :: Z) (C := G ++ target :: R ++ closing)
      (by rw [split]; rfl) body (room.eol.text ++ indent)
    rwa [List.length_cons, Nat.add_comm] at this
  rcases indentBefore_cases sound reached spot.layout with
    ⟨x, G, t, rfl, own, result⟩ | ⟨alien, ⟨Z, b, a, run, room, rfl, value, ne, blank, free, recut,
      result⟩ | ⟨plain, result⟩⟩
  · refine ⟨doc, X₁ ++ [x], G, t, _, result, .own rfl own, note _ _ _ _ valid ?_, rfl⟩
    rw [spot.layout.split]
    simp
  · have spanned : doc.span b ≠ none := by
      rcases spot.rows.ends with ⟨spanned, -⟩ | ⟨ys, h, -, -, gap, -⟩
      · exact spanned
      · exact absurd gap (flat b (by simp))
    obtain ⟨s, span⟩ := Option.ne_none_iff_exists'.mp spanned
    refine ⟨room, Z ++ [doc.nodes.size, doc.nodes.size + 1], X₂, run, _, result,
      .split rfl value span ne blank free recut, note _ _ _ _ ?_ ?_, rfl⟩
    · exact Nat.lt_of_lt_of_le valid recut.splice.grows
    · unfold children
      rw [recut.splice.here]
      simp [List.range'_succ]
  · refine ⟨doc, X₁, X₂, [], _, result, .flush alien plain, note _ _ _ _ valid ?_, rfl⟩
    rw [spot.layout.split]
    simp

theorem placeAmong_ok (o : AnnotateOptions) (line : Nat) (rule : Text) (sound : doc.Sound source)
    (reached : doc.Reaches p) (markup : (doc.kind p).hasMarkupChildren = true)
    (hold : doc.Holds p target) (spanned : doc.span target ≠ none)
    (ahead : doc.kind target ≠ .closingTag)
    (whole : ∀ x, doc.Holds p x → x = target ∨ doc.Whole x) :
    ∃ doc' r, doc.placeAmong o p target line rule = .ok (doc', r) ∧
      AmongSiblings o rule line p target doc doc' r := by
  by_cases tag : doc.kind target = .openingTag
  · exact ⟨doc, _, placeAmong_tag o line rule ((sound.each p reached).arranged markup) markup hold
      tag, .tag tag⟩
  · obtain ⟨first, X₁, X₂, R, closing, spot, position, start⟩ :=
      sound.spot reached markup hold spanned ⟨tag, ahead⟩ whole line
    have inside : ¬ ((1 + (X₁ ++ X₂).length < 1 ||
        1 + (X₁ ++ X₂ ++ target :: R).length ≤ 1 + (X₁ ++ X₂).length) = true) := by
      simp
    have layout : doc.Layout p first (X₁ ++ (X₂ ++ target :: R)) closing := by
      rw [← List.append_assoc]
      exact spot.layout
    unfold placeAmong
    rw [spot.layout.markupRange markup, position]
    dsimp only
    rw [if_neg inside, start]
    rcases mergeBefore_cases layout markup spot.rows rule with
      ⟨e, r, slot, settled, merged⟩ | ⟨merged, flat⟩
    · rw [merged, settled]
      exact ⟨_, r, rfl, .merge spot slot settled⟩
    · rw [merged]
      obtain ⟨room, Z, G, indent, doc', result, made, noted, rfl⟩ :=
        spot.insert_ok sound reached flat (directiveText o .nextLine rule .block)
      refine ⟨_, _, ?_, .insert spot flat made noted⟩
      dsimp only [Resolution.ofMerge]
      rw [result]
      obtain ⟨doc_eq, ids⟩ := newNote_eq room (directiveText o .nextLine rule .block)
        (room.eol.text ++ indent)
      rw [← doc_eq, ← ids]
      rfl

/-- A call for a child: it has no business there, a markup comment takes the rule, or the child needs
one in front of it. -/
theorem attachAmong_cases (o : AnnotateOptions) (doc : Document) (p target : NodeId) (line : Nat)
    (rule : Text) :
    (doc.kind p).hasMarkupChildren = false ∧
      attachAmongSiblings o doc p target line rule = .ok (doc, .skipped .noMarkupChildren) ∨
    (doc.kind p).hasMarkupChildren = true ∧
      ((∃ e r, doc.commentSlot target = some e ∧
        Resolution.ofMerge (doc.mergeInto e .inner rule).2 = some r ∧
        attachAmongSiblings o doc p target line rule = .ok ((doc.mergeInto e .inner rule).1, r)) ∨
      (∀ e, doc.commentSlot target = some e → doc.mergeInto e .inner rule = (doc, .notADirective)) ∧
        attachAmongSiblings o doc p target line rule =
          (doc.segmentChildren p target >>= fun cut => cut.placeAmong o p target line rule)) := by
  cases markup : (doc.kind p).hasMarkupChildren with
  | false =>
    refine .inl ⟨rfl, ?_⟩
    unfold attachAmongSiblings
    rw [markup]
    rfl
  | true =>
    refine .inr ⟨rfl, ?_⟩
    by_cases own : ∃ e r, doc.commentSlot target = some e ∧
        Resolution.ofMerge (doc.mergeInto e .inner rule).2 = some r
    · obtain ⟨e, r, slot, settled⟩ := own
      refine .inl ⟨e, r, slot, settled, ?_⟩
      unfold attachAmongSiblings
      simp only [markup, slot, settled, Bool.not_true, Bool.false_eq_true, if_false]
      rfl
    · have unread : ∀ e, doc.commentSlot target = some e →
          doc.mergeInto e .inner rule = (doc, .notADirective) := by
        intro e slot
        refine mergeInto_unsettled (Option.eq_none_iff_forall_ne_some.mpr fun r settled => ?_)
        exact own ⟨e, r, slot, settled⟩
      exact .inr ⟨unread, attachAmong_eq_place o line rule markup unread⟩

theorem attachAmong_ok (o : AnnotateOptions) (line : Nat) (rule : Text) (sound : doc.Sound source)
    (reached : doc.Reaches p) (hold : doc.Holds p target) (spanned : doc.span target ≠ none)
    (ahead : doc.kind target ≠ .closingTag) :
    ∃ doc' r, attachAmongSiblings o doc p target line rule = .ok (doc', r) ∧
      AttachAmong o rule line p target doc doc' r := by
  rcases attachAmong_cases o doc p target line rule with
    ⟨childless, result⟩ | ⟨markup, ⟨e, r, slot, settled, result⟩ | ⟨unread, onward⟩⟩
  · exact ⟨doc, _, result, .childless childless⟩
  · exact ⟨_, r, result, .own markup slot settled⟩
  · obtain ⟨cut, segmented, slits, whole⟩ := segmentChildren_ok target sound reached markup
    obtain ⟨sound', reached', kind', keep'⟩ := slits.spec sound reached markup
    obtain ⟨hold', kind'', span'⟩ := keep' hold
    obtain ⟨doc', r, placed, among⟩ := placeAmong_ok o line rule sound' reached'
      (by rw [kind', markup]) hold' (by rw [span']; exact spanned) (by rw [kind'']; exact ahead)
      whole
    refine ⟨doc', r, ?_, .placed markup unread segmented slits among⟩
    rw [onward, segmented]
    exact placed

end Call
end Quell.Document
