import Quell.Proofs.Annotate.Deed
import Quell.Proofs.Annotate.Idle

/-!
Which deed a call comes to.

`Stands` says it for a target, of a document in which the texts of an element that is to get a
comment are cut already. A call does just this deed: `Stands.call`. What it depends on are the
children on the way back from the target to the next thing that is not blank.
-/
namespace Quell.Document

open Text Relation

variable {source : Text} {o : AnnotateOptions} {rule : Text} {line : Nat} {u u' : Document}

theorem settled_of_directed {id : NodeId} {slot : Slot} (directed : (u.node id).directed slot = true)
    (rule : Text) : ∃ r, Resolution.ofMerge (u.mergeInto id slot rule).2 = some r := by
  obtain ⟨cs, c, split, parses⟩ := Node.directed_iff.mp directed
  have handled := mergeInto_handled (by rw [split, List.getLast?_concat]) parses rule
  cases h : Resolution.ofMerge (u.mergeInto id slot rule).2 with
  | some r => exact ⟨r, rfl⟩
  | none => exact absurd (by rw [mergeInto_unsettled h]) handled

theorem unread_of_not_directed {id : NodeId} {slot : Slot}
    (bare : (u.node id).directed slot = false) (rule : Text) :
    u.mergeInto id slot rule = (u, .notADirective) := by
  refine mergeInto_unsettled (Option.eq_none_iff_forall_ne_some.mpr fun r settled => ?_)
  rw [directed_of_settled settled] at bare
  cases bare

theorem serveAt_within {id : NodeId} (directed : (u.node id).directed .inner = true)
    {r : Resolution} (settled : Resolution.ofMerge (u.mergeInto id .inner rule).2 = some r) :
    u.serveAt id (withinWay o) rule = ((u.mergeInto id .inner rule).1, r) := by
  refine serveAt_of_settled ?_ settled
  change List.find? _ [Slot.inner] = _
  rw [List.find?_cons_of_pos directed]

theorem trailingIndent_break {a run : Text} (ne : run ≠ []) (blank : allBlank run = true)
    (free : '\n' ∉ run) : trailingIndent (a ++ ['\n'] ++ run) = some run := by
  have last := lastLine_eq (a := a ++ ['\n']) (.inr ⟨a, rfl⟩) free
  unfold lastLine at last
  unfold trailingIndent
  cases found : splitLast? '\n' (a ++ ['\n'] ++ run) with
  | none => exact absurd (splitLast?_eq_none.mp found) (by simp)
  | some x =>
    obtain ⟨front, tail⟩ := x
    rw [found] at last
    obtain rfl : tail = run := last
    simp [ne, blank]

/-- The target is a child of an element and starts on the line. -/
structure Seated (u : Document) (line : Nat) (id p : NodeId) : Prop where
  above : u.Reaches p
  hold : u.Holds p id
  start : ∃ s, u.span id = some s ∧ s.startLine = line

theorem Seated.spanned {id p : NodeId} (seated : u.Seated line id p) : u.span id ≠ none := by
  obtain ⟨s, hs, -⟩ := seated.start
  rw [hs]
  exact nofun

theorem Sound.seated (sound : u.Sound source) {id : NodeId} {q : Option NodeId}
    (found : u.locate line = some (.node id q)) : ∃ p, q = some p ∧ u.Seated line id p := by
  rw [sound.locate_eq] at found
  cases first : u.startingOn line with
  | nil =>
    rw [first] at found
    cases found
  | cons h rest =>
    rw [first, List.head?_cons, Option.map_some, Option.some.injEq] at found
    obtain ⟨-, starts, p, link, above, -⟩ := sound.first_spec first
    rcases aim_node link with aim | ⟨block, aim⟩
    · rw [aim] at found
      cases found
      exact ⟨p, rfl, above, (sound.linked.agree p id).mpr link, starts.2.2⟩
    · rw [aim] at found
      cases found

/-- A target that a line may have. -/
def Suits (u : Document) (line : Nat) : Target → Prop
  | .node id q => ∃ p, q = some p ∧ u.Seated line id p
  | .blockTail block => u.Reaches block ∧ u.kind block = .block

theorem Sound.suits (sound : u.Sound source) {t : Target} (found : u.locate line = some t) :
    u.Suits line t := by
  cases t with
  | node id q => exact sound.seated found
  | blockTail block => exact sound.reaches_of_tail found

structure Sits (u : Document) (line : Nat) (p target first : NodeId) (X₁ X₂ R closing : List NodeId) :
    Prop where
  layout : u.Layout p first (X₁ ++ X₂ ++ target :: R) closing
  group : u.Group line X₁ X₂

/-- Where in front of a group a comment goes, what it takes the place of, what of the group stands
behind it, and the indentation of its line. -/
inductive Parting (u : Document) (X₁ X₂ : List NodeId) :
    List NodeId → List NodeId → List NodeId → List Text → Text → Prop where
  | own {x : NodeId} {G : List NodeId} {t : Text} : X₂ = x :: G → u.OwnIndent X₁ x t →
      Parting u X₁ X₂ (X₁ ++ [x]) [] G [] t
  | split {Z : List NodeId} {b : NodeId} {a run : Text} : X₁ = Z ++ [b] →
      (∀ x G t, X₂ = x :: G → ¬ u.OwnIndent X₁ x t) → u.text? b = some (a ++ ['\n'] ++ run) →
      run ≠ [] → allBlank run = true → '\n' ∉ run →
      Parting u X₁ X₂ Z [b] X₂ [a ++ ['\n'], run] run
  | flush : (∀ x G t, X₂ = x :: G → ¬ u.OwnIndent X₁ x t) →
      (∀ b ∈ X₁.getLast?, ∀ t, u.text? b = some t → trailingIndent t = none) →
      Parting u X₁ X₂ X₁ [] X₂ [] []

/-- The target is a child of an element, and no directive stands in it. -/
structure Among (u : Document) (id p : NodeId) : Prop where
  last : u.kind id ≠ .closingTag
  beside : ¬ u.Beside id p
  markup : (u.kind p).hasMarkupChildren = true
  own : ∀ e, u.commentSlot id = some e → (u.node e).directed .inner = false

/-- What a call for a target comes to. -/
inductive Stands (o : AnnotateOptions) (line : Nat) (u : Document) : Target → Deed → Prop where
  | beside {id p : NodeId} : u.kind id ≠ .closingTag → u.Beside id p →
      Stands o line u (.node id (some p)) (.serve id (besideWay o))
  | behind {block last : NodeId} : (u.children block).getLast? = some last →
      Stands o line u (.blockTail block) (.serve last (behindWay o))
  | within {block : NodeId} : u.children block = [] → (u.node block).directed .inner = true →
      Stands o line u (.blockTail block) (.serve block (withinWay o))
  | fill {block : NodeId} : u.children block = [] → (u.node block).directed .inner = false →
      Stands o line u (.blockTail block) (.fill block)
  | childless {id p : NodeId} : (u.kind id = .closingTag ∨ ¬ u.Beside id p) →
      (u.kind p).hasMarkupChildren = false →
      Stands o line u (.node id (some p)) (.skip .noMarkupChildren)
  | handled {id p first e : NodeId} {items : List NodeId} : u.kind id = .closingTag →
      (u.kind p).hasMarkupChildren = true → u.Layout p first items [id] →
      u.nearestSlot items = some e → (u.node e).directed .inner = true →
      Stands o line u (.node id (some p)) (.serve e (withinWay o))
  | last {id p first : NodeId} {items : List NodeId} {found : Option Text} :
      u.kind id = .closingTag → (u.kind p).hasMarkupChildren = true → u.Layout p first items [id] →
      (∀ e, u.nearestSlot items = some e → (u.node e).directed .inner = false) →
      trailingIndent (u.tailText items.reverse) = found →
      Stands o line u (.node id (some p))
        (.note p (first :: items) [] [id] [] (found.map Press.indentUnit) (found.getD []))
  | own {id p e : NodeId} : u.kind id ≠ .closingTag → ¬ u.Beside id p →
      (u.kind p).hasMarkupChildren = true → u.commentSlot id = some e →
      (u.node e).directed .inner = true → Stands o line u (.node id (some p)) (.serve e (withinWay o))
  | tag {id p : NodeId} : u.Among id p → u.kind id = .openingTag →
      Stands o line u (.node id (some p)) (.skip .noMarkupChildren)
  | near {id p first e : NodeId} {X₁ X₂ R closing : List NodeId} : u.Among id p →
      u.Sits line p id first X₁ X₂ R closing → u.nearestSlot X₁ = some e →
      (u.node e).directed .inner = true → Stands o line u (.node id (some p)) (.serve e (withinWay o))
  | room {id p first : NodeId} {X₁ X₂ R closing Z B G : List NodeId} {front : List Text}
      {indent : Text} : u.Among id p → u.Sits line p id first X₁ X₂ R closing →
      (∀ e, u.nearestSlot X₁ = some e → (u.node e).directed .inner = false) →
      u.Parting X₁ X₂ Z B G front indent →
      Stands o line u (.node id (some p))
        (.note p (first :: Z) B (G ++ id :: R ++ closing) front none indent)

/-- The texts beside the target are cut, if a comment is to go among them. -/
def Prepared (u : Document) : Target → Prop
  | .node id (some p) => u.Among id p → ∀ x, u.Holds p x → u.Whole x
  | _ => True

section Sits

variable {p id first e : NodeId} {X₁ X₂ R closing Z B G : List NodeId} {front : List Text}
variable {indent : Text}

theorem Sits.spot (sits : u.Sits line p id first X₁ X₂ R closing) (sound : u.Sound source)
    (seated : u.Seated line id p) (markup : (u.kind p).hasMarkupChildren = true)
    (plain : u.kind id ≠ .openingTag ∧ u.kind id ≠ .closingTag)
    (whole : ∀ x, u.Holds p x → u.Whole x) :
    u.Spot p id line first X₁ X₂ R closing ∧
      (u.children p).findIdx? (· == id) = some (1 + (X₁ ++ X₂).length) ∧
      u.groupStart line (((u.children p).take (1 + (X₁ ++ X₂).length)).drop 1).reverse
        (1 + (X₁ ++ X₂).length) (1 + (X₁ ++ X₂).length) = 1 + X₁.length := by
  obtain ⟨o, Y₁, Y₂, S, rest, spot, index, start⟩ := sound.spot seated.above markup seated.hold
    seated.spanned plain (fun x hx => .inr (whole x hx)) line
  obtain ⟨rfl, items, rfl⟩ := sits.layout.unique spot.layout
  have nodup := sound.linked.nodup p
  rw [sits.layout.split] at nodup
  have inner := (List.nodup_append.mp (List.nodup_cons.mp nodup).2).1
  obtain ⟨same, rfl⟩ := split_unique inner items.symm
  obtain ⟨rfl, rfl⟩ := sits.group.unique spot.group same
  exact ⟨spot, index, start⟩

/-- Behind segmentation: the comment in front of the group takes the rule, or room is made. -/
theorem Spot.placeAmong_eq (spot : u.Spot p id line first X₁ X₂ R closing)
    (markup : (u.kind p).hasMarkupChildren = true)
    (index : (u.children p).findIdx? (· == id) = some (1 + (X₁ ++ X₂).length))
    (start : u.groupStart line (((u.children p).take (1 + (X₁ ++ X₂).length)).drop 1).reverse
      (1 + (X₁ ++ X₂).length) (1 + (X₁ ++ X₂).length) = 1 + X₁.length)
    (o : AnnotateOptions) (rule : Text) :
    u.placeAmong o p id line rule =
      match Resolution.ofMerge (u.mergeBefore p (1 + X₁.length) rule).2 with
      | some r => .ok ((u.mergeBefore p (1 + X₁.length) rule).1, r)
      | none => do
        let (room, index, indent) ← (u.mergeBefore p (1 + X₁.length) rule).1.indentBefore
          (u.children p) 1 (1 + X₁.length) (1 + (X₁ ++ X₂).length)
        let body := directiveText o .nextLine rule .block
        return ((room.withNote body [room.eol.text ++ indent]).insertChildren p index
          [room.nodes.size, room.nodes.size + 2], .inserted) := by
  have inside : ¬ ((1 + (X₁ ++ X₂).length < 1 ||
      1 + (X₁ ++ X₂ ++ id :: R).length ≤ 1 + (X₁ ++ X₂).length) = true) := by
    simp
  unfold placeAmong
  rw [spot.layout.markupRange markup, index]
  dsimp only
  rw [if_neg inside, start]
  cases Resolution.ofMerge (u.mergeBefore p (1 + X₁.length) rule).2 with
  | some r => rfl
  | none =>
    dsimp only
    refine bind_congr fun made => ?_
    obtain ⟨room, at_, indent⟩ := made
    obtain ⟨same, ids⟩ := newNote_eq room (directiveText o .nextLine rule .block)
      (room.eol.text ++ indent)
    dsimp only
    rw [← same, ← ids]
    rfl

theorem Spot.room (spot : u.Spot p id line first X₁ X₂ R closing) (sound : u.Sound source)
    (above : u.Reaches p) (parting : u.Parting X₁ X₂ Z B G front indent) (body : Text) :
    ∃ room u' N index, u.indentBefore (u.children p) 1 (1 + X₁.length) (1 + (X₁ ++ X₂).length) =
        .ok (room, index, indent) ∧
      u' = (room.withNote body [room.eol.text ++ indent]).insertChildren p index
        [room.nodes.size, room.nodes.size + 2] ∧
      (∀ b ∈ B, u.isBlankText b = true) ∧
      u.Inserts p (first :: Z) (G ++ id :: R ++ closing) none body (u.eol.text ++ indent) B front
        u' N := by
  have valid : p < u.nodes.size := sound.reaches_lt above
  have noted : ∀ (room : Document) (Y D : List NodeId) (indent : Text), p < room.nodes.size →
      room.children p = first :: (Y ++ D) →
      room.Noted ((room.withNote body [room.eol.text ++ indent]).insertChildren p (1 + Y.length)
        [room.nodes.size, room.nodes.size + 2]) p (first :: Y) D none body
        (room.eol.text ++ indent) := by
    intro room Y D indent lt split
    have made := noted_pair lt (A := first :: Y) (C := D) (by rw [split]; rfl) body
      (room.eol.text ++ indent)
    rwa [List.length_cons, Nat.add_comm] at made
  have split := spot.layout.split
  rcases indentBefore_cases sound above spot.layout with
    ⟨x, D, t, rfl, own, result⟩ | ⟨alien, ⟨Y, b, a, run, room, rfl, value, ne, blank, free, recut,
      result⟩ | ⟨plain, result⟩⟩
  · cases parting with
    | own shape own' =>
      cases shape
      cases own.1.symm.trans own'.1
      refine ⟨_, _, _, _, result, rfl, nofun, .beside (noted u _ _ _ valid ?_)⟩
      rw [split]
      simp
    | split _ alien => exact absurd own (alien _ _ _ rfl)
    | flush alien => exact absurd own (alien _ _ _ rfl)
  · cases parting with
    | own shape own' => exact absurd own' (alien _ _ _ shape)
    | @split _ b' a' _ shape _ value' ne' blank' free' =>
      obtain ⟨rfl, rfl⟩ : Y = Z ∧ b = b' := by simpa using shape
      have same := trailingIndent_break (a := a) ne blank free
      have texts : a ++ ['\n'] ++ run = a' ++ ['\n'] ++ indent := Option.some.inj (value.symm.trans value')
      rw [texts, trailingIndent_break ne' blank' free'] at same
      cases same
      obtain rfl : a = a' := by simpa using texts
      have pair : (first :: Y) ++ List.range' u.nodes.size [a ++ ['\n'], indent].length =
          first :: (Y ++ [u.nodes.size, u.nodes.size + 1]) := by
        simp [List.range'_succ]
      have made := noted room (Y ++ [u.nodes.size, u.nodes.size + 1]) (X₂ ++ id :: R ++ closing) indent
        (Nat.lt_of_lt_of_le valid recut.splice.grows) (by
          rw [recut.splice.children_here]
          simp [List.range'_succ])
      rw [← pair] at made
      have eol := recut.splice.eol
      refine ⟨_, _, _, _, result, rfl, fun x hx => ?_, .parted recut (by rw [← eol]; exact made)⟩
      rw [List.mem_singleton.mp hx]
      unfold isBlankText
      rw [value]
      exact (spot.whole b (by simp) _ value).blank_of_break (by simp)
    | flush _ plain =>
      have none := plain b (by simp) _ value
      rw [trailingIndent_break ne blank free] at none
      cases none
  · cases parting with
    | own shape own' => exact absurd own' (alien _ _ _ shape)
    | split shape _ value ne blank free =>
      have none := plain _ (by rw [shape, List.getLast?_concat]; rfl) _ value
      rw [trailingIndent_break ne blank free] at none
      cases none
    | flush =>
      refine ⟨_, _, _, _, result, rfl, nofun, .beside (noted u _ _ _ valid ?_)⟩
      rw [split]
      simp

end Sits

section Call

variable {t : Target} {d : Deed}

theorem attachToBlockTail_behind {block last : NodeId} (o : AnnotateOptions) (rule : Text)
    (found : (u.children block).getLast? = some last) :
    attachToBlockTail o u block rule = u.serveAt last (behindWay o) rule := by
  have filled : ¬ (u.children block).isEmpty = true := by
    rw [List.isEmpty_iff]
    intro nil
    rw [nil] at found
    cases found
  unfold attachToBlockTail
  rw [if_neg filled, attachBehindLast_eq o rule found]

theorem attachToBlockTail_within {block : NodeId} (o : AnnotateOptions) (rule : Text)
    (empty : u.children block = []) (directed : (u.node block).directed .inner = true) :
    attachToBlockTail o u block rule = u.serveAt block (withinWay o) rule := by
  obtain ⟨r, settled⟩ := settled_of_directed directed rule
  rw [serveAt_within directed settled]
  unfold attachToBlockTail
  rw [empty, List.isEmpty_nil, if_pos rfl]
  dsimp only
  rw [settled]

theorem attachToBlockTail_fill {block : NodeId} (o : AnnotateOptions) (rule : Text)
    (valid : block < u.nodes.size) (empty : u.children block = [])
    (bare : (u.node block).directed .inner = false) : attachToBlockTail o u block rule =
      (u.addPlaceholder block).1.serveAt u.nodes.size (behindWay o) rule := by
  unfold attachToBlockTail
  rw [empty, List.isEmpty_nil, if_pos rfl, unread_of_not_directed bare rule]
  refine attachBehindLast_eq o rule ?_
  rw [addPlaceholder_children valid empty]
  rfl

theorem fill_answer {block : NodeId} (valid : block < u.nodes.size) (o : AnnotateOptions) (rule : Text) :
    ((u.addPlaceholder block).1.serveAt u.nodes.size (behindWay o) rule).2 = .inserted := by
  unfold serveAt
  rw [(addPlaceholder_spec valid).2.2]
  rfl

theorem attachBeforeClosing_handled {p first e : NodeId} {items closing : List NodeId}
    (layout : u.Layout p first items closing) (markup : (u.kind p).hasMarkupChildren = true)
    (near : u.nearestSlot items = some e) {r : Resolution}
    (settled : Resolution.ofMerge (u.mergeInto e .inner rule).2 = some r) (o : AnnotateOptions) :
    attachBeforeClosing o u p rule = ((u.mergeInto e .inner rule).1, r) := by
  have look := mergeBefore_eq (R := []) (by rwa [List.append_nil]) markup rule
  rw [near] at look
  unfold attachBeforeClosing
  rw [layout.markupRange markup]
  dsimp only
  rw [look]
  dsimp only
  rw [settled]

theorem Among.attach {id p : NodeId} (among : u.Among id p) (whole : ∀ x, u.Holds p x → u.Whole x)
    (o : AnnotateOptions) (line : Nat) (rule : Text) :
    attachAmongSiblings o u p id line rule = u.placeAmong o p id line rule := by
  rcases attachAmong_cases o u p id line rule with
    ⟨childless, -⟩ | ⟨-, ⟨e, r, slot, settled, -⟩ | ⟨-, onward⟩⟩
  · exact absurd among.markup (by rw [childless]; exact nofun)
  · exact absurd (directed_of_settled settled) (by rw [among.own e slot]; exact nofun)
  · rw [onward, segmentChildren_of_whole fun x hx => .inr (whole x hx)]
    rfl

/-- The call for a target. -/
def annotateAt (o : AnnotateOptions) (doc : Document) (t : Target) (line : Nat) (rule : Text) :
    Except Fault (Document × Resolution) :=
  match t with
  | .blockTail block => .ok (attachToBlockTail o doc block rule)
  | .node id parent => annotateNode o doc id parent line rule

theorem annotateOne_of_locate (found : u.locate line = some t) (o : AnnotateOptions) (rule : Text) :
    u.annotateOne o line rule = u.annotateAt o t line rule := by
  unfold annotateOne
  rw [found]
  cases t <;> rfl

theorem Stands.call (stands : Stands o line u t d) (sound : u.Sound source) (suits : u.Suits line t)
    (prepared : u.Prepared t) (rule : Text) :
    ∃ u', u.annotateAt o t line rule = .ok (u', d.answer u rule) ∧ u.Does o rule d u' := by
  have node : ∀ {id p : NodeId}, t = .node id (some p) → u.Seated line id p ∧ p < u.nodes.size := by
    rintro id p rfl
    obtain ⟨_, same, seated⟩ := suits
    cases same
    exact ⟨seated, sound.reaches_lt seated.above⟩
  have tail : ∀ {block : NodeId}, t = .blockTail block →
      block < u.nodes.size ∧ u.kind block = .block := by
    rintro block rfl
    exact ⟨sound.reaches_lt suits.1, suits.2⟩
  have within : ∀ {e : NodeId}, (u.node e).directed .inner = true → e < u.nodes.size →
      ∀ {r : Resolution}, Resolution.ofMerge (u.mergeInto e .inner rule).2 = some r →
      ∃ u', (.ok ((u.mergeInto e .inner rule).1, r) : Except Fault (Document × Resolution)) =
        .ok (u', (Deed.serve e (withinWay o)).answer u rule) ∧
        u.Does o rule (.serve e (withinWay o)) u' := by
    intro e directed valid r settled
    refine ⟨_, ?_, .serve valid (withinWay_fair o)⟩
    rw [Deed.answer, serveAt_within directed settled]
  have near_lt : ∀ {X : List NodeId} {e : NodeId}, u.nearestSlot X = some e → e < u.nodes.size := by
    intro X e near
    obtain ⟨h, -, hold, -⟩ := nearestSlot_holds near
    exact sound.linked.child_lt hold
  cases stands with
  | @beside id p kind beside =>
    obtain ⟨seated, -⟩ := node rfl
    rw [annotateAt, annotateNode_eq, if_neg kind, if_pos beside, attachOrdinary_eq]
    exact ⟨_, rfl, .serve (sound.linked.child_lt seated.hold) (besideWay_fair o)⟩
  | @behind block last found' =>
    rw [annotateAt, attachToBlockTail_behind o rule found']
    exact ⟨_, rfl, .serve (sound.linked.child_lt (List.mem_of_getLast? found')) (behindWay_fair o)⟩
  | within empty directed =>
    obtain ⟨valid, -⟩ := tail rfl
    rw [annotateAt, attachToBlockTail_within o rule empty directed]
    exact ⟨_, rfl, .serve valid (withinWay_fair o)⟩
  | fill empty bare =>
    obtain ⟨valid, kind⟩ := tail rfl
    rw [annotateAt, attachToBlockTail_fill o rule valid empty bare]
    exact ⟨_, congrArg Except.ok (Prod.ext rfl (fill_answer valid o rule)), .fill valid kind empty⟩
  | @childless id p place childless =>
    rw [annotateAt, annotateNode_eq]
    refine ⟨u, ?_, .skip⟩
    by_cases closing : u.kind id = .closingTag
    · rw [if_pos closing, attachBeforeClosing_childless o rule childless]
      rfl
    · rw [if_neg closing, if_neg (place.resolve_left closing)]
      rcases attachAmong_cases o u p id line rule with ⟨-, result⟩ | ⟨markup, -⟩
      · exact result
      · exact absurd markup (by rw [childless]; exact nofun)
  | @handled id p first e items closing markup layout near directed =>
    obtain ⟨r, settled⟩ := settled_of_directed directed rule
    rw [annotateAt, annotateNode_eq, if_pos closing, attachBeforeClosing_handled layout markup near settled]
    exact within directed (near_lt near) settled
  | @last id p first items found closing markup layout bare indent =>
    obtain ⟨seated, valid⟩ := node rfl
    obtain ⟨first', items', layout', ⟨e, r, near, settled, -⟩ | ⟨-, doc', indent', same, noted,
      result⟩⟩ := attachBeforeClosing_cases o sound seated.above markup seated.hold closing rule
    · obtain ⟨-, rfl, -⟩ := layout.unique layout'
      exact absurd (directed_of_settled settled) (by rw [bare e near]; exact nofun)
    · obtain ⟨rfl, rfl, -⟩ := layout.unique layout'
      cases indent.symm.trans same
      rw [annotateAt, annotateNode_eq, if_pos closing, result]
      exact ⟨doc', rfl, .note valid markup nofun (.beside noted)⟩
  | @own id p e ahead alone markup slot directed =>
    obtain ⟨r, settled⟩ := settled_of_directed directed rule
    rw [annotateAt, annotateNode_eq, if_neg ahead, if_neg alone]
    rcases attachAmong_cases o u p id line rule with
      ⟨childless, -⟩ | ⟨-, ⟨e', r', slot', settled', result⟩ | ⟨unread, -⟩⟩
    · exact absurd markup (by rw [childless]; exact nofun)
    · cases slot.symm.trans slot'
      cases settled.symm.trans settled'
      rw [result]
      exact within directed (sound.linked.child_lt (commentSlot_holds slot).1) settled
    · rw [unread e slot] at settled
      cases settled
  | @tag id p among opening =>
    obtain ⟨seated, -⟩ := node rfl
    rw [annotateAt, annotateNode_eq, if_neg among.last, if_neg among.beside,
      among.attach (prepared among), placeAmong_tag o line rule
        ((sound.each p seated.above).arranged among.markup) among.markup seated.hold opening]
    exact ⟨u, rfl, .skip⟩
  | @near id p first e X₁ X₂ R closing among sits near directed =>
    obtain ⟨seated, -⟩ := node rfl
    obtain ⟨r, settled⟩ := settled_of_directed directed rule
    obtain ⟨spot, index, start⟩ := sits.spot sound seated among.markup (sits.layout.items id (by simp)) (prepared among)
    rw [annotateAt, annotateNode_eq, if_neg among.last, if_neg among.beside,
      among.attach (prepared among), spot.placeAmong_eq among.markup index start]
    have look := mergeBefore_eq (R := X₂ ++ id :: R) (by rw [← List.append_assoc]; exact spot.layout)
      among.markup rule
    rw [near] at look
    rw [look]
    dsimp only
    rw [settled]
    exact within directed (near_lt near) settled
  | @room id p first X₁ X₂ R closing Z B G front indent among sits bare parting =>
    obtain ⟨seated, valid⟩ := node rfl
    obtain ⟨spot, index, start⟩ := sits.spot sound seated among.markup (sits.layout.items id (by simp)) (prepared among)
    rw [annotateAt, annotateNode_eq, if_neg among.last, if_neg among.beside,
      among.attach (prepared among), spot.placeAmong_eq among.markup index start]
    have look := mergeBefore_eq (R := X₂ ++ id :: R) (by rw [← List.append_assoc]; exact spot.layout)
      among.markup rule
    have unread : u.mergeBefore p (1 + X₁.length) rule = (u, .notADirective) := by
      rw [look]
      cases near : u.nearestSlot X₁ with
      | none => rfl
      | some e => exact unread_of_not_directed (bare e near) rule
    obtain ⟨room, u', N, at_, made, rfl, texts, inserts⟩ :=
      spot.room sound seated.above parting (directiveText o .nextLine rule .block)
    rw [unread]
    dsimp only [Resolution.ofMerge]
    rw [made]
    exact ⟨_, rfl, .note valid among.markup texts inserts⟩

theorem Spot.parting (sound : u.Sound source) {p id first : NodeId} {X₁ X₂ R closing : List NodeId}
    (spot : u.Spot p id line first X₁ X₂ R closing) (above : u.Reaches p) :
    ∃ Z B G front indent, u.Parting X₁ X₂ Z B G front indent := by
  rcases indentBefore_cases sound above spot.layout with
    ⟨x, G, t, shape, own, -⟩ | ⟨alien, ⟨Z, b, a, run, -, shape, value, ne, blank, free, -, -⟩ |
      ⟨plain, -⟩⟩
  · exact ⟨_, _, _, _, _, .own shape own⟩
  · exact ⟨_, _, _, _, _, .split shape alien value ne blank free⟩
  · exact ⟨_, _, _, _, _, .flush alien plain⟩

theorem Sound.stands (sound : u.Sound source) (suits : u.Suits line t)
    (prepared : u.Prepared t) (o : AnnotateOptions) : ∃ d, Stands o line u t d := by
  have bare : ∀ {X : List NodeId}, ¬ (∃ e, u.nearestSlot X = some e ∧
      (u.node e).directed .inner = true) →
      ∀ e, u.nearestSlot X = some e → (u.node e).directed .inner = false := fun h e near =>
    Bool.eq_false_iff.mpr fun directed => h ⟨e, near, directed⟩
  cases t with
  | blockTail block =>
    cases last : (u.children block).getLast? with
    | some last => exact ⟨_, .behind last⟩
    | none =>
      have empty := List.getLast?_eq_none_iff.mp last
      cases directed : (u.node block).directed .inner with
      | true => exact ⟨_, .within empty directed⟩
      | false => exact ⟨_, .fill empty directed⟩
  | node id q =>
    obtain ⟨p, rfl, seated⟩ := suits
    by_cases closing : u.kind id = .closingTag
    · cases markup : (u.kind p).hasMarkupChildren with
      | false => exact ⟨_, .childless (.inl closing) markup⟩
      | true =>
        obtain ⟨first, items, layout, -⟩ :=
          attachBeforeClosing_cases o sound seated.above markup seated.hold closing []
        by_cases near : ∃ e, u.nearestSlot items = some e ∧ (u.node e).directed .inner = true
        · obtain ⟨e, near, directed⟩ := near
          exact ⟨_, .handled closing markup layout near directed⟩
        · exact ⟨_, .last closing markup layout (bare near) rfl⟩
    by_cases beside : u.Beside id p
    · exact ⟨_, .beside closing beside⟩
    cases markup : (u.kind p).hasMarkupChildren with
    | false => exact ⟨_, .childless (.inr beside) markup⟩
    | true =>
      by_cases own : ∃ e, u.commentSlot id = some e ∧ (u.node e).directed .inner = true
      · obtain ⟨e, slot, directed⟩ := own
        exact ⟨_, .own closing beside markup slot directed⟩
      have among : u.Among id p := ⟨closing, beside, markup, fun e slot =>
        Bool.eq_false_iff.mpr fun directed => own ⟨e, slot, directed⟩⟩
      by_cases opening : u.kind id = .openingTag
      · exact ⟨_, .tag among opening⟩
      obtain ⟨first, X₁, X₂, R, rest, spot, -, -⟩ := sound.spot seated.above markup seated.hold
        seated.spanned ⟨opening, closing⟩ (fun x hx => .inr (prepared among x hx)) line
      have sits : u.Sits line p id first X₁ X₂ R rest := ⟨spot.layout, spot.group⟩
      by_cases near : ∃ e, u.nearestSlot X₁ = some e ∧ (u.node e).directed .inner = true
      · obtain ⟨e, near, directed⟩ := near
        exact ⟨_, .near among sits near directed⟩
      · obtain ⟨Z, B, G, front, indent, parting⟩ := spot.parting sound seated.above
        exact ⟨_, .room among sits (bare near) parting⟩

end Call

section Trims

variable {p q first : NodeId} {X C closing : List NodeId} {c : Deed}

/-- The texts of an element are cut, but for some at the end that are whole. -/
inductive Trims (u : Document) (p : NodeId) : Deed → Prop where
  | mk {first : NodeId} {X C closing : List NodeId} : u.Layout p first (X ++ C) closing →
      (∀ x ∈ C, u.Whole x) → Trims u p (.cut p [first] X (C ++ closing))

theorem segmentAll_whole {ids : List NodeId} (whole : ∀ x ∈ ids, u.Whole x) :
    u.segmentAll ids = .ok u := by
  induction ids with
  | nil => rfl
  | cons x ids ih =>
    unfold segmentAll at ih ⊢
    rw [List.foldlM_cons, segmentText_settled (whole x (by simp))]
    exact ih fun y hy => whole y (by simp [hy])

/-- It makes no difference that a child which is no text is passed over. -/
theorem segmentAll_keep {A Xs D : List NodeId} {keep : NodeId} (linked : u.Linked)
    (split : u.children q = A ++ Xs ++ D) (leaf : ∀ x ∈ Xs, u.text? x ≠ none → u.children x = [])
    (valid : keep < u.nodes.size) (solid : u.text? keep = none) :
    Xs.reverse.foldlM (fun d child => if child = keep then .ok d else d.segmentText child) u =
      u.segmentAll Xs.reverse := by
  induction Xs using List.reverseRecOn generalizing u D with
  | nil => rfl
  | append_singleton Xs x ih =>
    rw [← List.append_assoc] at split
    obtain ⟨cut, N, first, cuts⟩ := segmentText_cuts linked split (leaf x (by simp))
    have here := cuts.children_here split
    rw [List.append_assoc] at here
    have rest := fun y mem => cuts.rest linked split (List.mem_append_right A mem) (y := y)
    have step : (if x = keep then .ok u else u.segmentText x) = .ok cut := by
      split_ifs with same
      · have whole : u.Whole x := fun t ht => by
          rw [same, solid] at ht
          cases ht
        rw [← first, segmentText_settled whole]
      · exact first
    rw [segmentAll_concat, first, List.reverse_append, List.reverse_singleton, List.singleton_append,
      List.foldlM_cons, step]
    refine ih (cuts.linked linked) here (fun y mem text => ?_)
      (Nat.lt_of_lt_of_le valid cuts.spares.grows) ?_
    · rw [(rest y mem).2]
      exact leaf y (by simp [mem]) (by rw [← (rest y mem).1]; exact text)
    · unfold text? at solid ⊢
      rw [cuts.spares.kind keep valid]
      exact solid

theorem Layout.leaf (layout : u.Layout p first X closing) (sound : u.Sound source)
    (above : u.Reaches p) : ∀ x ∈ X, u.text? x ≠ none → u.children x = [] := by
  intro x hx text
  obtain ⟨t, ht⟩ := Option.ne_none_iff_exists'.mp text
  exact ((sound.each x (above.child (layout.mem_children hx))).text t ht).1

theorem Trims.segmentAll_eq (layout : u.Layout p first (X ++ C) closing) (whole : ∀ x ∈ C, u.Whole x)
    (sound : u.Sound source) (above : u.Reaches p) (markup : (u.kind p).hasMarkupChildren = true)
    {keep : NodeId} (valid : keep < u.nodes.size) (solid : u.text? keep = none) :
    u.segmentChildren p keep = u.segmentAll X.reverse := by
  have between : ((u.children p).take (1 + (X ++ C).length)).drop 1 = X ++ C := by
    rw [layout.split, take_drop_behind]
  have still := segmentAll_whole fun x hx => whole x (List.mem_reverse.mp hx)
  unfold segmentChildren
  rw [layout.markupRange markup]
  dsimp only
  rw [between, segmentAll_keep (A := [first]) (D := closing) sound.linked
    (by rw [layout.split]; simp) (layout.leaf sound above) valid solid, List.reverse_append]
  unfold segmentAll at still ⊢
  rw [List.foldlM_append, still]
  rfl

/-- The cut of an element, as the calls for its children make it. -/
theorem Sound.cut (sound : u.Sound source) (above : u.Reaches p)
    (markup : (u.kind p).hasMarkupChildren = true) :
    ∃ w, u.segmentChildren p p = .ok w ∧ Slits p p u w ∧ (∀ x, w.Holds p x → w.Whole x) ∧
      ∀ keep < u.nodes.size, u.text? keep = none → u.segmentChildren p keep = .ok w := by
  obtain ⟨first, body, tail, closing, layout, -⟩ := (sound.each p above).arranged markup
  rw [← List.append_nil (body ++ tail)] at layout
  obtain ⟨w, segmented, slits, done⟩ := segmentChildren_ok p sound above markup
  have all : ∀ keep < u.nodes.size, u.text? keep = none →
      u.segmentChildren p keep = u.segmentAll (body ++ tail).reverse := fun keep valid solid =>
    Trims.segmentAll_eq layout nofun sound above markup valid solid
  refine ⟨w, segmented, slits, fun x hx => (done x hx).resolve_left ?_, fun keep valid solid => ?_⟩
  · rintro rfl
    exact (slits.spec sound above markup).1.linked.not_below_of_holds hx ReflTransGen.refl
  · rw [all keep valid solid, ← all p (sound.reaches_lt above) (text?_of_markup markup), segmented]

theorem Trims.does (trims : u.Trims p c) (sound : u.Sound source) (above : u.Reaches p)
    (markup : (u.kind p).hasMarkupChildren = true) {w : Document}
    (cut : u.segmentChildren p p = .ok w) (o : AnnotateOptions) (rule : Text) : u.Does o rule c w := by
  obtain ⟨layout, whole⟩ := trims
  have valid := sound.reaches_lt above
  rw [Trims.segmentAll_eq layout whole sound above markup valid (text?_of_markup markup)] at cut
  refine .cut valid markup (by rw [layout.split]; simp)
    (fun x hx => layout.leaf sound above x (by simp [hx])) cut

end Trims

end Quell.Document
