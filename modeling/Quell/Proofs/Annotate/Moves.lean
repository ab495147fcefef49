import Quell.Proofs.Annotate.Call
import Quell.Proofs.Document.Moves

/-!
A call on any regular tree.

Nothing here speaks of a source: spans need not be those of a text, and the tree need not come from
a reader. A call still ends without a fault and consists of moves (`annotateOne_moves`), because the
index at which it splices stays between the tags of the element through segmentation and splitting.
-/
namespace Quell.Document

open Text Relation

section Comments

variable {doc : Document} {o : AnnotateOptions} {rule : Text}

theorem mergeInto_moves {id : NodeId} (reached : doc.Reaches id) (slot : Slot) (rule : Text) :
    Moves doc (doc.mergeInto id slot rule).1 :=
  ReflTransGen.single (.remark reached)

theorem appendComment_moves {id : NodeId} (reached : doc.Reaches id) (slot : Slot) (c : Comment) :
    Moves doc (doc.appendComment id slot c) := by
  rw [appendComment_eq]
  exact ReflTransGen.single (.remark reached)

theorem attachOrdinary_moves {id : NodeId} (reached : doc.Reaches id) :
    Moves doc (attachOrdinary o doc id rule).1 := by
  rcases attachOrdinary_cases o doc id rule with ⟨r, -, e⟩ | ⟨-, ⟨r, -, e⟩ | ⟨-, e⟩⟩
  · rw [e]
    exact mergeInto_moves reached ..
  · rw [e]
    exact mergeInto_moves reached ..
  · rw [e]
    exact appendComment_moves reached ..

theorem attachBehindLast_moves {block : NodeId} (reached : doc.Reaches block) :
    Moves doc (attachBehindLast o doc block rule).1 := by
  cases found : (doc.children block).getLast? with
  | none =>
    unfold attachBehindLast
    rw [found]
  | some last =>
    have reached' := reached.child (List.mem_of_getLast? found)
    rcases attachBehindLast_cases o rule found with ⟨r, -, e⟩ | ⟨-, e⟩
    · rw [e]
      exact mergeInto_moves reached' ..
    · rw [e]
      exact appendComment_moves reached' ..

theorem attachToBlockTail_outcome (o : AnnotateOptions) (doc : Document) (block : NodeId)
    (rule : Text) :
    (∃ r, attachToBlockTail o doc block rule = ((doc.mergeInto block .inner rule).1, r)) ∨
    attachToBlockTail o doc block rule = attachBehindLast o (doc.addPlaceholder block).1 block rule ∨
    attachToBlockTail o doc block rule = attachBehindLast o doc block rule := by
  unfold attachToBlockTail
  split
  · dsimp only
    cases settled : Resolution.ofMerge (doc.mergeInto block .inner rule).2 with
    | some r => exact .inl ⟨r, rfl⟩
    | none =>
      dsimp only
      rw [mergeInto_unsettled settled]
      exact .inr (.inl rfl)
  · exact .inr (.inr rfl)

theorem attachToBlockTail_moves (tree : doc.RegularTree) {block : NodeId}
    (reached : doc.Reaches block) (kind : doc.kind block = .block) :
    Moves doc (attachToBlockTail o doc block rule).1 := by
  rcases attachToBlockTail_outcome o doc block rule with ⟨r, e⟩ | e | e
  · rw [e]
    exact mergeInto_moves reached ..
  · rw [e]
    have splice := (addPlaceholder_spec (tree.linked.reaches_lt tree.root_lt reached)).1
    exact ReflTransGen.head (.fill reached kind)
      (attachBehindLast_moves (splice.reaches_kept tree.linked reached nofun))
  · rw [e]
    exact attachBehindLast_moves reached

theorem mergeBefore_outcome (doc : Document) (p : NodeId) (before : Nat) (rule : Text) :
    (∃ h e r, doc.Holds p h ∧ doc.Holds h e ∧
      Resolution.ofMerge (doc.mergeBefore p before rule).2 = some r ∧
      doc.mergeBefore p before rule = doc.mergeInto e .inner rule) ∨
    doc.mergeBefore p before rule = (doc, .notADirective) := by
  unfold mergeBefore
  split
  · exact .inr rfl
  · dsimp only
    split
    · exact .inr rfl
    · rename_i sibling search
      have hold : doc.Holds p sibling := List.mem_of_mem_take
        (List.mem_of_mem_drop (List.mem_reverse.mp (List.mem_of_find?_eq_some search)))
      split
      · rename_i e slot
        cases settled : Resolution.ofMerge (doc.mergeInto e .inner rule).2 with
        | some r => exact .inl ⟨sibling, e, r, hold, (commentSlot_holds slot).1, rfl, rfl⟩
        | none => exact .inr (mergeInto_unsettled settled)
      · exact .inr rfl

theorem mergeBefore_moves {p : NodeId} (reached : doc.Reaches p) (before : Nat) (rule : Text) :
    Moves doc (doc.mergeBefore p before rule).1 := by
  rcases mergeBefore_outcome doc p before rule with ⟨h, e, r, above, hold, -, merged⟩ | unread
  · rw [merged]
    exact mergeInto_moves ((reached.child above).child hold) ..
  · rw [unread]

end Comments

section Tags

variable {doc doc' : Document} {p o : NodeId} {items closing : List NodeId}

theorem split_behind (o : NodeId) {items : List NodeId} {index : Nat} (low : 1 ≤ index)
    (high : index ≤ 1 + items.length) : ∃ X Y, items = X ++ Y ∧ index = (o :: X).length := by
  refine ⟨items.take (index - 1), items.drop (index - 1), (List.take_append_drop ..).symm, ?_⟩
  rw [List.length_cons, List.length_take]
  omega

/-- A child that is no tag splits what stands between the tags. -/
theorem Tagged.place (tagged : doc.Tagged p o items closing) (linked : doc.Linked) {x : NodeId}
    {A C : List NodeId} (split : doc.children p = A ++ x :: C)
    (plain : doc.kind x ≠ .openingTag ∧ doc.kind x ≠ .closingTag) :
    ∃ X Y, A = o :: X ∧ C = Y ++ closing ∧ items = X ++ [x] ++ Y := by
  have hold : doc.Holds p x := by
    unfold Holds
    simp [split]
  obtain ⟨X, Y, rfl⟩ := List.append_of_mem (tagged.mem_items hold plain)
  have e : A ++ x :: C = (o :: X) ++ x :: (Y ++ closing) := by
    rw [← split, tagged.split]
    simp
  have nodup := linked.nodup p
  rw [split] at nodup
  obtain ⟨rfl, rfl⟩ := split_unique nodup e
  exact ⟨X, Y, rfl, rfl, by simp⟩

theorem Recut.context {A C : List NodeId} {id : NodeId} {parts : List Text}
    (recut : doc.Recut doc' p A id C parts) (linked : doc.Linked) (reached : doc.Reaches p) :
    doc'.Reaches p ∧ doc'.kind p = doc.kind p ∧
      ∀ x, doc.Holds p x → x ≠ id → doc'.Holds p x := by
  have hold : doc.Holds p id := recut.splice.holds_of_mem (by simp)
  refine ⟨recut.splice.reaches_kept linked reached (recut.splice.not_mem_self linked),
    (recut.splice.content hold.parent_lt).1, fun x held ne => ?_⟩
  exact (recut.splice.holds_old linked held.parent_lt (linked.child_lt held)).mpr
    ⟨held, by simpa using ne⟩

def BetweenTags (doc : Document) (p : NodeId) (index : Nat) : Prop :=
  ∃ o items closing, doc.Tagged p o items closing ∧ 1 ≤ index ∧ index ≤ 1 + items.length

theorem insertNote_moves (tree : doc.RegularTree) (reached : doc.Reaches p)
    (markup : (doc.kind p).hasMarkupChildren = true) {index : Nat} (between : doc.BetweenTags p index)
    (body gap : Text) : Moves doc ((doc.withNote body [gap]).insertChildren p index
      [doc.nodes.size, doc.nodes.size + 2]) := by
  obtain ⟨o, items, closing, tagged, low, high⟩ := between
  obtain ⟨X, Y, rfl, rfl⟩ := split_behind o low high
  exact ReflTransGen.single (.note reached markup tagged
    (noted_pair (tree.linked.reaches_lt tree.root_lt reached) (by rw [tagged.split]; simp) body gap))

/-- In front of the end of an element the rule is merged, or a markup comment is put in, with the
indentation that the text there shows. -/
theorem attachBeforeClosing_outcome (o : AnnotateOptions) (doc : Document) (p : NodeId)
    (rule : Text) :
    (attachBeforeClosing o doc p rule).1 = doc ∨
    ∃ start stop, doc.markupRange p = some (start, stop) ∧
      ((∃ r, attachBeforeClosing o doc p rule = ((doc.mergeBefore p stop rule).1, r)) ∨
      (∃ lead body gap, (attachBeforeClosing o doc p rule).1 =
        (doc.withNote body [lead, gap]).insertChildren p stop
          [doc.nodes.size + 2, doc.nodes.size, doc.nodes.size + 3]) ∨
      ∃ body gap, (attachBeforeClosing o doc p rule).1 =
        (doc.withNote body [gap]).insertChildren p stop [doc.nodes.size, doc.nodes.size + 2]) := by
  unfold attachBeforeClosing
  split
  · exact .inl rfl
  · rename_i start stop range
    refine .inr ⟨start, stop, range, ?_⟩
    dsimp only
    rcases mergeBefore_outcome doc p stop rule with ⟨h, e, r, -, -, settled, -⟩ | unread
    · rw [settled]
      exact .inl ⟨r, rfl⟩
    · rw [unread]
      dsimp only [Resolution.ofMerge]
      generalize directiveText o .nextLine rule .block = body
      split
      · rename_i indent _
        obtain ⟨made, ids⟩ :=
          newLedNote_eq doc body (Press.indentUnit indent) (doc.eol.text ++ indent)
        refine .inr (.inl ⟨Press.indentUnit indent, body, doc.eol.text ++ indent, ?_⟩)
        rw [← made, ← ids]
        rfl
      · obtain ⟨made, ids⟩ := newNote_eq doc body doc.eol.text
        refine .inr (.inr ⟨body, doc.eol.text, ?_⟩)
        rw [← made, ← ids]
        rfl

theorem attachBeforeClosing_moves {o : AnnotateOptions} {rule : Text} (tree : doc.RegularTree)
    (reached : doc.Reaches p) : Moves doc (attachBeforeClosing o doc p rule).1 := by
  rcases attachBeforeClosing_outcome o doc p rule with e | ⟨start, stop, range, outcome⟩
  · rw [e]
  · have markup : (doc.kind p).hasMarkupChildren = true := by
      by_contra none
      unfold markupRange at range
      rw [if_neg none] at range
      cases range
    obtain ⟨first, items, closing, tagged⟩ := (tree.shaped p reached).markup markup
    obtain ⟨rfl, rfl⟩ : 1 = start ∧ 1 + items.length = stop := by
      simpa using (tagged.markupRange markup).symm.trans range
    rcases outcome with ⟨r, e⟩ | ⟨lead, body, gap, e⟩ | ⟨body, gap, e⟩
    · rw [e]
      exact mergeBefore_moves reached ..
    · have noted := noted_triple (tree.linked.reaches_lt tree.root_lt reached)
        (A := first :: items) (C := closing) tagged.split lead body gap
      rw [List.length_cons, Nat.add_comm] at noted
      rw [e]
      exact ReflTransGen.single (.note (Y := []) reached markup (by rwa [List.append_nil]) noted)
    · rw [e]
      exact insertNote_moves tree reached markup
        ⟨first, items, closing, tagged, Nat.le_add_right 1 _, Nat.le_refl _⟩ body gap

end Tags

section Among

variable {doc doc' : Document} {p target : NodeId}

theorem segmentAll_moves (tree : doc.RegularTree) (reached : doc.Reaches p)
    (markup : (doc.kind p).hasMarkupChildren = true) (hold : doc.Holds p target) {ids : List NodeId}
    (distinct : ids.Nodup) (held : ∀ x ∈ ids, doc.Holds p x) :
    ∃ cut, ids.foldlM (fun d x => if x = target then .ok d else d.segmentText x) doc =
        (.ok cut : Except Fault Document) ∧
      Moves doc cut ∧ cut.Reaches p ∧ cut.kind p = doc.kind p ∧ cut.Holds p target := by
  induction ids generalizing doc with
  | nil => exact ⟨doc, rfl, ReflTransGen.refl, reached, rfl, hold⟩
  | cons x ids ih =>
    rw [List.foldlM_cons]
    obtain ⟨fresh, distinct⟩ := List.nodup_cons.mp distinct
    have rest : ∀ y ∈ ids, doc.Holds p y := fun y hy => held y (by simp [hy])
    by_cases keep : x = target
    · rw [if_pos keep]
      exact ih tree reached markup hold distinct rest
    · rw [if_neg keep]
      by_cases settled : ∀ t, doc.text? x = some t → Settled t
      · rw [segmentText_settled settled]
        exact ih tree reached markup hold distinct rest
      · simp only [not_forall] at settled
        obtain ⟨t, value, loose⟩ := settled
        have held_x := held x (by simp)
        obtain ⟨A, C, split⟩ := List.append_of_mem held_x
        obtain ⟨first, items, closing, tagged⟩ := (tree.shaped p reached).markup markup
        obtain ⟨X, Y, rfl, rfl, rfl⟩ := tagged.place tree.linked split (plain_of_text value)
        obtain ⟨mid, segmented, recut⟩ := segmentText_recut (p := p) (A := first :: X)
          (C := Y ++ closing) tree.linked (by simpa using split)
          ((tree.regular x (reached.child held_x)).leaf t value) value loose
        have move : Move doc mid := .cut reached markup tagged recut
        obtain ⟨reached', kind', stays⟩ := recut.context tree.linked reached
        obtain ⟨cut, result, moves, reached'', kind'', hold'⟩ := ih (move.tree tree) reached'
          (by rw [kind', markup]) (stays target hold (Ne.symm keep)) distinct
          fun y hy => stays y (rest y hy) fun e => fresh (e ▸ hy)
        rw [segmented]
        exact ⟨cut, result, ReflTransGen.head move moves, reached'', kind''.trans kind', hold'⟩

theorem segmentChildren_moves (tree : doc.RegularTree) (reached : doc.Reaches p)
    (markup : (doc.kind p).hasMarkupChildren = true) (hold : doc.Holds p target) :
    ∃ cut, doc.segmentChildren p target = .ok cut ∧
      Moves doc cut ∧ cut.Reaches p ∧ cut.kind p = doc.kind p ∧ cut.Holds p target := by
  unfold segmentChildren
  split
  · exact ⟨doc, rfl, ReflTransGen.refl, reached, rfl, hold⟩
  · rename_i start stop _
    have sub : (((doc.children p).take stop).drop start).Sublist (doc.children p) :=
      (List.drop_sublist _ _).trans (List.take_sublist _ _)
    refine segmentAll_moves tree reached markup hold ?_ fun x hx => ?_
    · exact List.nodup_reverse.mpr ((tree.linked.nodup p).sublist sub)
    · exact sub.subset (List.mem_reverse.mp hx)

theorem groupStart_bounds (doc : Document) (line : Nat) (ids : List NodeId) {index found : Nat}
    (le : index ≤ found) :
    index - ids.length ≤ doc.groupStart line ids index found ∧
      doc.groupStart line ids index found ≤ found := by
  induction ids generalizing index found with
  | nil => exact ⟨le, Nat.le_refl _⟩
  | cons id ids ih =>
    rw [groupStart, List.length_cons]
    have near := ih (Nat.le_refl (index - 1))
    have far := ih (Nat.le_trans (Nat.sub_le index 1) le)
    split
    · split
      · omega
      · omega
    · split
      · split
        · omega
        · omega
      · omega

theorem splitText_moves {o prev : NodeId} {items closing : List NodeId} (tree : doc.RegularTree)
    (reached : doc.Reaches p) (markup : (doc.kind p).hasMarkupChildren = true)
    (tagged : doc.Tagged p o items closing) {i : Nat} (found : (doc.children p)[i]? = some prev)
    {a b : Text} (value : doc.text? prev = some (a ++ b)) (inside : i < items.length) :
    ∃ room, doc.splitText prev (bytes a) =
        .ok (room, some (doc.nodes.size, doc.nodes.size + 1)) ∧
      Moves doc room ∧ room.Reaches p ∧ room.kind p = doc.kind p ∧ room.BetweenTags p (i + 2) := by
  obtain ⟨lt, rfl⟩ := List.getElem?_eq_some_iff.mp found
  have split : doc.children p = (doc.children p).take i ++
      (doc.children p)[i] :: (doc.children p).drop (i + 1) := by
    rw [← List.drop_eq_getElem_cons lt, List.take_append_drop]
  have hold : doc.Holds p (doc.children p)[i] := List.getElem_mem lt
  generalize (doc.children p)[i] = prev at value split hold
  generalize (doc.children p).take i = A at split
  generalize (doc.children p).drop (i + 1) = C at split
  obtain ⟨X, Y, rfl, rfl, rfl⟩ := tagged.place tree.linked split (plain_of_text value)
  obtain ⟨room, result, recut⟩ := splitText_recut (p := p) (A := o :: X) (C := Y ++ closing)
    tree.linked (by simpa using split) ((tree.regular prev (reached.child hold)).leaf _ value) value
  have plain : ∀ n ∈ List.range' doc.nodes.size [a, b].length,
      room.kind n ≠ .openingTag ∧ room.kind n ≠ .closingTag := by
    intro n hn
    obtain ⟨i, t, -, -, node⟩ := recut.mem_part hn
    exact plain_of_text (text?_of_node node rfl)
  obtain ⟨reached', kind', -⟩ := recut.context tree.linked reached
  refine ⟨room, result, ReflTransGen.single (.cut reached markup tagged recut), reached', kind',
    _, _, _, tagged.splice tree.linked rfl recut.splice plain, by omega, ?_⟩
  simp only [List.length_append, List.length_range', List.length_cons, List.length_nil] at inside ⊢
  omega

theorem indentBefore_moves {o : NodeId} {items closing : List NodeId} (tree : doc.RegularTree)
    (reached : doc.Reaches p) (markup : (doc.kind p).hasMarkupChildren = true)
    (tagged : doc.Tagged p o items closing) {index position : Nat} (low : 1 ≤ index)
    (le : index ≤ position) (high : position < 1 + items.length) :
    ∃ room place indent, doc.indentBefore (doc.children p) 1 index position =
        .ok (room, place, indent) ∧ Moves doc room ∧ room.Reaches p ∧ room.kind p = doc.kind p ∧
      room.BetweenTags p place := by
  rw [indentBefore_eq]
  cases own : doc.ownIndent? (doc.children p) 1 index position with
  | some t =>
    have before : index < position := by
      unfold ownIndent? at own
      split at own
      · split at own
        · rename_i cond
          simp only [Bool.and_eq_true, decide_eq_true_eq] at cond
          exact cond.1.1.1
        · cases own
      · cases own
    exact ⟨doc, index + 1, t, rfl, ReflTransGen.refl, reached, rfl, o, items, closing, tagged,
      by omega, by omega⟩
  | none =>
    dsimp only
    -- without an indent of its own the comment goes where the group starts
    have flush : ∃ room place indent,
        (.ok (doc, index, []) : Except Fault (Document × Nat × Text)) = .ok (room, place, indent) ∧
        Moves doc room ∧ room.Reaches p ∧ room.kind p = doc.kind p ∧ room.BetweenTags p place :=
      ⟨doc, index, [], rfl, ReflTransGen.refl, reached, rfl, o, items, closing, tagged, low, by omega⟩
    unfold splitIndent
    split
    · split
      · rename_i behind prev found
        cases value : doc.text? prev with
        | none => exact flush
        | some t =>
          rw [Option.bind_some]
          cases run_eq : trailingIndent t with
          | none => exact flush
          | some run =>
            obtain ⟨a, rfl, -⟩ := trailingIndent_eq_some run_eq
            obtain ⟨room, result, moves, reached', kind', between⟩ :=
              splitText_moves tree reached markup tagged found value (by omega)
            have cut : bytes (a ++ ['\n'] ++ run) - bytes run = bytes (a ++ ['\n']) := by
              rw [bytes_append]
              omega
            rw [show index - 1 + 2 = index + 1 by omega] at between
            refine ⟨room, index + 1, run, ?_, moves, reached', kind', between⟩
            simp only [Option.map_some, cut]
            rw [result]
            rfl
      · exact flush
    · exact flush

/-- Among siblings a call is skipped, or merged in front of the target's group, or puts a markup
comment where it has made room. -/
theorem placeAmong_outcome (o : AnnotateOptions) (doc : Document) (p target : NodeId) (line : Nat)
    (rule : Text) :
    (∃ r, doc.placeAmong o p target line rule = .ok (doc, r)) ∨
    ∃ start stop position index, doc.markupRange p = some (start, stop) ∧ start ≤ position ∧
      position < stop ∧ index = doc.groupStart line
        (((doc.children p).take position).drop start).reverse position position ∧
      ((∃ r, doc.placeAmong o p target line rule = .ok ((doc.mergeBefore p index rule).1, r)) ∨
      ∃ body, ∀ room place indent,
        doc.indentBefore (doc.children p) start index position = .ok (room, place, indent) →
        doc.placeAmong o p target line rule =
          .ok ((room.withNote body [room.eol.text ++ indent]).insertChildren p place
            [room.nodes.size, room.nodes.size + 2], .inserted)) := by
  unfold placeAmong
  split
  · rename_i start stop position range _
    split
    · exact .inl ⟨_, rfl⟩
    · rename_i inside
      simp only [Bool.or_eq_true, decide_eq_true_eq, not_or, Nat.not_lt, Nat.not_le] at inside
      refine .inr ⟨start, stop, position, _, range, inside.1, inside.2, rfl, ?_⟩
      dsimp only
      generalize doc.groupStart line _ position position = index
      rcases mergeBefore_outcome doc p index rule with ⟨h, e, r, -, -, settled, -⟩ | unread
      · rw [settled]
        exact .inl ⟨r, rfl⟩
      · rw [unread]
        dsimp only [Resolution.ofMerge]
        refine .inr ⟨directiveText o .nextLine rule .block, fun room place indent made => ?_⟩
        obtain ⟨note, ids⟩ := newNote_eq room (directiveText o .nextLine rule .block)
          (room.eol.text ++ indent)
        rw [made, ← note, ← ids]
        rfl
  · exact .inl ⟨_, rfl⟩

theorem placeAmong_moves (o : AnnotateOptions) (target : NodeId) (line : Nat) (rule : Text)
    (tree : doc.RegularTree) (reached : doc.Reaches p) (markup : (doc.kind p).hasMarkupChildren = true) :
    ∃ doc' r, doc.placeAmong o p target line rule = .ok (doc', r) ∧ Moves doc doc' := by
  obtain ⟨first, items, closing, tagged⟩ := (tree.shaped p reached).markup markup
  rcases placeAmong_outcome o doc p target line rule with
    ⟨r, e⟩ | ⟨start, stop, position, index, range, low, high, group, outcome⟩
  · exact ⟨doc, r, e, ReflTransGen.refl⟩
  · obtain ⟨rfl, rfl⟩ : 1 = start ∧ 1 + items.length = stop := by
      simpa using (tagged.markupRange markup).symm.trans range
    obtain ⟨near, far⟩ := groupStart_bounds doc line
      (((doc.children p).take position).drop 1).reverse (Nat.le_refl position)
    rw [← group, List.length_reverse, List.length_drop] at near
    rw [← group] at far
    have short := List.length_take_le position (doc.children p)
    rcases outcome with ⟨r, e⟩ | ⟨body, placed⟩
    · exact ⟨_, r, e, mergeBefore_moves reached ..⟩
    · obtain ⟨room, place, indent, made, moves, reached', kind', between⟩ :=
        indentBefore_moves tree reached markup tagged (by omega : 1 ≤ index) far high
      exact ⟨_, _, placed room place indent made, moves.trans
        (insertNote_moves (moves.tree tree) reached' (by rw [kind', markup]) between ..)⟩

theorem attachAmong_moves (o : AnnotateOptions) (line : Nat) (rule : Text) (tree : doc.RegularTree)
    (reached : doc.Reaches p) (hold : doc.Holds p target) :
    ∃ doc' r, attachAmongSiblings o doc p target line rule = .ok (doc', r) ∧ Moves doc doc' := by
  rcases attachAmong_cases o doc p target line rule with
    ⟨-, result⟩ | ⟨markup, ⟨e, r, slot, -, result⟩ | ⟨-, onward⟩⟩
  · exact ⟨doc, _, result, ReflTransGen.refl⟩
  · exact ⟨_, r, result,
      mergeInto_moves ((reached.child hold).child (commentSlot_holds slot).1) .inner rule⟩
  · obtain ⟨cut, segmented, moves, reached', kind', -⟩ :=
      segmentChildren_moves tree reached markup hold
    obtain ⟨doc', r, placed, later⟩ := placeAmong_moves o target line rule
      (moves.tree tree) reached' (by rw [kind', markup])
    refine ⟨doc', r, ?_, moves.trans later⟩
    rw [onward, segmented]
    exact placed

theorem annotateOne_moves (o : AnnotateOptions) (line : Nat) (rule : Text)
    (tree : doc.RegularTree) :
    ∃ doc' r, doc.annotateOne o line rule = .ok (doc', r) ∧ Moves doc doc' := by
  unfold annotateOne
  cases found : doc.locate line with
  | none => exact ⟨doc, _, rfl, ReflTransGen.refl⟩
  | some target =>
    obtain ⟨id, p, above, hold, rfl⟩ := locate_aims tree.linked tree.root_lt found
    have link := (tree.linked.agree p id).mp hold
    rcases aim_node link with aim | ⟨block, aim⟩
    · rw [aim]
      dsimp only
      rw [annotateNode_eq]
      split
      · exact ⟨_, _, rfl, attachBeforeClosing_moves tree above⟩
      · split
        · exact ⟨_, _, rfl, attachOrdinary_moves (above.child hold)⟩
        · exact attachAmong_moves o line rule tree above hold
    · obtain ⟨q, link', within, kind⟩ := holds_of_aim aim
      cases link.symm.trans link'
      rw [aim]
      exact ⟨_, _, rfl, attachToBlockTail_moves tree (above.child within) kind⟩

end Among

end Quell.Document
