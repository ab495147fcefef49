import Quell.Proofs.Annotate.Steady

/-!
Two calls in either order.

Where the texts are cut already, the deeds of two calls leave each other alone, or stand in one
element one behind the other, or serve at one node. In each case they come to the same in either order,
but for the names of new nodes and the order of rules: `Poised.swap`.
-/
namespace Quell.Document

open Text Relation

variable {source : Text} {o : AnnotateOptions} {first : Nat}
variable {l l' : Nat} {t t' : Target} {r q : Text} {d d' e e' : Deed}
variable {z left right both both' : Document}

/-- The same documents, but for the names of new nodes and the order of rules. -/
def Akin (first : Nat) (u v : Document) : Prop := ∃ f, Alike first f u v

theorem Akin.refl (first : Nat) (u : Document) : Akin first u u := ⟨_, .refl first u⟩

theorem Akin.symm {u v : Document} (akin : Akin first u v) : Akin first v u := by
  obtain ⟨f, alike⟩ := akin
  exact alike.symm

theorem Akin.trans {u v w : Document} (h : Akin first u v) (k : Akin first v w) : Akin first u w := by
  obtain ⟨f, first⟩ := h
  obtain ⟨g, second⟩ := k
  exact ⟨_, first.trans second⟩

/-- The answers to two calls in one order, and in the other. -/
inductive Answers (a b a' b' : Resolution) : Prop where
  | same : a' = a → b' = b → Answers a b a' b'
  | shared : (∀ reason, a ≠ .skipped reason) → (∀ reason, b ≠ .skipped reason) →
      (∀ reason, a' ≠ .skipped reason) → (∀ reason, b' ≠ .skipped reason) →
      [a, b].Perm [b', a'] → Answers a b a' b'

/-- A call for the target of a line does not cut texts any more. -/
structure Poised (source : Text) (u : Document) (line : Nat) (t : Target) : Prop where
  sound : u.Sound source
  suits : u.Suits line t
  solid : u.Solid t
  prepared : u.Prepared t

/-- A second call comes to the same behind a first one as before, and so does the first behind the
second. -/
def Swapped (o : AnnotateOptions) (first l l' : Nat) (t t' : Target) (r q : Text)
    (left right : Document) (a b' : Resolution) : Prop :=
  ∃ both both' b a', left.annotateAt o t' l' q = .ok (both, b) ∧
    right.annotateAt o t l r = .ok (both', a') ∧ Akin first both both' ∧ Answers a b a' b'

theorem Swapped.symm {a b' : Resolution} (h : Swapped o first l l' t t' r q left right a b') :
    Swapped o first l' l t' t q r right left b' a := by
  obtain ⟨both, both', b, a', one, two, akin, answers⟩ := h
  refine ⟨both', both, a', b, two, one, akin.symm, ?_⟩
  cases answers with
  | same one two => exact .same two.symm one.symm
  | shared one two three four perm =>
    exact .shared four three two one perm.symm

theorem swapped_of_deeds {a b' : Resolution} (next : Poised source left l' t')
    (next' : Poised source right l t) (stands : Stands o l' left t' e') (stands' : Stands o l right t d')
    (swap : ∀ both both', left.Does o q e' both → right.Does o r d' both' →
      Akin first both both' ∧ Answers a (e'.answer left q) (d'.answer right r) b') :
    Swapped o first l l' t t' r q left right a b' := by
  obtain ⟨both, called, does⟩ := stands.call next.sound next.suits next.prepared q
  obtain ⟨both', called', does'⟩ := stands'.call next'.sound next'.suits next'.prepared r
  exact ⟨both, both', _, _, called, called', swap both both' does does'⟩

section Links

variable {u u' : Document} {rule : Text} {line : Nat}

theorem Stands.cases_of_links (stands : Stands o line u t d) (does : u.Does o rule d u') {j : NodeId}
    (held : d.links u j) :
    (∃ id p, t = .node id (some p) ∧ u.Looks id p ∧ (j = p ∨ u.text? j ≠ none ∧ u.Holds p j)) ∨
      t = .blockTail j ∧ u.kind j = .block := by
  have note : ∀ {id p : NodeId} {A B C : List NodeId} {front : List Text} {lead : Option Text}
      {indent : Text}, u.Looks id p → u.Does o rule (.note p A B C front lead indent) u' →
      j = p ∨ j ∈ B → u.Looks id p ∧ (j = p ∨ u.text? j ≠ none ∧ u.Holds p j) := by
    intro id p A B C front lead indent looks does held
    refine ⟨looks, held.imp_right fun mem => ?_⟩
    cases does with
    | note _ _ blank inserts =>
      refine ⟨text_of_blank (blank j mem), ?_⟩
      unfold Holds
      rw [inserts.split.1]
      simp [mem]
  cases stands with
  | childless | tag | beside | behind | within | handled | own | near => exact held.elim
  | fill =>
    obtain rfl : j = _ := held
    cases does with
    | fill _ kind => exact .inr ⟨rfl, kind⟩
  | last closing markup => exact .inl ⟨_, _, rfl, note ⟨markup, .inl closing⟩ does held⟩
  | room among sits =>
    have plain := (sits.layout.items _ (List.mem_append_right _ List.mem_cons_self)).1
    exact .inl ⟨_, _, rfl, note ⟨among.markup, .inr ⟨among, plain⟩⟩ does held⟩

theorem not_block_of_text {j : NodeId} (text : u.text? j ≠ none) : u.kind j ≠ .block := by
  intro kind
  unfold text? at text
  rw [kind] at text
  exact text rfl

theorem not_block_of_markup {j : NodeId} (markup : (u.kind j).hasMarkupChildren = true) :
    u.kind j ≠ .block := by
  intro kind
  rw [kind] at markup
  cases markup

/-- The call for another target does not look at the node. -/
def Off (u : Document) (t : Target) (j : NodeId) : Prop :=
  (∀ id p, t = .node id (some p) → u.Looks id p → j ≠ p) ∧ ∀ block, t = .blockTail block → j ≠ block

theorem Stands.carry {a : Nat} (stands : Stands o l' u t' e) (suits : u.Suits l' t')
    (sound : u.Sound source) (does : u.Does o rule d u') (size : u'.nodes.size = u.nodes.size + a)
    (notes : u.NotesAgree (shift u.nodes.size a) (d.links u) u')
    (off : ∀ j, d.links u j → u.Off t' j) :
    ∃ e', Stands o l' u' t' e' ∧ e.Matches u (shift u.nodes.size a) (d.links u) e' := by
  have far := (does.spares sound.linked).follows sound.linked size
  have moved := stands.follow far notes
    (fun id p e looks held => (off p held).1 id p e looks rfl)
    fun block e held => (off block held).2 block e rfl
  rwa [suits.map_eq sound fun _ => shift_old] at moved

/-- Targets in different elements, or of blocks. -/
def Distinct (u : Document) (t t' : Target) : Prop :=
  t ≠ t' ∧ ∀ id id' p, t = .node id (some p) → t' = .node id' (some p) → u.Looks id p → ¬ u.Looks id' p

theorem Distinct.symm (distinct : u.Distinct t t') : u.Distinct t' t :=
  ⟨distinct.1.symm, fun id id' p e e' looks looks' => distinct.2 id' id p e' e looks' looks⟩

theorem Stands.off (stands : Stands o line u t d) (does : u.Does o rule d u')
    (suits : u.Suits l' t') (distinct : u.Distinct t t') {j : NodeId} (held : d.links u j) :
    u.Off t' j := by
  refine ⟨?_, ?_⟩
  · rintro id' p e' looks' rfl
    rcases stands.cases_of_links does held with ⟨id, _, e, looks, rfl | ⟨text, -⟩⟩ | ⟨-, kind⟩
    · exact distinct.2 id id' j e e' looks looks'
    · exact text (text?_of_markup looks'.1)
    · exact not_block_of_markup looks'.1 kind
  · rintro block rfl rfl
    rcases stands.cases_of_links does held with ⟨id, _, e, looks, rfl | ⟨text, -⟩⟩ | ⟨e, -⟩
    · exact not_block_of_markup looks.1 suits.2
    · exact not_block_of_text text suits.2
    · exact distinct.1 e

theorem Stands.links_apart (linked : u.Linked) (stands : Stands o l u t d) (stands' : Stands o l' u t' e)
    {rule' : Text} {w : Document} (does : u.Does o rule d u') (does' : u.Does o rule' e w)
    (suits' : u.Suits l' t') (distinct : u.Distinct t t') (j : NodeId) (held' : e.links u j) :
    ¬ d.links u j := by
  intro held
  have off := stands.off does suits' distinct held
  rcases stands'.cases_of_links does' held' with ⟨id', p', e', looks', rfl | ⟨text, hold'⟩⟩ | ⟨e', kind⟩
  · exact off.1 id' j e' looks' rfl
  · rcases stands.cases_of_links does held with ⟨id, p, e, looks, rfl | ⟨-, hold⟩⟩ | ⟨-, kind⟩
    · exact text (text?_of_markup looks.1)
    · obtain rfl : p = p' := Option.some.inj
        (((linked.agree p j).mp hold).symm.trans ((linked.agree p' j).mp hold'))
      exact distinct.2 id id' p e e' looks looks'
    · exact not_block_of_text text kind
  · exact off.2 j e' rfl

end Links

section Serve

variable {id : NodeId} {w v : Way}

/-- Ways that one node serves in are the same or read other slots, unless a statement is served at
itself and as the last one of a block. -/
theorem Stands.ways (stands : Stands o l z t (.serve id w)) (stands' : Stands o l' z t' (.serve id v))
    (apart : z.Apart t t') : w = v ∨ ∀ s ∈ w.slots, s ∉ v.slots := by
  have beside_within : ∀ s ∈ (besideWay o).slots, s ∉ (withinWay o).slots := by
    change ∀ s ∈ [Slot.leading, .trailing], s ∉ [Slot.inner]
    decide
  have behind_within : ∀ s ∈ (behindWay o).slots, s ∉ (withinWay o).slots := by
    change ∀ s ∈ [Slot.trailing], s ∉ [Slot.inner]
    decide
  rcases stands.way with ⟨p, rfl, rfl⟩ | ⟨a, rfl, last, rfl⟩ | ⟨rfl, -⟩
  · rcases stands'.way with ⟨p', rfl, rfl⟩ | ⟨b, rfl, last', rfl⟩ | ⟨rfl, -⟩
    · exact .inl rfl
    · exact absurd last' apart
    · exact .inr beside_within
  · rcases stands'.way with ⟨p', rfl, rfl⟩ | ⟨b, rfl, last', rfl⟩ | ⟨rfl, -⟩
    · exact absurd last apart
    · exact .inl rfl
    · exact .inr behind_within
  · rcases stands'.way with ⟨p', rfl, rfl⟩ | ⟨b, rfl, last', rfl⟩ | ⟨rfl, -⟩
    · exact .inr fun s hs hs' => beside_within s hs' hs
    · exact .inr fun s hs hs' => behind_within s hs' hs
    · exact .inl rfl

theorem serveAt_settles (u : Document) (id : NodeId) (w : Way) (rule : Text) (reason : SkipReason) :
    (u.serveAt id w rule).2 ≠ .skipped reason := Node.serve_settles _ w rule reason

theorem answers_serveAt (valid : id < z.nodes.size) (fair : w.Fair o) (fair' : v.Fair o)
    (ways : w = v ∨ ∀ s ∈ w.slots, s ∉ v.slots) (name : RuleName r) (name' : RuleName q) :
    Akin first ((z.serveAt id w r).1.serveAt id v q).1 ((z.serveAt id v q).1.serveAt id w r).1 ∧
      Answers (z.serveAt id w r).2 ((z.serveAt id w r).1.serveAt id v q).2
        ((z.serveAt id v q).1.serveAt id w r).2 (z.serveAt id v q).2 := by
  rcases ways with rfl | other
  · obtain ⟨alike, perm⟩ := serveAt_swap valid fair name name'
    have settles := fun u id rule => serveAt_settles u id w rule
    exact ⟨⟨_, alike⟩, .shared (settles _ _ _) (settles _ _ _) (settles _ _ _) (settles _ _ _) perm⟩
  · obtain ⟨same, answer, answer'⟩ := serveAt_comm valid fair fair' other
    refine ⟨?_, .same answer' answer.symm⟩
    rw [same]
    exact .refl first _

theorem Poised.swap_serve (poised : Poised source z l t) (poised' : Poised source z l' t')
    (next : Poised source left l' t') (next' : Poised source right l t)
    (stands : Stands o l z t (.serve id w)) (stands' : Stands o l' z t' (.serve id v))
    (one : z.Does o r (.serve id w) left) (two : z.Does o q (.serve id v) right)
    (ways : w = v ∨ ∀ s ∈ w.slots, s ∉ v.slots) (name : RuleName r) (name' : RuleName q) :
    Swapped o first l l' t t' r q left right (Deed.answer z r (.serve id w))
      (Deed.answer z q (.serve id v)) := by
  have linked := poised.sound.linked
  obtain ⟨a, size⟩ := Nat.exists_eq_add_of_le (one.spares linked).grows
  obtain ⟨b, size'⟩ := Nat.exists_eq_add_of_le (two.spares linked).grows
  obtain ⟨e', there, same'⟩ := stands'.carry poised'.suits poised.sound one size
    (stands.notes one linked size) nofun
  obtain ⟨d', here, same⟩ := stands.carry poised.suits poised.sound two size'
    (stands'.notes two linked size') nofun
  cases one with
  | serve valid fair =>
    cases two with
    | serve _ fair' =>
      cases same with
      | serve =>
        cases same' with
        | serve =>
          rw [shift_old valid] at here there
          refine swapped_of_deeds next next' there here fun both both' does does' => ?_
          cases does
          cases does'
          exact answers_serveAt valid fair fair' ways name name'

end Serve

section Own

variable {u u' v : Document} {p : NodeId} {A B C N N' : List NodeId} {front : List Text}
variable {lead : Option Text} {body body' gap indent : Text} {rule : Text}

theorem Noted.nearest (noted : u.Noted u' p A C lead body gap) (blank : allBlank gap = true)
    (X : List NodeId) : u'.nearestSlot (X ++ noteIds u.nodes.size lead) = some (u.nodes.size + 1) := by
  have ids : ∃ Y, noteIds u.nodes.size lead =
      Y ++ [u.nodes.size, u.nodes.size + 2 + lead.toList.length] := by
    cases lead with
    | none => exact ⟨[], rfl⟩
    | some _ => exact ⟨[u.nodes.size + 2], rfl⟩
  obtain ⟨Y, ids⟩ := ids
  have behind : u'.isBlankText (u.nodes.size + 2 + lead.toList.length) = true := by
    unfold isBlankText
    rw [text?_of_node noted.behind rfl]
    exact blank
  have hole : u'.isBlankText u.nodes.size = false := by
    unfold isBlankText text? Document.kind
    rw [noted.hole]
    rfl
  have slot : u'.commentSlot u.nodes.size = some (u.nodes.size + 1) := by
    unfold commentSlot Document.kind children
    rw [noted.hole]
    dsimp only
    rw [noted.slot]
    rfl
  rw [ids, ← List.append_assoc, nearestSlot_append]
  simp [behind, hole, slot]

theorem Inserts.nearest (inserts : u.Inserts p A C lead body gap B front u' N)
    (blank : allBlank gap = true) (X : List NodeId) :
    u'.nearestSlot (X ++ N) = some (u.nodes.size + front.length + 1) := by
  cases inserts with
  | beside noted => exact noted.nearest blank X
  | parted recut noted =>
    rw [← List.append_assoc, noted.nearest blank, recut.size]

theorem Splice.unique (one : u.Splice u' p A B N C) (two : u.Splice v p A B N C) {j : NodeId}
    (lt : j < u.nodes.size) : v.node j = u'.node j := by
  by_cases here : j = p
  · rw [here, one.here, two.here]
  by_cases gone : j ∈ B
  · rw [one.gone j gone, two.gone j gone]
  · rw [one.rest j lt here gone, two.rest j lt here gone]

theorem Recut.unique {id : NodeId} {parts : List Text} (one : u.Recut u' p A id C parts)
    (two : u.Recut v p A id C parts) : v = u' := by
  refine ext_of_nodes (two.splice.eol.trans one.splice.eol.symm) (two.size.trans one.size.symm)
    fun j => ?_
  rcases Nat.lt_or_ge j u.nodes.size with lt | ge
  · exact one.splice.unique two.splice lt
  · obtain ⟨i, rfl⟩ := Nat.exists_eq_add_of_le ge
    cases found : parts[i]? with
    | some t => rw [one.part i t found, two.part i t found]
    | none =>
      have le : ∀ {w : Document}, w.nodes.size = u.nodes.size + parts.length →
          w.nodes.size ≤ u.nodes.size + i := fun size => by
        rw [size]
        exact Nat.add_le_add_left (List.getElem?_eq_none_iff.mp found) _
      rw [node_of_size_le _ (le one.size), node_of_size_le _ (le two.size)]

/-- Two comments at one place differ in what they say. -/
theorem Noted.unique (one : u.Noted u' p A C lead body gap) (two : u.Noted v p A C lead body' gap) :
    v.eol = u'.eol ∧ v.nodes.size = u'.nodes.size ∧
      ∀ j, j ≠ u.nodes.size + 1 → v.node j = u'.node j := by
  refine ⟨two.splice.eol.trans one.splice.eol.symm, two.size.trans one.size.symm, fun j other => ?_⟩
  rcases Nat.lt_or_ge j u.nodes.size with lt | ge
  · exact one.splice.unique two.splice lt
  · obtain ⟨i, rfl⟩ := Nat.exists_eq_add_of_le ge
    have past : u'.nodes.size ≤ u.nodes.size + i → v.node (u.nodes.size + i) =
        u'.node (u.nodes.size + i) := fun out => by
      rw [node_of_size_le u' out, node_of_size_le v (by rw [two.size, ← one.size]; exact out)]
    have behind := one.behind
    have behind' := two.behind
    have size := one.size
    cases lead with
    | none =>
      rcases i with _ | _ | _ | i
      · exact two.hole.trans one.hole.symm
      · exact absurd rfl other
      · exact behind'.trans behind.symm
      · refine past ?_
        rw [size, Option.toList_none, List.length_nil]
        omega
    | some w =>
      rcases i with _ | _ | _ | _ | i
      · exact two.hole.trans one.hole.symm
      · exact absurd rfl other
      · exact (two.front w rfl).trans (one.front w rfl).symm
      · exact behind'.trans behind.symm
      · refine past ?_
        rw [size, Option.toList_some, List.length_singleton]
        omega

theorem Inserts.unique (one : u.Inserts p A C lead body gap B front u' N)
    (two : u.Inserts p A C lead body' gap B front v N') :
    v.eol = u'.eol ∧ v.nodes.size = u'.nodes.size ∧
      (∀ j, j ≠ u.nodes.size + front.length + 1 → v.node j = u'.node j) ∧
      ∃ hole, u'.node (u.nodes.size + front.length + 1) =
          { kind := .emptyHole, span := none, parent := some hole, inner := [noteOf body] } ∧
        v.node (u.nodes.size + front.length + 1) =
          { kind := .emptyHole, span := none, parent := some hole, inner := [noteOf body'] } := by
  cases one with
  | beside noted =>
    cases two with
    | beside noted' =>
      obtain ⟨eol, size, rest⟩ := noted.unique noted'
      exact ⟨eol, size, rest, _, noted.slot, noted'.slot⟩
  | parted recut noted =>
    cases two with
    | parted recut' noted' =>
      cases recut.unique recut'
      obtain ⟨eol, size, rest⟩ := noted.unique noted'
      rw [← recut.size]
      exact ⟨eol, size, rest, _, noted.slot, noted'.slot⟩

def noteWay (o : AnnotateOptions) : Way :=
  ⟨[.inner], .inner, fun rule => noteOf (directiveText o .nextLine rule .block)⟩

theorem noteWay_fair (o : AnnotateOptions) : (noteWay o).Fair o :=
  ⟨List.mem_singleton.mpr rfl, .nextLine, .block, .inner, fun _ => rfl⟩

def noteSlot (hole : NodeId) : Node := { kind := .emptyHole, span := none, parent := some hole }

theorem noteSlot_serve (o : AnnotateOptions) (hole : NodeId) (rule : Text) :
    (noteSlot hole).serve (noteWay o) rule =
      ({ noteSlot hole with inner := [noteOf (directiveText o .nextLine rule .block)] }, .inserted) :=
  Node.serve_bare rfl rule

/-- A markup comment that is a directive takes up rules as any other. -/
theorem serve_within {n : Node} (directed : n.directed .inner = true) (o : AnnotateOptions)
    (rule : Text) : n.serve (withinWay o) rule = n.serve (noteWay o) rule := by
  have within : (withinWay o).slots.find? n.directed = some .inner := List.find?_cons_of_pos directed
  have noted : (noteWay o).slots.find? n.directed = some .inner := List.find?_cons_of_pos directed
  unfold Node.serve
  rw [within, noted]

theorem directed_note (o : AnnotateOptions) (hole : NodeId) (rule : Text) :
    ({ noteSlot hole with inner := [noteOf (directiveText o .nextLine rule .block)] } : Node).directed
      .inner = true := by
  change (Directive.parse? (directiveText o .nextLine rule .block)).isSome = true
  exact Directive.parse_encode_isSome _ _

/-- Two rules for one place may come in either order. -/
theorem Inserts.serve_swap
    (one : u.Inserts p A C lead (directiveText o .nextLine r .block) gap B front u' N)
    (two : u.Inserts p A C lead (directiveText o .nextLine q .block) gap B front v N')
    (name : RuleName r) (name' : RuleName q) :
    Akin first (u'.serveAt (u.nodes.size + front.length + 1) (withinWay o) q).1
        (v.serveAt (u.nodes.size + front.length + 1) (withinWay o) r).1 ∧
      [.inserted, (u'.serveAt (u.nodes.size + front.length + 1) (withinWay o) q).2].Perm
        [.inserted, (v.serveAt (u.nodes.size + front.length + 1) (withinWay o) r).2] := by
  obtain ⟨eol, size, rest, hole, here, there⟩ := one.unique two
  obtain ⟨alike, perm⟩ := Node.serve_swap (noteWay_fair o) (noteSlot hole) name name'
  have lt : u.nodes.size + front.length + 1 < u'.nodes.size := by
    rw [one.size]
    omega
  rw [noteSlot_serve, noteSlot_serve, ← serve_within (directed_note o hole r),
    ← serve_within (directed_note o hole q)] at alike perm
  unfold noteSlot at alike perm
  dsimp only at alike perm
  rw [← here, ← there] at alike perm
  refine ⟨⟨_, .of_nodes eol ?_ fun j => ?_⟩, perm⟩
  · rw [size_serveAt, size_serveAt, size]
  · rw [node_serveAt lt, node_serveAt (by rw [size]; exact lt)]
    by_cases slot : j = u.nodes.size + front.length + 1
    · rw [if_pos slot, if_pos slot]
      exact alike
    · rw [if_neg slot, if_neg slot, rest j slot]
      exact .refl _

theorem Stands.blank_gap (stands : Stands o l u t (.note p A B C front lead indent)) :
    allBlank (u.eol.text ++ indent) = true := by
  have eol : allBlank u.eol.text = true := by cases u.eol <;> rfl
  rw [allBlank_append, eol, Bool.true_and]
  cases stands with
  | @last _ _ _ _ found _ _ _ _ run =>
    cases found with
    | none => rfl
    | some indent =>
      obtain ⟨a, -, -, blank, -⟩ := trailingIndent_eq_some run
      exact blank
  | room _ _ _ parting =>
    cases parting with
    | own _ own => exact own.2.2.1
    | split _ _ _ _ blank => exact blank
    | flush => rfl

theorem Inserts.directed
    (inserts : u.Inserts p A C lead (directiveText o .nextLine rule .block) gap B front u' N) :
    (u'.node (u.nodes.size + front.length + 1)).directed .inner = true := by
  obtain ⟨-, -, -, hole, slot, -⟩ := inserts.unique inserts
  rw [slot]
  exact directed_note o hole rule

/-- A second call for a target finds the markup comment that the first one has put. -/
theorem Stands.again (stands : Stands o l u t (.note p A B C front lead indent)) (linked : u.Linked)
    (does : u.Does o rule (.note p A B C front lead indent) u') :
    Stands o l u' t (.serve (u.nodes.size + front.length + 1) (withinWay o)) := by
  have notes := fun a size => stands.notes (a := a) does linked size
  have blank := stands.blank_gap
  have kept := does.kept linked
  obtain ⟨N, valid, inserts⟩ : ∃ N, p < u.nodes.size ∧ u.Inserts p A C lead
      (directiveText o .nextLine rule .block) (u.eol.text ++ indent) B front u' N := by
    cases does with
    | note valid _ _ inserts => exact ⟨_, valid, inserts⟩
  have split := inserts.split.2
  have markup' : ∀ {k : NodeKind}, u.kind p = k → u'.kind p = k := fun h =>
    ((does.spares linked).kind p valid).trans h
  cases stands with
  | @last id _ first items found closing markup layout bare run =>
    have hold : id ∈ u.children p := by
      rw [layout.split]
      simp
    have layout' : u'.Layout p first (items ++ N) [id] := layout.renew kept (by rw [split]; simp)
      fun x hx => (List.mem_append.mp hx).imp_right (inserts.plain x)
    exact .handled ((kept id hold).1.trans closing) (by rw [markup' rfl]; exact markup) layout'
      (inserts.nearest blank items) inserts.directed
  | @room id _ first X₁ X₂ R closing Z _ G _ _ among sits bare parting =>
    obtain ⟨N', split', sits'⟩ := sits.noted_own parting does linked
    obtain rfl : N = N' := List.append_cancel_left (List.append_cancel_right (split.symm.trans split'))
    have hold : u.Holds p id := sits.layout.mem_children (by simp)
    exact .near ((does.among_iff linked notes hold).mpr among) sits' (inserts.nearest blank Z) inserts.directed

end Own

section Same

variable (poised : Poised source z l t)
variable (next : Poised source left l t) (next' : Poised source right l t)
variable (one : z.Does o r d left) (two : z.Does o q d right)
variable (name : RuleName r) (name' : RuleName q)
include poised next next' one two name name'

/-- Two calls for one target. -/
theorem Poised.swap_same (stands : Stands o l z t d) :
    Swapped o first l l t t r q left right (d.answer z r) (d.answer z q) := by
  have linked := poised.sound.linked
  cases d with
  | skip reason =>
    cases one
    cases two
    refine swapped_of_deeds next next' stands stands fun both both' does does' => ?_
    cases does
    cases does'
    exact ⟨.refl first _, .same rfl rfl⟩
  | serve id way =>
    exact poised.swap_serve poised next next' stands stands one two (.inl rfl) name name'
  | fill block =>
    cases one with
    | fill valid =>
      cases two
      have behind : ∀ rule, Stands o l
          ((z.addPlaceholder block).1.serveAt z.nodes.size (behindWay o) rule).1 t
          (.serve z.nodes.size (behindWay o)) := by
        intro rule
        have new : z.nodes.size < (z.addPlaceholder block).1.nodes.size := by
          rw [size_addPlaceholder valid]
          exact Nat.lt_succ_self _
        cases stands with
        | fill empty =>
          refine .behind ?_
          have spares := spares_serveAt (behindWay_fair o) new rule
          rw [spares.children block (Nat.lt_trans valid new) id, addPlaceholder_children valid empty]
          rfl
      refine swapped_of_deeds next next' (behind r) (behind q) fun both both' does does' => ?_
      cases does
      cases does'
      have new : z.nodes.size < (z.addPlaceholder block).1.nodes.size := by
        rw [size_addPlaceholder valid]
        exact Nat.lt_succ_self _
      have fair := behindWay_fair o
      have served : Akin first _ _ ∧ _ := answers_serveAt new fair fair (.inl rfl) name name'
      rwa [fill_answer valid, fill_answer valid] at served
  | note p A B C front lead indent =>
    refine swapped_of_deeds next next' (stands.again linked one) (stands.again linked two)
      fun both both' does does' => ?_
    cases one with
    | note _ _ _ inserts =>
      cases two with
      | note _ _ _ inserts' =>
        cases does
        cases does'
        obtain ⟨akin, perm⟩ : Akin first _ _ ∧ _ := inserts.serve_swap inserts' name name'
        exact ⟨akin, .shared nofun (serveAt_settles _ _ _ _) (serveAt_settles _ _ _ _) nofun perm⟩
  | cut q A X C => exact absurd rfl (stands.not_cut q A X C)

end Same

section Far

variable {a b : Nat}
variable (poised : Poised source z l t) (poised' : Poised source z l' t')
variable (next : Poised source left l' t') (next' : Poised source right l t)
variable (stands : Stands o l z t d) (stands' : Stands o l' z t' e)
variable (one : z.Does o r d left) (two : z.Does o q e right)
variable (old : first ≤ z.nodes.size) (name : RuleName r) (name' : RuleName q)

/-- Deeds that change links of different nodes and comments of different nodes. -/
theorem swap_disjoint (linked : z.Linked) (next : Poised source left l' t')
    (next' : Poised source right l t) (one : z.Does o r d left) (two : z.Does o q e right)
    (old : first ≤ z.nodes.size) (name : RuleName r) (name' : RuleName q)
    (size : left.nodes.size = z.nodes.size + a) (size' : right.nodes.size = z.nodes.size + b)
    (stands : Stands o l' left t' e') (stands' : Stands o l right t d')
    (same : d.Matches z (shift z.nodes.size b) (e.links z) d')
    (same' : e.Matches z (shift z.nodes.size a) (d.links z) e')
    (remarks : ∀ id slot slot', d.remarks id slot → ¬ e.remarks id slot')
    (links : ∀ j, e.links z j → ¬ d.links z j) :
    Swapped o first l l' t t' r q left right (d.answer z r) (e.answer z q) := by
  refine swapped_of_deeds next next' stands stands' fun both both' does does' => ?_
  obtain ⟨alike, answer, answer'⟩ := swap_deeds linked old size size' one two does does' same same'
    remarks (fun j h h' => absurd h' (links j h)) name name'
  exact ⟨⟨_, alike⟩, .same answer' answer.symm⟩

include poised poised' next next' stands stands' one two old name name'

/-- Calls that look at different places. -/
theorem Poised.swap_far (distinct : z.Distinct t t')
    (remarks : ∀ id slot slot', d.remarks id slot → ¬ e.remarks id slot') :
    Swapped o first l l' t t' r q left right (d.answer z r) (e.answer z q) := by
  have sound := poised.sound
  have linked := sound.linked
  obtain ⟨a, size⟩ := Nat.exists_eq_add_of_le (one.spares linked).grows
  obtain ⟨b, size'⟩ := Nat.exists_eq_add_of_le (two.spares linked).grows
  obtain ⟨e', there, same'⟩ := stands'.carry poised'.suits sound one size
    (stands.notes one linked size) fun _ =>
    stands.off one poised'.suits distinct
  obtain ⟨d', here, same⟩ := stands.carry poised.suits sound two size'
    (stands'.notes two linked size') fun _ =>
    stands'.off two poised.suits distinct.symm
  exact swap_disjoint linked next next' one two old name name' size size' there here same same' remarks
    (stands.links_apart linked stands' one two poised'.suits distinct)

end Far

section Behind

variable {p id k head : NodeId} {X₁ X₂ X R closing Z A B C G A₂ B₂ C₂ : List NodeId}
variable {front : List Text} {lead : Option Text} {indent : Text} {a : Nat}

/-- A target stands behind another one in the same element, and above the line of the other. -/
def Behind (u : Document) (line : Nat) (p head : NodeId) (X : List NodeId) (id k : NodeId)
    (closing : List NodeId) : Prop :=
  u.kind k = .closingTag ∧ closing = [k] ∨
    ∃ M Y S, u.Sits line p k head (X ++ id :: M) Y S closing

theorem Stands.at_behind (stands : Stands o l' z (.node k (some p)) e) (linked : z.Linked)
    (sits : z.Sits l p id head X₁ X₂ R closing) (solid : z.text? id = none)
    (behind : z.Behind l' p head (X₁ ++ X₂) id k closing) (at_ : e.At p A B C) :
    ∃ M D, A = head :: (X₁ ++ X₂ ++ id :: M) ∧ C = D ++ closing := by
  cases stands with
  | beside | childless | handled | own | tag | near => cases at_
  | last closing markup layout =>
    obtain ⟨rfl, rfl, rfl⟩ := sits.layout.unique layout
    cases at_
    exact ⟨R, [], rfl, rfl⟩
  | room among sits₀ _ parting =>
    rcases behind with ⟨last, -⟩ | ⟨M, Y, S, sits'⟩
    · exact absurd last among.last
    · obtain ⟨rfl, rfl, rfl, rfl, rfl⟩ := sits₀.unique linked sits'
      obtain ⟨M₁, rfl, -⟩ := parting.slide solid []
      cases at_
      exact ⟨M₁, _, rfl, rfl⟩

theorem Stands.links_none (stands : Stands o l z (.node id (some p)) d) (free : ¬ d.links z p)
    (j : NodeId) : ¬ d.links z j := by
  cases stands with
  | last => exact absurd (.inl rfl) free
  | room => exact absurd (.inl rfl) free
  | _ => exact not_false

/-- A comment in front of the target ahead moves the place of the other comment. -/
theorem Stands.behind_note (stands : Stands o l' z (.node k (some p)) e) (looks : z.Looks k p)
    (linked : z.Linked) (sits : z.Sits l p id head X₁ X₂ R closing) (solid : z.text? id = none)
    (behind : z.Behind l' p head (X₁ ++ X₂) id k closing) (parts : X₁ ++ X₂ = Z ++ B ++ G)
    (one : z.Does o r (.note p (head :: Z) B (G ++ id :: R ++ closing) front lead indent) left)
    (size : left.nodes.size = z.nodes.size + a)
    (notes : z.NotesAgree (shift z.nodes.size a)
      ((Deed.note p (head :: Z) B (G ++ id :: R ++ closing) front lead indent).links z) left) :
    ∃ e', Stands o l' left (.node k (some p)) e' ∧
      e.Matches z (shift z.nodes.size a)
        ((Deed.note p (head :: Z) B (G ++ id :: R ++ closing) front lead indent).links z) e' ∧
      ∀ A B C, e.At p A B C → ∃ A', e'.At p A' B C := by
  have far := (one.spares linked).follows linked size
  have hold : z.Holds p id := sits.layout.mem_children (by simp)
  have fixed : ∀ j, j = p ∨ j ∈ z.children p → shift z.nodes.size a j = j := by
    rintro j (rfl | mem)
    · exact shift_old hold.parent_lt
    · exact shift_old (linked.child_lt mem)
  have solid' : left.text? id = none := by
    rw [← fixed id (.inr hold), far.text?]
    exact solid
  rcases behind with ⟨last, rfl⟩ | ⟨M, Y, S, sits'⟩
  · obtain ⟨before, N, after, plain, -⟩ := one.note_window l
    have layout' : left.Layout p head ((Z ++ N ++ G) ++ id :: R) [k] :=
      sits.layout.renew (one.kept linked) (by rw [after]; simp) fun x hx => by
        rw [parts]
        simp only [List.mem_append, List.mem_cons] at hx ⊢
        have := plain x
        tauto
    have near : left.nearestSlot ((Z ++ N ++ G) ++ id :: R) =
        (z.nearestSlot (X₁ ++ X₂ ++ id :: R)).map (shift z.nodes.size a) := by
      rw [nearestSlot_front solid' _ (X₁ ++ X₂),
        far.nearestSlot_fixed notes fixed fun x hx => sits.layout.mem_children hx]
    have tail : left.tailText ((Z ++ N ++ G) ++ id :: R).reverse =
        z.tailText (X₁ ++ X₂ ++ id :: R).reverse := by
      rw [tailText_front solid' _ (X₁ ++ X₂), ← far.tailText, map_fixed fixed fun x hx =>
        sits.layout.mem_children (List.mem_reverse.mp hx)]
    obtain ⟨e', there, same, at_⟩ := stands.slide_closing far notes fixed last looks.1 (.inl rfl)
      sits.layout layout' near tail
    refine ⟨e', there, same, fun A B C h => ?_⟩
    obtain ⟨-, rfl, rfl, h'⟩ := at_ A B C h
    exact ⟨_, h'⟩
  · have plain := sits'.layout.items k (by simp)
    have among : z.Among k p := (looks.2.resolve_left plain.2).1
    rw [parts] at sits'
    obtain ⟨W, sits''⟩ := sits'.noted_front (D := R ++ closing)
      (by rwa [List.append_assoc, List.cons_append] at one) linked
    obtain ⟨e', there, same, at_⟩ := stands.slide far notes fixed among (.inl rfl) linked solid sits'
      sits''
    refine ⟨e', there, same, fun A B C h => ?_⟩
    obtain ⟨-, A', -, h'⟩ := at_ A B C h
    exact ⟨A', h'⟩

variable (poised : Poised source z l (.node id (some p)))
variable (poised' : Poised source z l' (.node k (some p)))
variable (next : Poised source left l' (.node k (some p)))
variable (next' : Poised source right l (.node id (some p)))
variable (stands : Stands o l z (.node id (some p)) d) (stands' : Stands o l' z (.node k (some p)) e)
variable (one : z.Does o r d left) (two : z.Does o q e right)
variable (old : first ≤ z.nodes.size) (name : RuleName r) (name' : RuleName q)
include poised poised' next next' stands stands' one two old name name'

/-- Calls for two children of an element, of which one stands behind the other. -/
theorem Poised.swap_behind (among : z.Among id p) (looks : z.Looks k p)
    (sits : z.Sits l p id head X₁ X₂ R closing) (behind : z.Behind l' p head (X₁ ++ X₂) id k closing)
    (remarks : ∀ id slot slot', d.remarks id slot → ¬ e.remarks id slot') :
    Swapped o first l l' (.node id (some p)) (.node k (some p)) r q left right (d.answer z r)
      (e.answer z q) := by
  have sound := poised.sound
  have linked := sound.linked
  have solid : z.text? id = none := poised.solid
  obtain ⟨a, size⟩ := Nat.exists_eq_add_of_le (one.spares linked).grows
  obtain ⟨b, size'⟩ := Nat.exists_eq_add_of_le (two.spares linked).grows
  have hold : z.Holds p id := sits.layout.mem_children (by simp)
  have fixed : ∀ j, j = p ∨ j ∈ z.children p → shift z.nodes.size b j = j := by
    rintro j (rfl | mem)
    · exact shift_old hold.parent_lt
    · exact shift_old (linked.child_lt mem)
  have off : ∀ {d : Deed} {i : NodeId}, ¬ d.links z p → ∀ j, d.links z j →
      z.Off (.node i (some p)) j := by
    intro d i free j held
    refine ⟨?_, nofun⟩
    rintro _ _ e - rfl
    cases e
    exact free held
  -- What the second call does behind the first one.
  obtain ⟨e', there, same', at'⟩ : ∃ e', Stands o l' left (.node k (some p)) e' ∧
      e.Matches z (shift z.nodes.size a) (d.links z) e' ∧
      (d.links z p → ∀ A B C, e.At p A B C → ∃ A', e'.At p A' B C) := by
    by_cases held : d.links z p
    · cases stands with
      | last last => exact absurd last among.last
      | room _ sits₀ _ parting =>
        obtain ⟨rfl, rfl, rfl, rfl, rfl⟩ := sits₀.unique linked sits
        obtain ⟨e', there, same', at'⟩ := stands'.behind_note looks linked sits solid behind
          parting.parts one size ((Stands.room among sits ‹_› parting).notes one linked size)
        exact ⟨e', there, same', fun _ => at'⟩
      | _ => exact held.elim
    · obtain ⟨e', there, same'⟩ := stands'.carry poised'.suits sound one size
        (stands.notes one linked size) (off held)
      exact ⟨e', there, same', fun h => absurd h held⟩
  -- And what the first one does behind the second.
  obtain ⟨d', here, same, at_⟩ : ∃ d', Stands o l right (.node id (some p)) d' ∧
      d.Matches z (shift z.nodes.size b) (e.links z) d' ∧
      (e.links z p → ∀ A B C, d.At p A B C → ∃ Z G C', A = head :: Z ∧ X₁ ++ X₂ = Z ++ B ++ G ∧
        C = G ++ id :: R ++ closing ∧ d'.At p A B C') := by
    by_cases held : e.links z p
    · obtain ⟨_, A₂, B₂, C₂, _, _, _, -, rfl⟩ := stands'.note_of_links two looks.1 held
      obtain ⟨M, D, rfl, rfl⟩ := stands'.at_behind linked sits solid behind .note
      obtain ⟨S, sits'⟩ := sits.noted_behind two linked
      obtain ⟨d', here, same, at_⟩ := stands.stay ((two.spares linked).follows linked size')
        (stands'.notes two linked size') fixed among held linked sits sits'
      refine ⟨d', here, same, fun _ A B C h => ?_⟩
      obtain ⟨Z, G, rfl, parts, rfl, h'⟩ := at_ A B C h
      exact ⟨Z, G, _, rfl, parts, rfl, h'⟩
    · obtain ⟨d', here, same⟩ := stands.carry poised.suits sound two size'
        (stands'.notes two linked size') (off held)
      exact ⟨d', here, same, fun h => absurd h held⟩
  by_cases both : d.links z p ∧ e.links z p
  · obtain ⟨held, held'⟩ := both
    obtain ⟨_, A, B, C, _, _, _, -, rfl⟩ := stands.note_of_links one looks.1 held
    obtain ⟨_, A₂, B₂, C₂, _, _, _, -, rfl⟩ := stands'.note_of_links two looks.1 held'
    obtain ⟨M, D, rfl, rfl⟩ := stands'.at_behind linked sits solid behind .note
    obtain ⟨A', place'⟩ := at' held _ _ _ .note
    obtain ⟨Z, G, C', rfl, parts, rfl, place⟩ := at_ held' _ _ _ .note
    have before := (one.split .note).2
    have before' := (two.split .note).2
    have shape : head :: (X₁ ++ X₂ ++ id :: M) = head :: Z ++ B ++ (G ++ id :: M) := by
      rw [parts]
      simp
    have rest : G ++ id :: R ++ closing = G ++ id :: M ++ B₂ ++ (D ++ closing) := by
      rw [before, shape] at before'
      simpa using before'
    rw [shape] at two same same' ⊢
    rw [rest] at one same same' ⊢
    refine swapped_of_deeds next next' there here fun both both' does does' => ?_
    obtain ⟨alike, answer, answer'⟩ := swap_beside linked old size size' one two does does' same same'
      .note .note place place' name name'
    exact ⟨⟨_, alike⟩, .same answer' answer.symm⟩
  · refine swap_disjoint linked next next' one two old name name' size size' there here same same'
      remarks fun j held' held => both ⟨?_, ?_⟩
    · exact not_not.mp fun free => stands.links_none free j held
    · exact not_not.mp fun free => stands'.links_none free j held'

end Behind

section Either

variable {p id k head : NodeId} {X R closing : List NodeId}

theorem Poised.sits (poised : Poised source z l (.node id (some p))) (among : z.Among id p)
    (plain : z.kind id ≠ .openingTag) :
    ∃ head X₁ X₂ R closing, z.Sits l p id head X₁ X₂ R closing := by
  obtain ⟨_, e, seated⟩ := poised.suits
  cases e
  obtain ⟨head, X₁, X₂, R, closing, spot, -, -⟩ := poised.sound.spot seated.above among.markup
    seated.hold seated.spanned ⟨plain, among.last⟩ (fun x hx => .inr (poised.prepared among x hx)) l
  exact ⟨head, X₁, X₂, R, closing, spot.layout, spot.group⟩

theorem Layout.closing_eq (layout : z.Layout p head X closing) (hold : z.Holds p k)
    (kind : z.kind k = .closingTag) : closing = [k] := by
  unfold Holds at hold
  rw [layout.split] at hold
  rcases List.mem_cons.mp hold with rfl | mem
  · rw [layout.opening.1] at kind
    cases kind
  rcases List.mem_append.mp mem with mem | mem
  · exact absurd kind (layout.items k mem).2
  · rcases layout.closing with rfl | ⟨c, rfl, -⟩
    · cases mem
    · rw [List.mem_singleton.mp mem]

theorem Poised.not_onLine {line : Nat} (poised : Poised source z l (.node id (some p)))
    (ne : l ≠ line) : ¬ z.OnLine line id := by
  obtain ⟨_, e, seated⟩ := poised.suits
  cases e
  exact seated.not_onLine poised.solid ne

variable (poised : Poised source z l t) (poised' : Poised source z l' t')
variable (next : Poised source left l' t') (next' : Poised source right l t)
variable (stands : Stands o l z t d) (stands' : Stands o l' z t' e)
variable (one : z.Does o r d left) (two : z.Does o q e right)
variable (old : first ≤ z.nodes.size) (name : RuleName r) (name' : RuleName q)
include poised poised' next next' stands stands' one two old name name'

/-- Calls for two targets of two lines. -/
theorem Poised.swap (ne : t ≠ t') (lines : l ≠ l') (apart : z.Apart t t') :
    Swapped o first l l' t t' r q left right (d.answer z r) (e.answer z q) := by
  by_cases served : ∃ id w v, d = .serve id w ∧ e = .serve id v
  · obtain ⟨id, w, v, rfl, rfl⟩ := served
    exact poised.swap_serve poised' next next' stands stands' one two (stands.ways stands' apart) name
      name'
  have remarks : ∀ id slot slot', d.remarks id slot → ¬ e.remarks id slot' := by
    intro id slot slot' h h'
    cases d with
    | serve j w =>
      cases e with
      | serve j' v =>
        obtain rfl : j = j' := h.1.symm.trans h'.1
        exact served ⟨j, w, v, rfl, rfl⟩
      | _ => exact h'.elim
    | _ => exact h.elim
  by_cases distinct : z.Distinct t t'
  · exact poised.swap_far poised' next next' stands stands' one two old name name' distinct remarks
  obtain ⟨id, k, p, rfl, rfl, looks, looks'⟩ : ∃ id k p, t = .node id (some p) ∧
      t' = .node k (some p) ∧ z.Looks id p ∧ z.Looks k p := by
    by_contra none
    exact distinct ⟨ne, fun id k p e e' looks looks' => none ⟨id, k, p, e, e', looks, looks'⟩⟩
  have ahead : id ≠ k := fun e => ne (by rw [e])
  have remarks' : ∀ id slot slot', e.remarks id slot → ¬ d.remarks id slot' :=
    fun id slot slot' h h' => remarks id slot' slot h' h
  obtain ⟨_, e₁, seated⟩ := poised.suits
  cases e₁
  obtain ⟨_, e₂, seated'⟩ := poised'.suits
  cases e₂
  rcases looks.2 with closing | ⟨among, plain⟩
  · rcases looks'.2 with closing' | ⟨among', plain'⟩
    · obtain ⟨head, items, tail, rest, layout, -⟩ :=
        (poised.sound.each p seated.above).arranged looks.1
      have same := (layout.closing_eq seated.hold closing).symm.trans
        (layout.closing_eq seated'.hold closing')
      exact absurd (List.singleton_inj.mp same) ahead
    · obtain ⟨head, Y₁, Y₂, S, rest, sits'⟩ := poised'.sits among' plain'
      exact (poised'.swap_behind poised next' next stands' stands two one old name' name among' looks
        sits' (.inl ⟨closing, sits'.layout.closing_eq seated.hold closing⟩) remarks').symm
  · obtain ⟨head, X₁, X₂, R, rest, sits⟩ := poised.sits among plain
    rcases looks'.2 with closing' | ⟨among', plain'⟩
    · exact poised.swap_behind poised' next next' stands stands' one two old name name' among looks'
        sits (.inl ⟨closing', sits.layout.closing_eq seated'.hold closing'⟩) remarks
    · obtain ⟨head', Y₁, Y₂, S, rest', sits'⟩ := poised'.sits among' plain'
      obtain ⟨rfl, -, rfl⟩ := sits'.layout.unique sits.layout
      rcases sits.order sits' ahead (poised'.not_onLine lines.symm) (poised.not_onLine lines) with
        ⟨M, rfl⟩ | ⟨M, rfl⟩
      · exact poised.swap_behind poised' next next' stands stands' one two old name name' among looks'
          sits (.inr ⟨M, Y₂, S, sits'⟩) remarks
      · exact (poised'.swap_behind poised next' next stands' stands two one old name' name among' looks
          sits' (.inr ⟨M, X₂, R, sits⟩) remarks').symm

end Either

end Quell.Document
