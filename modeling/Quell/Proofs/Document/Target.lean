import Quell.Proofs.Document.Locate
import Quell.Proofs.Document.WellFormed

/-!
The target of a line.

`Locates` says what a search by line has to find: of the nodes that start on the line the first that
has none of the others above it, with the node above it, or the block in front of it if it is an
alternate. `Legible.locates` says that the search finds that in every legible document, whichever of
the nodes of the line it climbs from. Neither condition of `Legible` beyond `Lined` can be left out:
`lined_not_locates`.
-/
namespace Quell.Document

open Relation

/-- A climb up the parents of a node: it goes on while the parent has no span or starts on the line,
and it stops below the root. -/
inductive Climbs (doc : Document) (line : Nat) : NodeId → NodeId → Prop where
  | top {id : NodeId} : (∀ p, doc.parent id = some p →
      p = root ∨ ∃ s, doc.span p = some s ∧ s.startLine ≠ line) → Climbs doc line id id
  | up {id p top : NodeId} : doc.parent id = some p → p ≠ root →
      (∀ s, doc.span p = some s → s.startLine = line) → Climbs doc line p top →
      Climbs doc line id top

def FirstIn (l : List NodeId) (P : NodeId → Prop) (n : NodeId) : Prop :=
  ∃ front back, l = front ++ n :: back ∧ P n ∧ ∀ x ∈ front, ¬ P x

def EndsOn (doc : Document) (line : Nat) (id : NodeId) : Prop :=
  ∃ s, doc.span id = some s ∧ s.endLine = line

structure Outermost (doc : Document) (line : Nat) (n : NodeId) : Prop where
  reached : doc.Reaches n
  starts : doc.Starts line n
  top : ∀ a, doc.Reaches a → doc.Starts line a → doc.Below a n → a = n

def Alternates (doc : Document) (q n : NodeId) : Prop :=
  ∃ p test rest, doc.parent n = some p ∧ doc.kind p = .conditional ∧
    doc.children p = test :: q :: n :: rest ∧ doc.kind q = .block

structure EndsAt (doc : Document) (line : Nat) (n : NodeId) : Prop where
  first : ∀ h, FirstIn doc.preorder (doc.Starts line) h → doc.Climbs line h n
  preferred : ∀ x, FirstIn doc.preorder (fun id => doc.Starts line id ∧ doc.EndsOn line id) x →
    doc.Climbs line x n
  foremost : FirstIn doc.preorder (doc.Outermost line) n
  inner : n ≠ root
  outer : ∃ p, doc.parent n = some p ∧
    (p = root ∨ ∃ t, doc.span p = some t ∧ t.startLine < line)
  tail : ∀ q, doc.locate line = some (.blockTail q) ↔ doc.Alternates q n
  node : doc.locate line = some (.node n (doc.parent n)) ↔ ∀ q, ¬ doc.Alternates q n

/-- The search for the line finds what it is to find. -/
structure Locates (doc : Document) (line : Nat) : Prop where
  none : doc.locate line = none ↔ ∀ id, doc.Reaches id → ¬ doc.Starts line id
  some : (∃ id, doc.Reaches id ∧ doc.Starts line id) → ∃ n, doc.EndsAt line n

section Locate

variable {doc : Document}

theorem Linked.climbs (linked : doc.Linked) (line : Nat) {id : NodeId}
    (valid : id < doc.nodes.size) : doc.Climbs line id (doc.ascend line doc.nodes.size id) := by
  obtain ⟨rank, rises, bound⟩ := linked.depth
  have climb : ∀ fuel id, rank id ≤ fuel → doc.Climbs line id (doc.ascend line fuel id) := by
    intro fuel
    induction fuel with
    | zero =>
      intro id low
      refine .top fun p link => ?_
      have := rises p id ((linked.agree p id).mpr link)
      omega
    | succ fuel ih =>
      intro id low
      rw [ascend]
      cases link : doc.parent id with
      | none =>
        refine .top fun p h => ?_
        rw [link] at h
        cases h
      | some p =>
        dsimp only
        split
        · rename_i stop
          refine .top fun q h => ?_
          cases link.symm.trans h
          simpa [Option.any_eq_true] using stop
        · rename_i go
          have := rises p id ((linked.agree p id).mpr link)
          simp only [Bool.or_eq_true, decide_eq_true_eq, not_or, Option.any_eq_true, bne_iff_ne,
            not_exists, not_and, Decidable.not_not] at go
          exact .up link go.1 go.2 (ih p (by omega))
  exact climb _ id (Nat.le_of_lt (bound id valid))

theorem Climbs.reaches {line : Nat} {id top : NodeId} (climbs : doc.Climbs line id top)
    (linked : doc.Linked) (reached : doc.Reaches id) (inner : id ≠ root) :
    doc.Reaches top ∧ top ≠ root := by
  induction climbs with
  | top => exact ⟨reached, inner⟩
  | up link ne _ _ ih => exact ih (linked.reaches_parent reached link inner) ne

theorem Climbs.unique {line : Nat} {id m n : NodeId} (hm : doc.Climbs line id m)
    (hn : doc.Climbs line id n) : m = n := by
  -- Where one climb stops the other one does not go on.
  have stops : ∀ {id p : NodeId}, (∀ p, doc.parent id = some p →
      p = root ∨ ∃ s, doc.span p = some s ∧ s.startLine ≠ line) → doc.parent id = some p →
      p ≠ root → ¬ ∀ s, doc.span p = some s → s.startLine = line := by
    intro id p stop link ne same
    rcases stop p link with e | ⟨s, hs, other⟩
    · exact ne e
    · exact other (same s hs)
  induction hm with
  | top stop =>
    cases hn with
    | top => rfl
    | up link ne same => exact absurd same (stops stop link ne)
  | up link ne same _ ih =>
    cases hn with
    | top stop => exact absurd same (stops stop link ne)
    | up link' _ _ later =>
      cases link.symm.trans link'
      exact ih later

theorem locate_aims (linked : doc.Linked) (root_lt : root < doc.nodes.size) {line : Nat}
    {target : Target} (found : doc.locate line = some target) :
    ∃ id p, doc.Reaches p ∧ doc.Holds p id ∧ target = doc.aim id := by
  unfold locate at found
  obtain ⟨x, chosen, rfl⟩ := Option.map_eq_some_iff.mp found
  have mem : x ∈ doc.startingOn line := by
    rcases Option.or_eq_some_iff.mp chosen with search | ⟨-, first⟩
    · exact List.mem_of_find?_eq_some search
    · exact List.mem_of_mem_head? first
  unfold startingOn at mem
  rw [List.mem_filter, mem_preorder linked root_lt] at mem
  have inner : x ≠ root := by
    rintro rfl
    simp at mem
  obtain ⟨reached, ne⟩ := (linked.climbs line (linked.reaches_lt root_lt mem.1)).reaches linked
    mem.1 inner
  rcases ReflTransGen.cases_tail reached with e | ⟨p, above, hold⟩
  · exact absurd e ne
  · exact ⟨_, p, above, hold, rfl⟩

theorem branches_eq_some {p q n : NodeId} : doc.branches p = some (q, some n) ↔
    ∃ test rest, doc.kind p = .conditional ∧ doc.children p = test :: q :: n :: rest := by
  unfold branches
  constructor
  · intro h
    split at h
    · rename_i test consequent rest kind kids
      obtain ⟨rfl, first⟩ := Prod.mk.inj (Option.some.inj h)
      obtain ⟨tail, rfl⟩ := List.head?_eq_some_iff.mp first
      exact ⟨test, tail, kind, kids⟩
    · cases h
  · rintro ⟨test, rest, kind, kids⟩
    rw [kind, kids]
    rfl

theorem aim_eq_blockTail {n q : NodeId} : doc.aim n = .blockTail q ↔ doc.Alternates q n := by
  unfold aim
  constructor
  · intro h
    split at h
    · cases h
    · rename_i p link
      split at h
      · rename_i consequent alternate found
        split at h
        · rename_i cond
          cases h
          rw [Bool.and_eq_true, decide_eq_true_eq, decide_eq_true_eq] at cond
          obtain ⟨rfl, block⟩ := cond
          obtain ⟨test, rest, kind, kids⟩ := branches_eq_some.mp found
          exact ⟨p, test, rest, link, kind, kids, block⟩
        · cases h
      · cases h
  · rintro ⟨p, test, rest, link, kind, kids, block⟩
    rw [link]
    dsimp only
    rw [branches_eq_some.mpr ⟨test, rest, kind, kids⟩]
    simp [block]

theorem holds_of_aim {id block : NodeId} (h : doc.aim id = .blockTail block) :
    ∃ p, doc.parent id = some p ∧ doc.Holds p block ∧ doc.kind block = .block := by
  obtain ⟨p, test, rest, link, -, kids, block⟩ := aim_eq_blockTail.mp h
  exact ⟨p, link, by simp [Holds, kids], block⟩

theorem aim_node {id p : NodeId} (link : doc.parent id = some p) :
    doc.aim id = .node id (some p) ∨ ∃ block, doc.aim id = .blockTail block := by
  unfold aim
  rw [link]
  dsimp only
  split
  · split
    · exact .inr ⟨_, rfl⟩
    · exact .inl rfl
  · exact .inl rfl

theorem parent_of_aim {id p : NodeId} (h : doc.aim id = .node id (some p)) :
    doc.parent id = some p := by
  unfold aim at h
  split at h
  · cases h
  · split at h
    · split at h
      · cases h
      · cases h
        assumption
    · cases h
      assumption

theorem aim_eq_node {n p : NodeId} (link : doc.parent n = some p) :
    doc.aim n = .node n (some p) ↔ ∀ q, ¬ doc.Alternates q n := by
  simp only [← aim_eq_blockTail]
  rcases aim_node link with aim | ⟨q, aim⟩
  · rw [aim]
    exact ⟨fun _ _ => nofun, fun _ => rfl⟩
  · rw [aim]
    exact ⟨nofun, fun none => absurd rfl (none q)⟩

theorem firstIn_iff {l : List NodeId} {P : NodeId → Prop} {test : NodeId → Bool} {n : NodeId}
    (same : ∀ x, test x = true ↔ P x) : FirstIn l P n ↔ l.find? test = some n := by
  rw [List.find?_eq_some_iff_append]
  constructor
  · rintro ⟨front, back, split, here, none⟩
    refine ⟨(same n).mpr here, front, back, split, fun x hx => ?_⟩
    rw [Bool.not_eq_true']
    exact Bool.eq_false_iff.mpr (mt (same x).mp (none x hx))
  · rintro ⟨here, front, back, split, none⟩
    refine ⟨front, back, split, (same n).mp here, fun x hx starts => ?_⟩
    simpa [(same x).mpr starts] using none x hx

theorem startingOn_head? {line : Nat} {h : NodeId} :
    FirstIn doc.preorder (doc.Starts line) h ↔ (doc.startingOn line).head? = some h := by
  rw [startingOn_eq, List.head?_filter]
  exact firstIn_iff fun _ => starts?_iff

theorem startingOn_find? {line : Nat} {x : NodeId} :
    FirstIn doc.preorder (fun id => doc.Starts line id ∧ doc.EndsOn line id) x ↔
      (doc.startingOn line).find? (fun id => (doc.span id).any (·.endLine == line)) = some x := by
  rw [startingOn_eq, List.find?_filter]
  refine firstIn_iff fun id => ?_
  rw [decide_eq_true_iff, starts?_iff, Option.any_eq_true, EndsOn]
  simp only [beq_iff_eq]

namespace Legible

variable (legible : doc.Legible) {line : Nat} {h : NodeId} {rest : List NodeId}

include legible

theorem outermost_first (found : doc.startingOn line = h :: rest) : doc.Outermost line h := by
  obtain ⟨reached, starts, -⟩ := legible.first_spec found
  refine ⟨reached, starts, fun a reached' starts' above => ?_⟩
  have mem : a ∈ doc.startingOn line := legible.mem_startingOn.mpr ⟨reached', starts'⟩
  have ordered : (doc.startingOn line).Pairwise _ := legible.preorder_pairwise.filter _
  rw [found] at mem ordered
  rcases List.mem_cons.mp mem with e | later
  · exact e
  · exact absurd above ((List.pairwise_cons.mp ordered).1 a later).2

theorem climbs_first (found : doc.startingOn line = h :: rest) {x : NodeId}
    (mem : x ∈ doc.startingOn line) (below : doc.Below h x) : doc.Climbs line x h := by
  obtain ⟨reached, starts⟩ := legible.mem_startingOn.mp mem
  obtain ⟨t, ht, start⟩ := starts.2.2
  have climbs := legible.linked.climbs line (legible.linked.reaches_lt legible.root_lt reached)
  rwa [legible.ascend_eq found below ht start] at climbs

theorem endsAt (found : doc.startingOn line = h :: rest) : doc.EndsAt line h := by
  obtain ⟨reached, starts, p, link, above, top⟩ := legible.first_spec found
  have located : doc.locate line = some (doc.aim h) := by
    rw [legible.locate_eq, found, List.head?_cons, Option.map_some]
  exact {
    first := by
      intro h' first
      rw [startingOn_head?, found, List.head?_cons] at first
      cases first
      exact legible.climbs_first found (found ▸ List.mem_cons_self) ReflTransGen.refl
    preferred := by
      intro x search
      rw [startingOn_find?] at search
      exact legible.climbs_first found (List.mem_of_find?_eq_some search)
        (legible.below_of_preferred found search)
    foremost := by
      obtain ⟨front, back, split, -, none⟩ := startingOn_head?.mpr (congrArg List.head? found)
      exact ⟨front, back, split, legible.outermost_first found,
        fun x hx out => none x hx out.starts⟩
    inner := starts.1
    outer := by
      refine ⟨p, link, top.imp_right ?_⟩
      rintro ⟨t, ht, other⟩
      obtain ⟨s, hs, start⟩ := starts.2.2
      obtain ⟨u, hu, lo, -⟩ :=
        (legible.nested p above).within h s ((legible.linked.agree p h).mpr link) hs
      cases ht.symm.trans hu
      have := legible.startLine_le above reached ht hs lo
      exact ⟨t, ht, by omega⟩
    tail := by
      intro q
      rw [located, Option.some_inj, aim_eq_blockTail]
    node := by rw [located, Option.some_inj, link, aim_eq_node link] }

end Legible

theorem lined_of_table (root_lt : root < doc.nodes.size)
    (each : ∀ id < doc.nodes.size, doc.LinkedAt id ∧
      (∀ c ∈ doc.children id, ∀ t ∈ doc.span c, ∃ s ∈ doc.span id, s.lo ≤ t.lo ∧ t.hi ≤ s.hi) ∧
      (doc.children id).Pairwise fun a b => ∀ s ∈ doc.span a, ∀ t ∈ doc.span b, s.hi ≤ t.lo)
    (lines : ∀ i < doc.nodes.size, ∀ j < doc.nodes.size, ∀ s ∈ doc.span i, ∀ t ∈ doc.span j,
      ∀ a ∈ [(s.lo, s.startLine), (s.hi, s.endLine)],
        ∀ b ∈ [(t.lo, t.startLine), (t.hi, t.endLine)], a.1 ≤ b.1 → a.2 ≤ b.2) : doc.Lined := by
  have linked := linked_of_linkedAt fun id lt => (each id lt).1
  have lt : ∀ id, doc.Reaches id → id < doc.nodes.size := fun id => linked.reaches_lt root_lt
  have listed : ∀ {n l}, doc.Marks n l → ∃ i < doc.nodes.size, ∃ s ∈ doc.span i,
      (n, l) ∈ [(s.lo, s.startLine), (s.hi, s.endLine)] := by
    rintro n l ⟨i, s, reached, hs, ⟨rfl, rfl⟩ | ⟨rfl, rfl⟩⟩
    · exact ⟨i, lt i reached, s, hs, by simp⟩
    · exact ⟨i, lt i reached, s, hs, by simp⟩
  refine ⟨linked, root_lt, fun id reached => ⟨fun c t hold ht => ?_, ?_⟩, fun m n k l hm hn => ?_⟩
  · exact (each id (lt id reached)).2.1 c hold t ht
  · exact (each id (lt id reached)).2.2.imp fun h s t hs ht => h s hs t ht
  · obtain ⟨i, hi, s, hs, mem⟩ := listed hm
    obtain ⟨j, hj, t, ht, mem'⟩ := listed hn
    exact lines i hi j hj s hs t ht _ mem _ mem'

theorem Legible.locates (legible : doc.Legible) (line : Nat) : doc.Locates line := by
  constructor
  · rw [legible.locate_eq, Option.map_eq_none_iff, List.head?_eq_none_iff,
      List.eq_nil_iff_forall_not_mem]
    refine forall_congr' fun id => ?_
    rw [legible.mem_startingOn, not_and]
  · rintro ⟨id, found⟩
    obtain ⟨h, rest, split⟩ := List.exists_cons_of_ne_nil
      (List.ne_nil_of_mem (legible.mem_startingOn.mpr found))
    exact ⟨h, legible.endsAt split⟩

end Locate

/-- An alternate that starts on the line on which the block in front of it ends:
`if (a) {`, `} else b();`. -/
def alternateSample : Document where
  nodes := #[
    { kind := .program, span := some ⟨0, 21, 1, 3⟩, children := [1] },
    { kind := .conditional, span := some ⟨0, 20, 1, 2⟩, parent := some 0, children := [2, 3, 4] },
    { kind := .expression, span := some ⟨4, 5, 1, 1⟩, parent := some 1 },
    { kind := .block, span := some ⟨7, 10, 1, 2⟩, parent := some 1 },
    { kind := .statement, span := some ⟨16, 20, 2, 2⟩, parent := some 1 }]

theorem locates_alternateSample :
    alternateSample.Locates 2 ∧ alternateSample.locate 2 = some (.blockTail 3) := by
  have lined : alternateSample.Lined := lined_of_table (by decide) (by decide) (by decide)
  have lt : ∀ id, alternateSample.Reaches id → id < alternateSample.nodes.size :=
    fun id => lined.linked.reaches_lt (by decide)
  have forward : ∀ id < alternateSample.nodes.size, ∀ s ∈ alternateSample.span id, s.lo ≤ s.hi := by
    decide
  have leaf : ∀ id < alternateSample.nodes.size, alternateSample.isBlankText id = true →
      alternateSample.children id = [] := by decide
  exact ⟨Legible.locates ⟨lined, fun id s reached hs => forward id (lt id reached) s hs,
    fun id reached => leaf id (lt id reached)⟩ 2, by decide⟩

/-- An expression below a blank text on its line. -/
def shadedSample : Document where
  nodes := #[
    { kind := .program, span := some ⟨0, 6, 1, 2⟩, children := [1] },
    { kind := .element, span := some ⟨0, 6, 1, 2⟩, parent := some 0, children := [2] },
    { kind := .text [' '], span := some ⟨3, 6, 2, 2⟩, parent := some 1, children := [3] },
    { kind := .expression, span := some ⟨4, 5, 2, 2⟩, parent := some 2 }]

/-- A statement whose span ends in front of its start, and another one on the line of its start. -/
def reversedSample : Document where
  nodes := #[
    { kind := .program, span := some ⟨0, 9, 1, 3⟩, children := [1, 2] },
    { kind := .statement, span := some ⟨8, 2, 3, 1⟩, parent := some 0 },
    { kind := .statement, span := some ⟨3, 5, 3, 3⟩, parent := some 0 }]

/-- Below blank text a climb ends at the text, which does not count for the line; a span that runs
backwards ends on an earlier line than a later sibling starts on, so that the sibling is preferred. -/
theorem lined_not_locates :
    (shadedSample.Lined ∧ (∀ id, shadedSample.Reaches id → ∃ s, shadedSample.span id = some s) ∧
      ¬ shadedSample.Locates 2) ∧
    (reversedSample.Lined ∧ (∀ id, reversedSample.Reaches id → ∃ s, reversedSample.span id = some s) ∧
      ¬ reversedSample.Locates 3) := by
  have shaded : shadedSample.Lined := lined_of_table (by decide) (by decide) (by decide)
  have reversed : reversedSample.Lined := lined_of_table (by decide) (by decide) (by decide)
  have spans : (∀ id < shadedSample.nodes.size, (shadedSample.span id).isSome = true) ∧
      ∀ id < reversedSample.nodes.size, (reversedSample.span id).isSome = true := by decide
  refine ⟨⟨shaded, fun id reached => ?_, fun locates => ?_⟩,
    reversed, fun id reached => ?_, fun locates => ?_⟩
  · exact Option.isSome_iff_exists.mp (spans.1 id (shaded.linked.reaches_lt (by decide) reached))
  · obtain ⟨n, ends⟩ := locates.some ⟨3, shaded.mem_startingOn.mp (by decide)⟩
    have climbs := shaded.linked.climbs 2 (show 3 < shadedSample.nodes.size by decide)
    obtain rfl : n = 2 := ((ends.first 3 (startingOn_head?.mpr (by decide))).unique climbs).trans
      (by decide)
    obtain ⟨-, -, -, out, -⟩ := ends.foremost
    exact absurd out.starts.2.1 (by decide)
  · exact Option.isSome_iff_exists.mp (spans.2 id (reversed.linked.reaches_lt (by decide) reached))
  · obtain ⟨n, ends⟩ := locates.some ⟨1, reversed.mem_startingOn.mp (by decide)⟩
    have here := (ends.first 1 (startingOn_head?.mpr (by decide))).unique
      (reversed.linked.climbs 3 (by decide))
    have there := (ends.preferred 2 (startingOn_find?.mpr (by decide))).unique
      (reversed.linked.climbs 3 (by decide))
    exact absurd (here.symm.trans there) (by decide)

end Quell.Document
