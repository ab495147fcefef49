import Quell.Proofs.Annotate.Follows

/-!
What a call does to a document.

A deed serves a rule at a node, fills a block, puts a markup comment among the children of an
element, or cuts their texts. It spares all nodes but those it is about, and documents of which one
follows the other do the same deed alike: `Does.follows`. So deeds at different places may come in
either order: `swap_deeds`.
-/
namespace Quell.Document

open Text Relation

variable {source : Text} {o : AnnotateOptions} {rule : Text}
variable {f : NodeId → NodeId} {E : NodeId → Prop} {K : NodeId → Slot → Prop}
variable {u u' v v' : Document}

/-- A markup comment comes in between `A` and `C`, in place of a text that is parted or of nothing. -/
inductive Inserts (u : Document) (p : NodeId) (A C : List NodeId) (lead : Option Text) (body gap : Text) :
    List NodeId → List Text → Document → List NodeId → Prop where
  | beside {u' : Document} : u.Noted u' p A C lead body gap →
      Inserts u p A C lead body gap [] [] u' (noteIds u.nodes.size lead)
  | parted {b : NodeId} {front : List Text} {room u' : Document} : u.Recut room p A b C front →
      room.Noted u' p (A ++ List.range' u.nodes.size front.length) C lead body gap →
      Inserts u p A C lead body gap [b] front u'
        (List.range' u.nodes.size front.length ++ noteIds room.nodes.size lead)

section Inserts

variable {p : NodeId} {A A' B C C' N N' : List NodeId} {front : List Text} {lead : Option Text}
variable {body gap : Text}

theorem Inserts.split (inserts : u.Inserts p A C lead body gap B front u' N) :
    u.children p = A ++ B ++ C ∧ u'.children p = A ++ N ++ C := by
  cases inserts with
  | beside noted => exact ⟨noted.splice.split, noted.splice.children_here⟩
  | parted recut noted =>
    refine ⟨recut.splice.split, ?_⟩
    rw [noted.splice.children_here, List.append_assoc A]

theorem Inserts.parent_here (inserts : u.Inserts p A C lead body gap B front u' N) :
    u'.parent p = u.parent p := by
  unfold parent
  cases inserts with
  | beside noted => rw [noted.splice.here]
  | parted recut noted => rw [noted.splice.here, recut.splice.here]

theorem Inserts.linked (inserts : u.Inserts p A C lead body gap B front u' N) (linked : u.Linked) :
    u'.Linked := by
  cases inserts with
  | beside noted => exact noted.splice.linked' linked
  | parted recut noted => exact noted.splice.linked' (recut.splice.linked' linked)

theorem Inserts.spares (inserts : u.Inserts p A C lead body gap B front u' N) :
    u.Spares (fun j => j = p ∨ j ∈ B) (fun _ _ => False) u' := by
  cases inserts with
  | beside noted => exact noted.splice.spares
  | parted recut noted =>
    refine recut.splice.spares.trans (noted.splice.spares.mono (fun j _ h => ?_) fun _ _ h => h)
    exact .inl (h.resolve_right List.not_mem_nil)

theorem Inserts.size (inserts : u.Inserts p A C lead body gap B front u' N) :
    u'.nodes.size = u.nodes.size + front.length + 3 + lead.toList.length := by
  cases inserts with
  | beside noted => exact noted.size
  | parted recut noted => rw [noted.size, recut.size]

theorem Follows.map_range (h : u.Follows f E K v) (k : Nat) :
    (List.range' u.nodes.size k).map f = List.range' v.nodes.size k := by
  refine List.ext_getElem (by simp) fun i lt lt' => ?_
  simp only [List.getElem_map, List.getElem_range', Nat.one_mul]
  exact h.far i

theorem Follows.map_noteIds (h : u.Follows f E K v) (lead : Option Text) :
    (noteIds u.nodes.size lead).map f = noteIds v.nodes.size lead := by
  have zero : f u.nodes.size = v.nodes.size := h.far 0
  have two : f (u.nodes.size + 2) = v.nodes.size + 2 := h.far 2
  have three : f (u.nodes.size + 3) = v.nodes.size + 3 := h.far 3
  cases lead <;> simp [noteIds, zero, two, three]

theorem Follows.inserts (h : u.Follows f E K v) (left : u.Inserts p A C lead body gap B front u' N)
    (right : v.Inserts (f p) A' C' lead body gap (B.map f) front v' N')
    (around : ¬ E p → A' = A.map f ∧ C' = C.map f) :
    N' = N.map f ∧ u'.Follows f E K v' := by
  cases left with
  | beside noted =>
    cases right with
    | beside noted' => exact ⟨(h.map_noteIds lead).symm, h.noted noted noted' around⟩
  | parted recut noted =>
    cases right with
    | parted recut' noted' =>
      have mid := h.recut recut recut' around
      refine ⟨?_, mid.noted noted noted' fun out => ⟨?_, (around out).2⟩⟩
      · rw [List.map_append, h.map_range, mid.map_noteIds]
      · rw [List.map_append, h.map_range, (around out).1]

end Inserts

inductive Deed where
  | skip (reason : SkipReason)
  | serve (id : NodeId) (way : Way)
  | fill (block : NodeId)
  | note (p : NodeId) (A B C : List NodeId) (front : List Text) (lead : Option Text) (indent : Text)
  | cut (q : NodeId) (A X C : List NodeId)

inductive Does (o : AnnotateOptions) (rule : Text) (u : Document) : Deed → Document → Prop where
  | skip {reason : SkipReason} : Does o rule u (.skip reason) u
  | serve {id : NodeId} {way : Way} : id < u.nodes.size → way.Fair o →
      Does o rule u (.serve id way) (u.serveAt id way rule).1
  | fill {block : NodeId} : block < u.nodes.size → u.kind block = .block → u.children block = [] →
      Does o rule u (.fill block)
        ((u.addPlaceholder block).1.serveAt u.nodes.size (behindWay o) rule).1
  | note {p : NodeId} {A B C N : List NodeId} {front : List Text} {lead : Option Text} {indent : Text}
      {u' : Document} : p < u.nodes.size → (u.kind p).hasMarkupChildren = true →
      (∀ b ∈ B, u.isBlankText b = true) →
      u.Inserts p A C lead (directiveText o .nextLine rule .block) (u.eol.text ++ indent) B front u' N →
      Does o rule u (.note p A B C front lead indent) u'
  | cut {q : NodeId} {A X C : List NodeId} {u' : Document} : q < u.nodes.size →
      (u.kind q).hasMarkupChildren = true → u.children q = A ++ X ++ C →
      (∀ x ∈ X, u.text? x ≠ none → u.children x = []) → u.segmentAll X.reverse = .ok u' →
      Does o rule u (.cut q A X C) u'

namespace Deed

def answer (u : Document) (rule : Text) : Deed → Resolution
  | skip reason => .skipped reason
  | serve id way => (u.serveAt id way rule).2
  | fill _ | note .. | cut .. => .inserted

/-- The nodes whose links are changed. -/
def links (u : Document) : Deed → NodeId → Prop
  | skip _, _ | serve .., _ => False
  | fill block, j => j = block
  | note p _ B _ _ _ _, j => j = p ∨ j ∈ B
  | cut q _ X _, j => j = q ∨ j ∈ X ∧ u.text? j ≠ none

def remarks : Deed → NodeId → Slot → Prop
  | serve id way, j, slot => j = id ∧ slot ∈ way.slots
  | _, _, _ => False

/-- The same deed under new names, in a document that may hold other children around its place. -/
inductive Matches (u : Document) (f : NodeId → NodeId) (E : NodeId → Prop) : Deed → Deed → Prop where
  | skip {reason : SkipReason} : Matches u f E (.skip reason) (.skip reason)
  | serve {id : NodeId} {way : Way} : Matches u f E (.serve id way) (.serve (f id) way)
  | fill {block : NodeId} : Matches u f E (.fill block) (.fill (f block))
  | note {p : NodeId} {A A' B C C' : List NodeId} {front : List Text} {lead : Option Text}
      {indent : Text} : (¬ E p → A' = A.map f ∧ C' = C.map f) →
      Matches u f E (.note p A B C front lead indent) (.note (f p) A' (B.map f) C' front lead indent)
  | cut {q : NodeId} {A A' X C C' : List NodeId} : (¬ E q → A' = A.map f ∧ C' = C.map f) →
      (∀ x ∈ X, u.text? x ≠ none → ¬ E x) → Matches u f E (.cut q A X C) (.cut (f q) A' (X.map f) C')

end Deed

/-- The deed rewrites the children of a node between `A` and `C`. -/
inductive Deed.At (p : NodeId) (A B C : List NodeId) : Deed → Prop where
  | note {front : List Text} {lead : Option Text} {indent : Text} :
      At p A B C (.note p A B C front lead indent)
  | cut : At p A B C (.cut p A B C)

section Does

variable {d d' : Deed}

theorem text_of_blank {j : NodeId} (blank : u.isBlankText j = true) : u.text? j ≠ none := by
  intro none
  unfold isBlankText at blank
  rw [none] at blank
  cases blank

theorem Does.linked (does : u.Does o rule d u') (linked : u.Linked) : u'.Linked := by
  have served : ∀ {u : Document} {id : NodeId} {way : Way}, u.Linked → (u.serveAt id way rule).1.Linked := by
    intro u id way linked
    have tree : ∀ j, (u.serveAt id way rule).1.children j = u.children j ∧
        (u.serveAt id way rule).1.parent j = u.parent j := by
      intro j
      unfold Document.children Document.parent serveAt
      dsimp only
      rw [node_update]
      split
      · rename_i here
        rw [here.1]
        exact (u.node id).serve_links way rule
      · exact ⟨rfl, rfl⟩
    exact linked.of_same (fun j => (tree j).1) fun j => (tree j).2
  cases does with
  | skip => exact linked
  | serve => exact served linked
  | fill valid _ _ => exact served ((addPlaceholder_spec valid).1.linked' linked)
  | note _ _ _ inserts => exact inserts.linked linked
  | cut _ _ split leaf result => exact (segmentAll_spares linked split leaf result).2.1

theorem Does.spares (does : u.Does o rule d u') (linked : u.Linked) :
    u.Spares (d.links u) d.remarks u' := by
  cases does with
  | skip => exact .refl _ _ u
  | serve valid fair => exact spares_serveAt fair valid rule
  | @fill block valid _ empty =>
    obtain ⟨splice, size, -⟩ := addPlaceholder_spec valid
    have new : u.nodes.size < (u.addPlaceholder block).1.nodes.size := by
      rw [size]
      exact Nat.lt_succ_self _
    have first : u.Spares (fun j => j = block) (fun _ _ => False) (u.addPlaceholder block).1 :=
      splice.spares.mono (fun j _ h => h.resolve_right List.not_mem_nil) fun _ _ h => h
    have second := spares_serveAt (behindWay_fair o) new rule
    -- The comment goes to the new node.
    refine ⟨second.eol.trans first.eol, Nat.le_trans first.grows second.grows, fun j lt => ?_,
      fun j lt => ?_, fun j lt free => ?_, fun j lt free => ?_, fun j lt slot _ => ?_⟩
    · exact (second.kind j (Nat.lt_of_lt_of_le lt first.grows)).trans (first.kind j lt)
    · exact (second.span j (Nat.lt_of_lt_of_le lt first.grows)).trans (first.span j lt)
    · exact (second.parent j (Nat.lt_of_lt_of_le lt first.grows) id).trans (first.parent j lt free)
    · exact (second.children j (Nat.lt_of_lt_of_le lt first.grows) id).trans (first.children j lt free)
    · refine (second.comments j (Nat.lt_of_lt_of_le lt first.grows) slot ?_).trans
        (first.comments j lt slot id)
      exact fun h => Nat.ne_of_lt lt h.1
  | note _ _ _ inserts => exact inserts.spares
  | cut _ _ split leaf result => exact (segmentAll_spares linked split leaf result).1

/-- Documents of which one follows the other do a deed alike. -/
theorem Does.follows (left : u.Does o rule d u') (right : v.Does o rule d' v')
    (h : u.Follows f E K v) (linked : u.Linked) (linked' : v.Linked) (same : d.Matches u f E d')
    (old : ∀ j slot, K j slot → j < u.nodes.size)
    (free : ∀ id way, d = .serve id way → ∀ slot, ¬ K id slot) (name : RuleName rule) :
    u'.Follows f E K v' ∧ d'.answer v rule = d.answer u rule := by
  cases same with
  | skip =>
    cases left
    cases right
    exact ⟨h, rfl⟩
  | @serve id way =>
    cases left with
    | serve valid =>
      cases right
      obtain ⟨answer, next⟩ := h.serveAt valid (free id way rfl) way name
      exact ⟨next, answer⟩
  | fill =>
    cases left with
    | fill valid _ empty =>
      cases right with
      | fill valid' _ empty' =>
        have new : f u.nodes.size = v.nodes.size := h.far 0
        refine ⟨?_, rfl⟩
        rw [← new]
        refine ((h.addPlaceholder valid empty empty').serveAt ?_ (fun slot held => ?_) _ name).2
        · rw [size_addPlaceholder valid]
          exact Nat.lt_succ_self _
        · exact absurd (old _ slot held) (Nat.lt_irrefl _)
  | note around =>
    cases left with
    | note _ _ _ inserts =>
      cases right with
      | note _ _ _ inserts' =>
        rw [h.eol] at inserts'
        exact ⟨(h.inserts inserts inserts' around).2, rfl⟩
  | cut around free' =>
    cases left with
    | cut _ _ split leaf result =>
      cases right with
      | cut _ _ split' leaf' result' =>
        obtain ⟨_, _, N, done, done', next, -, -⟩ :=
          h.segmentAll linked linked' split split' leaf free' around
        cases result.symm.trans done
        cases result'.symm.trans done'
        exact ⟨next, rfl⟩

/-- The sizes to which the documents grow. -/
theorem Follows.width (h : u.Follows f E K v) (h' : u'.Follows f E K v') {width : Nat}
    (size : u'.nodes.size = u.nodes.size + width) : v'.nodes.size = v.nodes.size + width := by
  have last := h'.far 0
  rw [Nat.add_zero, Nat.add_zero, size, h.far] at last
  exact last.symm

theorem Does.links_lt (does : u.Does o rule d u') (linked : u.Linked) {j : NodeId}
    (h : d.links u j) : j < u.nodes.size := by
  have child : ∀ {p : NodeId} {A B C : List NodeId}, u.children p = A ++ B ++ C → j ∈ B →
      j < u.nodes.size := fun {p A B C} split mem => linked.child_lt (p := p) (by
        unfold Holds
        rw [split]
        simp [mem])
  cases does with
  | skip => exact h.elim
  | serve => exact h.elim
  | fill valid => exact h ▸ valid
  | note valid _ _ inserts =>
    rcases h with rfl | mem
    · exact valid
    · exact child inserts.split.1 mem
  | cut valid _ split =>
    rcases h with rfl | ⟨mem, -⟩
    · exact valid
    · exact child split mem

theorem Does.remarks_lt (does : u.Does o rule d u') {j : NodeId} {slot : Slot}
    (h : d.remarks j slot) : j < u.nodes.size := by
  cases does with
  | serve valid => exact h.1 ▸ valid
  | skip => exact h.elim
  | fill => exact h.elim
  | note => exact h.elim
  | cut => exact h.elim

end Does

section Swap

variable {n a b first : Nat} {d d' e e' : Deed} {r q : Text}
variable {z left right both both' : Document}

/-- A deed that matches another one under new names changes the same old nodes. -/
theorem Deed.Matches.links_old {w : Document} (same : d.Matches z (shift z.nodes.size a) E d')
    (does : z.Does o r d w) (linked : z.Linked) (spares : z.Spares E K left) {j : NodeId}
    (h : d'.links left j) : d.links z j := by
  have old := fun j h => does.links_lt linked (j := j) h
  cases same with
  | skip => exact h
  | serve => exact h
  | fill => exact h.trans (shift_old (old _ rfl))
  | @note p A A' B C C' front lead indent =>
    have within : B.map (shift z.nodes.size a) = B := map_shift fun x hx => old x (.inr hx)
    exact h.imp (fun h => h.trans (shift_old (old p (.inl rfl)))) fun mem => within ▸ mem
  | @cut q A A' X C C' =>
    cases does with
    | cut _ _ split =>
      have held : ∀ x ∈ X, x < z.nodes.size := fun x hx => linked.child_lt (p := q) (by
        unfold Holds
        rw [split]
        simp [hx])
      rw [Deed.links, map_shift held] at h
      refine h.imp (fun h => h.trans (shift_old (old q (.inl rfl)))) fun h => ⟨h.1, ?_⟩
      have same : left.text? j = z.text? j := by
        unfold text?
        rw [spares.kind j (held j h.1)]
      rw [← same]
      exact h.2

theorem Deed.Matches.remarks_old {w : Document} (same : d.Matches z (shift z.nodes.size a) E d')
    (does : z.Does o r d w) {j : NodeId} {slot : Slot} (h : d'.remarks j slot) : d.remarks j slot := by
  cases same with
  | @serve id way =>
    cases does with
    | serve valid => exact ⟨h.1.trans (shift_old valid), h.2⟩
  | skip => exact h
  | fill => exact h
  | note => exact h
  | cut => exact h

/-- Deeds that are about different comments come to the same in either order, and only nodes whose
links both change have to be compared. -/
theorem swap_deeds (linked : z.Linked) (old : first ≤ z.nodes.size)
    (size : left.nodes.size = z.nodes.size + a) (size' : right.nodes.size = z.nodes.size + b)
    (one : z.Does o r d left) (two : z.Does o q e right)
    (next : left.Does o q e' both) (next' : right.Does o r d' both')
    (same : d.Matches z (shift z.nodes.size b) (e.links z) d')
    (same' : e.Matches z (shift z.nodes.size a) (d.links z) e')
    (apart : ∀ id slot slot', d.remarks id slot → ¬ e.remarks id slot')
    (shared : ∀ j, e.links z j → d.links z j →
      both'.parent j = (both.parent j).map (exchange z.nodes.size a b) ∧
        both'.children j = (both.children j).map (exchange z.nodes.size a b))
    (name : RuleName r) (name' : RuleName q) :
    Alike first (exchange z.nodes.size a b) both both' ∧
      e'.answer left q = e.answer z q ∧ d'.answer right r = d.answer z r := by
  have spares := one.spares linked
  have spares' := two.spares linked
  have far := spares.follows linked size
  have far' := spares'.follows linked size'
  have free : ∀ id way, d = .serve id way → ∀ slot, ¬ e.remarks id slot := by
    rintro id way rfl slot
    cases one with
    | serve _ fair => exact apart id way.slot slot ⟨rfl, fair.mem⟩
  have free' : ∀ id way, e = .serve id way → ∀ slot, ¬ d.remarks id slot := by
    rintro id way rfl slot h
    cases two with
    | serve _ fair => exact apart id slot way.slot h ⟨rfl, fair.mem⟩
  obtain ⟨follows, answer⟩ := one.follows next' far' linked (two.linked linked) same
    (fun _ _ h => two.remarks_lt h) free name
  obtain ⟨follows', answer'⟩ := two.follows next far linked (one.linked linked) same'
    (fun _ _ h => one.remarks_lt h) free' name'
  refine ⟨alike_of_follows old (one.linked linked) (two.linked linked) size size' ?_ ?_ follows
    follows' ?_ ?_ (fun j => ⟨two.links_lt linked, one.links_lt linked⟩)
    (fun j slot => ⟨fun h => ⟨two.remarks_lt h, fun h' => apart j slot slot h' h⟩, one.remarks_lt⟩)
    shared, answer', answer⟩
  · rw [far.width follows' size', size]
  · rw [far'.width follows size, size']
  · exact (next.spares (one.linked linked)).mono
      (fun j _ h => same'.links_old two linked spares h) fun j slot h => same'.remarks_old two h
  · exact (next'.spares (two.linked linked)).mono
      (fun j _ h => same.links_old one linked spares' h) fun j slot h => same.remarks_old one h

theorem Does.parent_here {p : NodeId} {A B C : List NodeId} (does : z.Does o r d left)
    (at_ : d.At p A B C) (linked : z.Linked) : left.parent p = z.parent p := by
  cases at_ with
  | note =>
    cases does with
    | note _ _ _ inserts => exact inserts.parent_here
  | cut =>
    cases does with
    | cut _ _ split leaf result => exact (segmentAll_spares linked split leaf result).2.2.1

/-- Texts only are taken from their parents, and by other deeds than cuts only blank ones. -/
theorem Does.parent_stays (does : z.Does o r d left) (linked : z.Linked) {j : NodeId}
    (lt : j < z.nodes.size)
    (solid : z.text? j = none ∨ z.isBlankText j = false ∧ ∀ q A X C, d ≠ .cut q A X C) :
    left.parent j = z.parent j := by
  have ink : z.isBlankText j = false := solid.elim (fun none => by
    unfold isBlankText
    rw [none]) And.left
  by_cases held : d.links z j
  · cases does with
    | skip => exact held.elim
    | serve => exact held.elim
    | @fill block valid _ empty =>
      obtain ⟨splice, size, -⟩ := addPlaceholder_spec valid
      have new : z.nodes.size < (z.addPlaceholder block).1.nodes.size := by
        rw [size]
        exact Nat.lt_succ_self _
      have spares := spares_serveAt (behindWay_fair o) new r
      rw [spares.parent j (Nat.lt_of_lt_of_le lt splice.grows) id, splice.parent_rest lt nofun]
    | note _ _ blank inserts =>
      rcases held with rfl | mem
      · exact inserts.parent_here
      · exact absurd (blank j mem) (by rw [ink]; exact nofun)
    | cut _ _ split leaf result =>
      rcases held with rfl | ⟨-, text⟩
      · exact (segmentAll_spares linked split leaf result).2.2.1
      · exact absurd text (solid.elim (absurd · ·) fun other => absurd rfl (other.2 _ _ _ _))
  · exact (does.spares linked).parent j lt held

/-- What documents get between the same children. -/
theorem Does.window {p : NodeId} {A A' B C C' : List NodeId} (one : u.Does o r d u')
    (two : v.Does o r d' v') (h : u.Follows f E K v) (linked : u.Linked) (linked' : v.Linked)
    (at_ : d.At p A B C) (at' : d'.At (f p) A' (B.map f) C') (same : d.Matches u f E d') :
    u.children p = A ++ B ++ C ∧ ∃ N, u'.children p = A ++ N ++ C ∧
      v'.children (f p) = A' ++ N.map f ++ C' := by
  cases at_ with
  | note =>
    cases same with
    | note around =>
      cases at'
      cases one with
      | note _ _ _ inserts =>
        cases two with
        | note _ _ _ inserts' =>
          rw [h.eol] at inserts'
          obtain ⟨rfl, -⟩ := h.inserts inserts inserts' around
          exact ⟨inserts.split.1, _, inserts.split.2, inserts'.split.2⟩
  | cut =>
    cases same with
    | cut around free =>
      cases at'
      cases one with
      | cut _ _ split leaf result =>
        cases two with
        | cut _ _ split' leaf' result' =>
          obtain ⟨_, _, N, done, done', -, here, here'⟩ :=
            h.segmentAll linked linked' split split' leaf free around
          cases result.symm.trans done
          cases result'.symm.trans done'
          exact ⟨split, N, here, here'⟩

theorem Deed.At.silent {p : NodeId} {A B C : List NodeId} (at_ : d.At p A B C) (j : NodeId)
    (slot : Slot) : ¬ d.remarks j slot := by
  cases at_ <;> exact id

theorem Does.split {p : NodeId} {A B C : List NodeId} (does : z.Does o r d left)
    (at_ : d.At p A B C) : p < z.nodes.size ∧ z.children p = A ++ B ++ C := by
  cases at_ with
  | note =>
    cases does with
    | note valid _ _ inserts => exact ⟨valid, inserts.split.1⟩
  | cut =>
    cases does with
    | cut valid _ split => exact ⟨valid, split⟩

theorem Deed.At.links {p : NodeId} {A B C : List NodeId} (at_ : d.At p A B C) {j : NodeId}
    (h : d.links z j) : j = p ∨ j ∈ B := by
  cases at_ with
  | note => exact h
  | cut => exact h.imp_right And.left

/-- Two deeds in one child list, one behind the other, may come in either order. -/
theorem swap_beside {p : NodeId} {A A' B M B₂ C C' : List NodeId} (linked : z.Linked)
    (old : first ≤ z.nodes.size) (size : left.nodes.size = z.nodes.size + a)
    (size' : right.nodes.size = z.nodes.size + b) (one : z.Does o r d left)
    (two : z.Does o q e right) (next : left.Does o q e' both) (next' : right.Does o r d' both')
    (same : d.Matches z (shift z.nodes.size b) (e.links z) d')
    (same' : e.Matches z (shift z.nodes.size a) (d.links z) e')
    (at_ : d.At p A B (M ++ B₂ ++ C)) (behind : e.At p (A ++ B ++ M) B₂ C) (at' : d'.At p A B C')
    (behind' : e'.At p A' B₂ C) (name : RuleName r) (name' : RuleName q) :
    Alike first (exchange z.nodes.size a b) both both' ∧
      e'.answer left q = e.answer z q ∧ d'.answer right r = d.answer z r := by
  have far := (one.spares linked).follows linked size
  have far' := (two.spares linked).follows linked size'
  obtain ⟨lt, split⟩ := one.split at_
  have held : ∀ x ∈ A ++ B ++ (M ++ B₂ ++ C), x < z.nodes.size := fun x hx =>
    linked.child_lt (p := p) (by
      unfold Holds
      rw [split]
      exact hx)
  have fixed : ∀ width, shift z.nodes.size width p = p := fun width => shift_old lt
  have kept : ∀ width (xs : List NodeId), (∀ x ∈ xs, x ∈ A ++ B ++ (M ++ B₂ ++ C)) →
      xs.map (shift z.nodes.size width) = xs := fun width xs sub =>
    map_shift fun x hx => held x (sub x hx)
  have place : d'.At (shift z.nodes.size b p) A (B.map (shift z.nodes.size b)) C' := by
    rw [fixed, kept b B (by simp +contextual)]
    exact at'
  have place' : e'.At (shift z.nodes.size a p) A' (B₂.map (shift z.nodes.size a)) C := by
    rw [fixed, kept a B₂ (by simp +contextual)]
    exact behind'
  obtain ⟨-, N, here, there'⟩ := one.window next' far' linked (two.linked linked) at_ place same
  obtain ⟨-, N₂, here', there⟩ := two.window next far linked (one.linked linked) behind place' same'
  rw [fixed] at there there'
  -- What stands around each of the places in the end is what the other deed left there.
  have front : A' = A ++ N ++ M := by
    have again := (next.split behind').2
    rw [here, List.append_assoc A'] at again
    have regroup : A ++ N ++ (M ++ B₂ ++ C) = (A ++ N ++ M) ++ (B₂ ++ C) := by simp
    rw [regroup] at again
    exact (List.append_cancel_right again).symm
  have back : C' = M ++ N₂ ++ C := by
    have again := (next'.split at').2
    rw [here'] at again
    have regroup : A ++ B ++ M ++ N₂ ++ C = A ++ B ++ (M ++ N₂ ++ C) := by simp
    rw [regroup] at again
    exact (List.append_cancel_left again).symm
  have nodup := linked.nodup p
  rw [split] at nodup
  refine swap_deeds linked old size size' one two next next' same same'
    (fun id slot slot' h => absurd h (at_.silent id slot)) (fun j hj hj' => ?_) name name'
  have still : ∀ x < z.nodes.size, exchange z.nodes.size a b x = x := fun x lt => by
    rw [exchange_front (Nat.lt_of_lt_of_le lt (Nat.le_add_right _ _)), shift_old lt]
  have apart : ∀ x ∈ B₂, x ∉ B ∧ x ≠ p := by
    intro x mem
    refine ⟨fun mem' => ?_, ?_⟩
    · exact List.disjoint_of_nodup_append nodup (List.mem_append_right A mem') (by simp [mem])
    · rintro rfl
      refine linked.not_below_of_holds (p := x) (c := x) ?_ ReflTransGen.refl
      unfold Holds
      rw [split]
      simp [mem]
  rcases behind.links hj with rfl | mem
  · have stays : ∀ xs : List NodeId, (∀ x ∈ xs, x ∈ A ++ B ++ (M ++ B₂ ++ C)) →
        xs.map (exchange z.nodes.size a b) = xs := fun xs sub =>
      (List.map_congr_left fun x hx => still x (held x (sub x hx))).trans (List.map_id xs)
    have low : ∀ x ∈ N, x < z.nodes.size + a := fun x hx => size ▸ (one.linked linked).child_lt (p := j)
      (by unfold Holds; rw [here]; simp [hx])
    have low' : ∀ x ∈ N₂, x < z.nodes.size + b := fun x hx =>
      size' ▸ (two.linked linked).child_lt (p := j) (by unfold Holds; rw [here']; simp [hx])
    refine ⟨?_, ?_⟩
    · rw [next'.parent_here at' (two.linked linked), next.parent_here behind' (one.linked linked),
        one.parent_here at_ linked, two.parent_here behind linked]
      cases link : z.parent j with
      | none => rfl
      | some q => exact congrArg some (still q (linked.parent_lt link)).symm
    · rw [there, there', front, back]
      simp only [List.map_append]
      rw [map_exchange_front low, map_exchange_shift low', stays A (by simp +contextual),
        stays M (by simp +contextual), stays C (by simp +contextual)]
      simp
  · rcases at_.links hj' with rfl | mem'
    · exact absurd rfl (apart j mem).2
    · exact absurd mem' (apart j mem).1

end Swap

end Quell.Document
