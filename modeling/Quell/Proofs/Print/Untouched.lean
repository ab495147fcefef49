import Quell.Proofs.Print.Strokes
import Quell.Proofs.Text.Offsets

/-!
A document that nothing was added to prints its source.

In such a document every node has a span and every comment stands in the source as it is, so the
strokes only move on. A page that copies the source up to where it stands does so behind each of
them, unless an offset cuts a character: then printing faults. `print_untouched` is the whole run.
-/
namespace Quell

open Text

namespace Document

/-- Every node of the table has a span whose ends satisfy `P`, and names nodes of the table only. -/
structure Grown (doc : Document) (P : Nat → Prop) : Prop where
  root_lt : root < doc.nodes.size
  span : ∀ id < doc.nodes.size, ∃ s, doc.span id = some s ∧ P s.lo ∧ P s.hi
  child_lt : ∀ id c, doc.Holds id c → c < doc.nodes.size

structure Untouched (doc : Document) (P : Nat → Prop) : Prop extends doc.Grown P where
  comments : ∀ id slot, ∀ c ∈ (doc.node id).comments slot,
    c.isInserted = false ∧ c.revised = false

inductive Onward (P : Nat → Prop) : Stroke → Prop
  | start {n : Nat} : P n → Onward P (.start n [])
  | reach {n : Nat} : P n → Onward P (.reach n)

theorem revisionsOf_eq_nil {doc : Document} (plain : ∀ id ∈ doc.preorder, ∀ slot,
    ∀ c ∈ (doc.node id).comments slot, c.revised = false) : Press.revisionsOf doc = [] := by
  have each : ∀ c ∈ doc.preorder.flatMap fun id => (doc.node id).allComments,
      c.revised = false := by
    intro c hc
    obtain ⟨id, reached, mem⟩ := List.mem_flatMap.mp hc
    simp only [Node.allComments, List.mem_append] at mem
    rcases mem with (mem | mem) | mem
    · exact plain id reached .leading c mem
    · exact plain id reached .trailing c mem
    · exact plain id reached .inner c mem
  unfold Press.revisionsOf
  generalize (doc.preorder.flatMap fun id => (doc.node id).allComments) = cs at each
  induction cs with
  | nil => rfl
  | cons c cs ih =>
    have kept : c.revised = false := each c List.mem_cons_self
    rw [List.foldl_cons]
    simp only [kept]
    cases c.span <;> exact ih fun c hc => each c (List.mem_cons_of_mem _ hc)

namespace Untouched

variable {doc : Document} {P : Nat → Prop}

theorem inserted_eq_nil (h : doc.Untouched P) (id : NodeId) (slot : Slot) :
    inserted ((doc.node id).comments slot) = [] := by
  rw [inserted, List.filter_eq_nil_iff]
  intro c hc
  rw [(h.comments id slot c hc).1]
  exact Bool.false_ne_true

theorem strokesInside_onward (h : doc.Untouched P) (id : NodeId)
    {kids : List (NodeId × List Stroke)}
    (each : ∀ k ∈ kids, k.1 < doc.nodes.size ∧ ∀ st ∈ k.2, Onward P st) :
    ∀ st ∈ doc.strokesInside id kids, Onward P st := by
  induction kids with
  | nil => exact nofun
  | cons k later ih =>
    obtain ⟨child, own⟩ := k
    obtain ⟨valid, onward⟩ := each (child, own) List.mem_cons_self
    obtain ⟨s, hs, -⟩ := h.span child valid
    have entering : doc.strokesEntering id child (later.map (·.1)) = [] := by
      simp [strokesEntering, hs]
    have behind : doc.strokesBehind child id = [] := by
      have none := h.inserted_eq_nil child .trailing
      simp only [Node.comments] at none
      simp [strokesBehind, none]
    intro st mem
    rw [strokesInside, entering, behind, List.nil_append, List.append_nil] at mem
    rcases List.mem_append.mp mem with mem | mem
    · exact onward st mem
    · exact ih (fun k hk => each k (List.mem_cons_of_mem _ hk)) st mem

theorem fold_onward (h : doc.Untouched P) (fuel : Nat) {id : NodeId}
    (valid : id < doc.nodes.size) : ∀ st ∈ doc.fold doc.strokesOf fuel id, Onward P st := by
  induction fuel generalizing id with
  | zero => exact nofun
  | succ fuel ih =>
    obtain ⟨s, hs, lo, hi⟩ := h.span id valid
    have each : ∀ k ∈ (doc.children id).map fun c => (c, doc.fold doc.strokesOf fuel c),
        k.1 < doc.nodes.size ∧ ∀ st ∈ k.2, Onward P st := by
      intro k hk
      obtain ⟨c, hc, rfl⟩ := List.mem_map.mp hk
      exact ⟨h.child_lt id c hc, ih (h.child_lt id c hc)⟩
    have inside := h.strokesInside_onward id each
    have none := h.inserted_eq_nil id .leading
    simp only [Node.comments] at none
    intro st mem
    rw [fold, strokesOf, hs] at mem
    simp only [none, List.cons_append, List.mem_cons, List.mem_append, List.not_mem_nil,
      or_false] at mem
    rcases mem with rfl | mem | rfl
    · exact .start lo
    · exact inside st mem
    · exact .reach hi

theorem revisions_eq_nil (h : doc.Untouched P) (source : Text) :
    (Press.of doc source).revisions = [] :=
  revisionsOf_eq_nil fun id _ slot c hc => (h.comments id slot c hc).2

end Untouched
end Document

def Page.Copies (source : Text) (page : Page) : Prop :=
  ∃ rest, source = page.text ++ rest ∧ page.pos = bytes page.text

namespace Press

variable {press : Press} {page : Page}

theorem flushTo_copies (plain : press.revisions = []) (size : press.size = bytes press.source)
    (copies : page.Copies press.source) (target : Nat) :
    (∃ page', press.flushTo page target = .ok page' ∧ page'.Copies press.source ∧
        min target press.size ≤ page'.pos) ∨
      (press.flushTo page target = .error .outsideText ∧ ¬ Cut press.source target) := by
  obtain ⟨rest, split, pos⟩ := copies
  by_cases passed : min target press.size ≤ page.pos
  · exact .inl ⟨page, by simp [flushTo, passed, pure, Except.pure], ⟨rest, split, pos⟩, passed⟩
  · have run : press.flushTo page target = press.copyTo page (min target press.size) := by
      simp [flushTo, passed, plain]
    have front : Cut press.source page.pos := ⟨page.text, rest, split, pos.symm⟩
    cases found : slice? page.pos (min target press.size) press.source with
    | some m =>
      obtain ⟨a, b, e, ha, hm⟩ := slice?_eq_some.mp found
      have front_eq : a = page.text := by
        rw [List.append_assoc] at e
        exact (append_inj_bytes (e.symm.trans split) (by omega)).1
      have grown : Page.text ⟨⟨.copied page.pos (min target press.size), m⟩ :: page.pieces,
          min target press.size⟩ = page.text ++ m := by
        simp [Page.text]
      refine .inl ⟨_, by rw [run]; simp only [copyTo, slice, found]; rfl, ⟨b, ?_, ?_⟩, Nat.le_refl _⟩
      · rw [grown, ← front_eq, e]
      · rw [grown, bytes_append, ← pos]
        exact hm.symm
    | none =>
      refine .inr ⟨?_, fun cut => ?_⟩
      · rw [run]
        simp [copyTo, slice, found, bind, Except.bind]
      · have stop : Cut press.source (min target press.size) := by
          rw [size, cut.min_bytes]
          exact cut
        obtain ⟨m, hm⟩ := front.slice stop (Nat.le_of_not_le passed)
        cases found.symm.trans hm

theorem perform_copies (plain : press.revisions = []) (size : press.size = bytes press.source)
    {P : Nat → Prop} {stroke : Stroke} (onward : Document.Onward P stroke)
    (copies : page.Copies press.source) :
    (∃ page', press.perform page stroke = .ok page' ∧ page'.Copies press.source) ∨
      (press.perform page stroke = .error .outsideText ∧ ∃ n, P n ∧ ¬ Cut press.source n) := by
  cases onward with
  | @start n hn =>
    rcases flushTo_copies plain size copies n with ⟨page', run, copies', -⟩ | ⟨fault, torn⟩
    · exact .inl ⟨page', by simp only [perform, run]; rfl, copies'⟩
    · exact .inr ⟨by simp only [perform, fault]; rfl, n, hn, torn⟩
  | @reach n hn =>
    rcases flushTo_copies plain size copies n with ⟨page', run, copies', -⟩ | ⟨fault, torn⟩
    · exact .inl ⟨page', run, copies'⟩
    · exact .inr ⟨fault, n, hn, torn⟩

theorem performAll_copies (plain : press.revisions = []) (size : press.size = bytes press.source)
    {P : Nat → Prop} {strokes : List Stroke} (onward : ∀ st ∈ strokes, Document.Onward P st)
    (copies : page.Copies press.source) :
    (∃ page', strokes.foldlM press.perform page = .ok page' ∧ page'.Copies press.source) ∨
      (strokes.foldlM press.perform page = .error .outsideText ∧
        ∃ n, P n ∧ ¬ Cut press.source n) := by
  induction strokes generalizing page with
  | nil => exact .inl ⟨page, rfl, copies⟩
  | cons st rest ih =>
    rw [List.foldlM_cons]
    rcases perform_copies plain size (onward st List.mem_cons_self) copies with
      ⟨page', run, copies'⟩ | ⟨fault, torn⟩
    · rw [run]
      exact ih (fun st hst => onward st (List.mem_cons_of_mem _ hst)) copies'
    · rw [fault]
      exact .inr ⟨rfl, torn⟩

end Press

/-- Without revised comments, strokes that only move on print the source, unless they stop inside of a
character. -/
theorem Document.print_onward {doc : Document} {P : Nat → Prop} (source : Text)
    (plain : Press.revisionsOf doc = [])
    (onward : ∀ st ∈ doc.gather doc.strokesOf root, Document.Onward P st) :
    doc.print source = .ok source ∨
      (doc.print source = .error .outsideText ∧ ∃ n, P n ∧ ¬ Cut source n) := by
  have blank : Page.Copies (Press.of doc source).source {} := ⟨source, rfl, rfl⟩
  unfold print
  rw [Press.run_eq_perform, strokes, List.foldlM_append]
  rcases Press.performAll_copies plain rfl onward blank with ⟨page, run, copies⟩ | ⟨fault, torn⟩
  · rcases Press.flushTo_copies plain rfl copies source.bytes with
      ⟨page', last, ⟨rest, split, pos⟩, all⟩ | ⟨-, torn⟩
    · refine .inl ?_
      have spent : rest = [] := by
        have total := congrArg bytes split
        rw [bytes_append] at total
        have : bytes source ≤ page'.pos := by simpa [Press.of] using all
        exact bytes_eq_zero.mp (by change bytes source = _ at total; omega)
      rw [spent, List.append_nil] at split
      simp only [run, bind, Except.bind, List.foldlM_cons, List.foldlM_nil, Press.perform,
        last, pure, Except.pure, Except.map]
      exact congrArg _ split.symm
    · exact absurd (Cut.full source) torn
  · exact .inr ⟨by simp only [fault, bind, Except.bind, Except.map], torn⟩

/-- A document that nothing was added to prints its source, unless the end of a node is no cut of
it. -/
theorem Document.print_untouched {doc : Document} {P : Nat → Prop} (h : doc.Untouched P)
    (source : Text) :
    doc.print source = .ok source ∨
      (doc.print source = .error .outsideText ∧ ∃ n, P n ∧ ¬ Cut source n) :=
  print_onward source (h.revisions_eq_nil source) (h.fold_onward doc.nodes.size h.root_lt)

end Quell
